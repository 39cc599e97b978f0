import Bytewax.Recovery.Progress
import Bytewax.Timely.LoadCluster

/-!
# Bytewax.Recovery.ResumeCalc — the dataflow that calculates where to resume

Each worker loads the progress of the partitions that it is primary for and broadcasts it, and on
each worker `resume_from` writes all of it into a database that the worker then queries.
-/

namespace Bytewax

open Std (TreeMap TreeSet)

namespace Recovery

open EpochOp PartdLoad

variable {S K D : Type}

/-! ### The `resume_from` operator -/

/-- The buffers of the four inputs, for one epoch. -/
structure ProgressInbufs where
  parts : List PartitionMeta
  exs : List ExecutionMeta
  fronts : List FrontierMeta
  commits : List CommitMeta

namespace ProgressInbufs

def empty : ProgressInbufs := ⟨[], [], [], []⟩

/-- A row is buffered with those of its input. -/
def push (bufs : ProgressInbufs) : ProgressRow → ProgressInbufs
  | .part r => { bufs with parts := bufs.parts ++ [r] }
  | .ex r => { bufs with exs := bufs.exs ++ [r] }
  | .front r => { bufs with fronts := bufs.fronts ++ [r] }
  | .commit r => { bufs with commits := bufs.commits ++ [r] }

/-- The rows in the order in which they are written. -/
def rows (bufs : ProgressInbufs) : List ProgressRow :=
  bufs.parts.map .part ++ (bufs.exs.map .ex ++ (bufs.fronts.map .front ++ bufs.commits.map .commit))

/-- Write the batches of an epoch. -/
def write (db : RecoveryPart S K D) (bufs : ProgressInbufs) : Option (RecoveryPart S K D) := do
  let db ← PartitionMetaWriter.writeBatch db bufs.parts
  let db ← ExecutionMetaWriter.writeBatch db bufs.exs
  let db ← FrontierWriter.writeBatch db bufs.fronts
  CommitWriter.writeBatch db bufs.commits

end ProgressInbufs

/-- What is seen of the operator: what the database holds after a write, and the message at the end
of an epoch. -/
inductive ResumeEvent (S K D : Type)
  | wrote (db : RecoveryPart S K D)
  | sent

/-- What the database holds after an event. -/
def ResumeEvent.after (db : RecoveryPart S K D) : ResumeEvent S K D → RecoveryPart S K D
  | .wrote db' => db'
  | .sent => db

variable {as : List (EpochActivation ProgressRow Empty)} {e b : ℕ} {d₀ d : RecoveryPart S K D}
  {rows xs ys : List ProgressRow} {o : List (ℕ × ResumeEvent S K D)}

/-- `PartitionMetaLoader`, `ExecutionMetaLoader`, `FrontierLoader` and `CommitLoader`: the partition
that is read, and whether it has been. -/
structure ProgressLoader where
  part : ℕ
  done : Bool

/-- The loaders of a table, which read all of it in one batch. -/
def progressLoaders (disk : ℕ → RecoveryPart S K D) (table : ProgressTable) :
    Loaders ℕ ProgressLoader ProgressRow where
  builder partKey := ⟨partKey, false⟩
  nextBatch loader :=
    if loader.done then some (none, loader)
    else some (some (progressRows (disk loader.part) table), { loader with done := true })

/-- What such a loader reads. -/
def progressBatches (disk : ℕ → RecoveryPart S K D) (table : ProgressTable) (p : ℕ) :
    List (List ProgressRow) := [progressRows (disk p) table]

theorem progressLoaders_reads (disk : ℕ → RecoveryPart S K D) (table : ProgressTable) (p : ℕ) :
    (progressLoaders disk table).Reads ((progressLoaders disk table).builder p)
      (progressBatches disk table p) := .batch rfl (.eof rfl)

/-- The rows that a load sends, with their epochs. -/
def loadedRows {P R : Type} (calls : List (ℕ × LoadCall P R)) : List (ℕ × R) :=
  calls.flatMap fun call => (call.2.batch?.elim [] Prod.snd).map (Prod.mk call.1)

/-- What a load sends in all; nothing if it panics. -/
def loadOutputs {P L R : Type} [DecidableEq P] (loaders : Loaders P L R) (localParts : List P)
    (w : ℕ) (as : List (LoadActivation P)) : List (ℕ × LoadCall P R) :=
  ((Runs.run (PartdLoad.activate loaders localParts w) [] as).map Prod.snd).getD []

/-- The tables in the order in which `read_progress` loads them. -/
def progressTables : List ProgressTable := [.parts, .exs, .fronts, .commits]

/-- **The dataflow**: each worker loads the four tables, what is loaded is broadcast, and all of it
has arrived at the `resume_from` of each worker. -/
structure ResumeChannels (std : ProgressTable → Unstable ℕ ℕ) (disk : ℕ → RecoveryPart S K D)
    (localParts : ℕ → List ℕ) (workers : ℕ)
    (assigned : ProgressTable → List (EpochActivation (ℕ × ℕ) Empty))
    (loads : ProgressTable → ℕ → List (LoadActivation ℕ))
    (calcs : ℕ → List (EpochActivation ProgressRow Empty)) : Prop where
  load : ∀ table, LoadChannels (std table) (progressLoaders disk table) (progressBatches disk table)
    localParts workers (assigned table) (loads table)
  broadcast : ∀ v < workers, ∀ e, (itemsAt (calcs v) e).Perm
    (progressTables.flatMap fun table => (List.range workers).flatMap fun w => Keyed.valuesOf e
      (loadedRows (loadOutputs (progressLoaders disk table) (localParts w) w (loads table w))))
  schedule : ∀ v < workers, EpochSchedule (calcs v)
  ended : ∀ v < workers, lastFrontier (calcs v) = none

/-- What is sent in epoch 0 is all that is sent. -/
theorem valuesOf_loadedRows {P R : Type} {calls : List (ℕ × LoadCall P R)}
    (h : ∀ call ∈ calls, call.1 = 0) (e : ℕ) :
    Keyed.valuesOf e (loadedRows calls) =
      if e = 0 then (batchesOf calls).flatMap Prod.snd else [] := by
  induction calls with
  | nil => split <;> rfl
  | cons call calls ih =>
    obtain ⟨epoch, call⟩ := call
    obtain rfl : epoch = 0 := h _ List.mem_cons_self
    have hrest := ih fun x hx => h x (List.mem_cons_of_mem _ hx)
    have hcons : loadedRows ((0, call) :: calls) =
        (call.batch?.elim [] Prod.snd).map (Prod.mk 0) ++ loadedRows calls := rfl
    rw [hcons, Keyed.valuesOf_append, hrest]
    by_cases he : e = 0
    · subst he
      rw [if_pos rfl, if_pos rfl, Keyed.valuesOf_map_mk]
      cases call <;> rfl
    · rw [if_neg he, if_neg he, List.append_nil]
      refine Keyed.valuesOf_eq_nil fun hin => he ?_
      obtain ⟨x, hx, rfl⟩ := List.mem_map.mp hin
      obtain ⟨row, -, rfl⟩ := List.mem_map.mp hx
      rfl

variable {std : ProgressTable → Unstable ℕ ℕ} {disk : ℕ → RecoveryPart S K D}
  {localParts : ℕ → List ℕ} {workers : ℕ}
  {assigned : ProgressTable → List (EpochActivation (ℕ × ℕ) Empty)}
  {loads : ProgressTable → ℕ → List (LoadActivation ℕ)}
  {calcs : ℕ → List (EpochActivation ProgressRow Empty)}

/-- All workers together load a table of all partitions, in epoch 0. -/
theorem ResumeChannels.loaded
    (h : ResumeChannels std disk localParts workers assigned loads calcs) (table : ProgressTable)
    (e : ℕ) :
    ((List.range workers).flatMap fun w => Keyed.valuesOf e
      (loadedRows (loadOutputs (progressLoaders disk table) (localParts w) w (loads table w)))).Perm
    (if e = 0 then (allParts localParts workers).dedup.flatMap fun p => progressRows (disk p) table
      else []) := by
  have hload := fun w (hw : w < workers) => (h.load table).loaded
    (fun p _ => progressLoaders_reads disk table p) hw
  choose! calls hrun hepoch hbatches using hload
  have hrows : ∀ w ∈ List.range workers, Keyed.valuesOf e
      (loadedRows (loadOutputs (progressLoaders disk table) (localParts w) w (loads table w))) =
      if e = 0 then (batchesOf (calls w)).flatMap Prod.snd else [] := by
    intro w hw
    have hlt := List.mem_range.mp hw
    rw [loadOutputs, hrun w hlt]
    exact valuesOf_loadedRows (hepoch w hlt) e
  rw [List.flatMap_congr hrows]
  by_cases he : e = 0
  · simp only [if_pos he]
    have hflat := ((h.load table).batches_perm hbatches).flatMap_right Prod.snd
    rw [List.flatMap_assoc, List.flatMap_assoc] at hflat
    refine hflat.trans (.of_eq (List.flatMap_congr fun p _ => ?_))
    simp [progressBatches]
  · simp only [if_neg he]
    rw [List.flatMap_eq_nil_iff.mpr fun _ _ => rfl]

/-- A database with the rows of all partitions. -/
theorem HasRows.loaded {partitions : List (RecoveryPart S K D)} {db : RecoveryPart S K D}
    (h : HasRows db (partitions.flatMap allProgress)) : Loaded partitions db where
  parts x := by simpa [List.mem_flatMap] using h (.part x)
  exs x := by simpa [List.mem_flatMap] using h (.ex x)
  fronts x := by simpa [List.mem_flatMap] using h (.front x)
  commits x := by simpa [List.mem_flatMap] using h (.commit x)

end Recovery
end Bytewax
