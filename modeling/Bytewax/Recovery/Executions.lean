import Bytewax.Recovery.Commit
import Bytewax.Recovery.Resume
import Mathlib.Logic.Function.Basic

/-!
# Bytewax.Recovery.Executions — executions that crash and resume

One execution after the other runs on the same recovery partitions.  Each asks `resume_from` for
its number and its epoch, and then does the durable writes that it gets to before it crashes.  Next
to the partitions stands the logical run: the snapshots of the epochs that are closed for good.
-/

namespace Bytewax

namespace Recovery

open Sql

variable {S K D : Type}

/-! ### What an execution writes -/

/-- A row that an execution writes; epochs are counted from the one it resumed from. -/
inductive DurableWrite (S K D : Type) where
  | ex
  | snap (stepId : S) (stateKey : K) (since : ℕ) (serChange : Option D)
  | front (workerIndex since : ℕ)
  deriving DecidableEq

namespace DurableWrite

/-- The second write may come after the first: the execution is recorded once and before its
frontiers, and the frontier of a worker does not go back and is behind all later snapshots. -/
def MayPrecede : DurableWrite S K D → DurableWrite S K D → Prop
  | .front _ n, .snap _ _ m _ => n ≤ m
  | .front w n, .front w' m => w = w' → n ≤ m
  | .front _ _, .ex => False
  | .ex, .ex => False
  | _, _ => True

instance : DecidableRel (MayPrecede (S := S) (K := K) (D := D)) := fun a b => by
  cases a <;> cases b <;> unfold MayPrecede <;> infer_instance

/-- The row of `snaps`. -/
def snap? (resumeEpoch : ℕ) : DurableWrite S K D → Option (SerializedSnapshot S K D)
  | .snap stepId stateKey since serChange =>
    some ⟨stepId, stateKey, resumeEpoch + since, serChange⟩
  | _ => none

/-- The row of `fronts`. -/
def front? (resumeFrom : ResumeFrom) : DurableWrite S K D → Option FrontierMeta
  | .front workerIndex since =>
    some ⟨resumeFrom.exNum, workerIndex, resumeFrom.resumeEpoch + since⟩
  | _ => none

/-- The epochs that worker `w` closed. -/
def closed? (w : ℕ) : DurableWrite S K D → Option ℕ
  | .front workerIndex since => if workerIndex = w then some since else none
  | _ => none

end DurableWrite

/-- The durable writes of an execution, up to its crash.  Epochs are processed in order: what is
snapshotted in an epoch is written before a frontier past it, on whichever worker. -/
structure Execution (S K D : Type) where
  workerCount : ℕ
  writes : List (DurableWrite S K D)
  ordered : writes.Pairwise DurableWrite.MayPrecede
  workers : ∀ w n, .front w n ∈ writes → w < workerCount ∧ .ex ∈ writes

namespace Execution

variable (exec : Execution S K D)

/-- The snapshots, for an execution that resumed from this epoch. -/
def snaps (resumeEpoch : ℕ) : List (SerializedSnapshot S K D) :=
  exec.writes.filterMap (DurableWrite.snap? resumeEpoch)

/-- The epochs that a worker closed. -/
def closedBy (w : ℕ) : ℕ := (exec.writes.filterMap (DurableWrite.closed? w)).foldr max 0

/-- The epochs that all workers closed. -/
def closed : ℕ := ((List.range exec.workerCount).map exec.closedBy).min?.getD 0

end Execution

/-! ### The recovery partitions -/

/-- The partitions that rows are routed to, by their keys. -/
structure Routing (S K : Type) (partCount : ℕ) where
  ex : ℕ → Fin partCount
  front : ℕ × ℕ → Fin partCount
  snap : S × K → Fin partCount

variable {partCount : ℕ}

/-- The recovery partitions. -/
abbrev Store (S K D : Type) (partCount : ℕ) := Fin partCount → RecoveryPart S K D

/-- Partitions that have just been initialized. -/
def Store.init : Store S K D partCount := fun i =>
  { RecoveryPart.empty with parts := ⟨[⟨i, partCount⟩], List.nodup_singleton _⟩ }

section

variable [LinearOrder S] [LinearOrder K] (route : Routing S K partCount)

/-- One durable write. -/
def applyWrite (resumeFrom : ResumeFrom) (workerCount : ℕ) (store : Store S K D partCount)
    (w : DurableWrite S K D) : Option (Store S K D partCount) :=
  match w with
  | .ex => do
    let i := route.ex resumeFrom.exNum
    let db ← ExecutionMetaWriter.writeBatch (store i)
      [⟨resumeFrom.exNum, workerCount, resumeFrom.resumeEpoch⟩]
    some (Function.update store i db)
  | .snap stepId stateKey since serChange => do
    let i := route.snap (stepId, stateKey)
    let db ← SerializedSnapshotWriter.writeBatch (store i)
      [⟨stepId, stateKey, resumeFrom.resumeEpoch + since, serChange⟩]
    some (Function.update store i db)
  | .front workerIndex since => do
    let i := route.front (resumeFrom.exNum, workerIndex)
    let db ← FrontierWriter.writeBatch (store i)
      [⟨resumeFrom.exNum, workerIndex, resumeFrom.resumeEpoch + since⟩]
    some (Function.update store i db)

/-- The snapshots that the loaders of all partitions read. -/
def loadAll (store : Store S K D partCount) (before : ℕ) :
    Option (List (SerializedSnapshot S K D)) :=
  ((List.finRange partCount).mapM fun i => loadSnaps (store i) before).map List.flatten

/-! ### Runs -/

/-- The recovery partitions, and the logical run up to `epoch`: the snapshots of the epochs below
it. -/
structure History (S K D : Type) (partCount : ℕ) where
  store : Store S K D partCount
  log : Table (SerializedSnapshot.key (S := S) (K := K) (D := D))
  epoch : ℕ

def History.init : History S K D partCount := ⟨.init, Table.empty, 1⟩

/-- What the next execution resumes from. -/
def History.resume (h : History S K D partCount) : Option ResumeFrom := do
  let db ← ResumeCalc.load (List.ofFn h.store)
  match ← resumeFrom db with
  | .ok resumeFrom => some resumeFrom
  | .error _ => none

/-- An execution resumes, writes and crashes.  The logical run is the resumed one, up to where it
resumes, and then what the execution closed. -/
def History.execute (h : History S K D partCount) (exec : Execution S K D) :
    Option (History S K D partCount × List ResumeFrom) := do
  let resumeFrom ← h.resume
  let store ← exec.writes.foldlM (applyWrite route resumeFrom exec.workerCount) h.store
  let epoch := resumeFrom.resumeEpoch + exec.closed
  let resumed := h.log.deleteWhere fun r => resumeFrom.resumeEpoch ≤ r.snapEpoch
  let log := ((exec.snaps resumeFrom.resumeEpoch).filter fun r => r.snapEpoch < epoch).foldl
    Table.upsert resumed
  some (⟨store, log, epoch⟩, [resumeFrom])

/-- The state of a key at the end of the epoch before `epoch`: what it changed to in that epoch, or
its state at the end of the one before. -/
def stateBefore (log : Table (SerializedSnapshot.key (S := S) (K := K) (D := D))) (key : S × K) :
    ℕ → Option D
  | 0 => none
  | epoch + 1 =>
    match log.rows.find? fun r => r.key = (key, epoch) with
    | some r => r.serChange
    | none => stateBefore log key epoch

/-- The state of a key that is loaded. -/
def loadedState (rows : List (SerializedSnapshot S K D)) (key : S × K) : Option D :=
  (rows.find? fun r => r.pair = key).bind SerializedSnapshot.serChange

/-- **A consistent cut**: the next execution resumes from where the logical run is, the state that
it loads for a key is the state of the key there, and every row it loads is one of the logical
run: none is left from an execution that crashed before it closed the row's epoch. -/
def ResumesConsistently (h : History S K D partCount) : Prop :=
  ∃ resumeFrom rows, h.resume = some resumeFrom ∧ resumeFrom.resumeEpoch = h.epoch ∧
    loadAll h.store resumeFrom.resumeEpoch = some rows ∧
    (∀ key, loadedState rows key = stateBefore h.log key resumeFrom.resumeEpoch) ∧
    ∀ r ∈ rows, r ∈ h.log

/-- Each row that earlier executions left in the epochs that this one closed, it wrote itself, or
it wrote a later row of the same step and key in these epochs. -/
def RewritesLeft (h : History S K D partCount) (exec : Execution S K D) : Prop :=
  ∀ i, ∀ r ∈ (h.store i).snaps, h.epoch ≤ r.snapEpoch → r.snapEpoch < h.epoch + exec.closed →
    ∃ r' ∈ exec.snaps h.epoch, r'.pair = r.pair ∧ r.snapEpoch ≤ r'.snapEpoch ∧
      r'.snapEpoch < h.epoch + exec.closed

end

/-! ### What an execution does to the partitions -/

section Applied

variable {route : Routing S K partCount} {resumeFrom : ResumeFrom}
  {workerCount : ℕ} {writes writes' : List (DurableWrite S K D)}
  {store store' store'' : Store S K D partCount}

variable (route resumeFrom workerCount) in
/-- The partitions after some durable writes. -/
structure Applied [LinearOrder S] [LinearOrder K] (writes : List (DurableWrite S K D))
    (store store' : Store S K D partCount) : Prop where
  parts : ∀ i, (store' i).parts = (store i).parts
  commits : ∀ i, (store' i).commits = (store i).commits
  exs : ∀ i x, x ∈ (store' i).exs ↔ x ∈ (store i).exs ∨
    .ex ∈ writes ∧ x = ⟨resumeFrom.exNum, workerCount, resumeFrom.resumeEpoch⟩ ∧
      i = route.ex resumeFrom.exNum
  fronts : ∀ i, (store' i).fronts = ((writes.filterMap (DurableWrite.front? resumeFrom)).filter
    fun r => route.front r.key = i).foldl Table.upsert (store i).fronts
  snaps : ∀ i, (store' i).snaps =
    ((writes.filterMap (DurableWrite.snap? resumeFrom.resumeEpoch)).filter
      fun r => route.snap r.pair = i).foldl Table.upsert (store i).snaps
  workers_pos : .ex ∈ writes → 0 < workerCount
  fronts_le : ∀ w n, .front w n ∈ writes → resumeFrom.resumeEpoch + n ≤ i64Max

variable [LinearOrder S] [LinearOrder K]

theorem Applied.append (h : Applied route resumeFrom workerCount writes store store')
    (h' : Applied route resumeFrom workerCount writes' store' store'') :
    Applied route resumeFrom workerCount (writes ++ writes') store store'' where
  parts i := (h'.parts i).trans (h.parts i)
  commits i := (h'.commits i).trans (h.commits i)
  exs i x := by
    rw [h'.exs, h.exs, List.mem_append, or_assoc, or_and_right]
  fronts i := by
    rw [h'.fronts, h.fronts, List.filterMap_append, List.filter_append, List.foldl_append]
  snaps i := by
    rw [h'.snaps, h.snaps, List.filterMap_append, List.filter_append, List.foldl_append]
  workers_pos hex := (List.mem_append.1 hex).elim h.workers_pos h'.workers_pos
  fronts_le w n hf := (List.mem_append.1 hf).elim (h.fronts_le w n) (h'.fronts_le w n)

theorem foldlM_singleton_eq_some {σ ι : Type} {f : σ → ι → Option σ} {s s' : σ} {i : ι} :
    [i].foldlM f s = some s' ↔ f s i = some s' := by
  rw [List.foldlM_cons]
  cases f s i <;> exact Iff.rfl

omit [LinearOrder S] [LinearOrder K] in
theorem writeFront_fits {db db' : RecoveryPart S K D} {r : FrontierMeta}
    (h : writeFront db r = some db') : r.workerFrontier ≤ i64Max := by
  obtain ⟨n, -, h⟩ := Option.bind_eq_some_iff.1 h
  obtain ⟨w, -, h⟩ := Option.bind_eq_some_iff.1 h
  obtain ⟨e, he, -⟩ := Option.bind_eq_some_iff.1 h
  exact (toSql_eq_some.1 he).1

omit [LinearOrder S] [LinearOrder K] in
/-- A write to one partition leaves what it does not change in it as it is in all partitions. -/
theorem update_frame {τ : Type} (g : RecoveryPart S K D → τ) {i : Fin partCount}
    {db : RecoveryPart S K D} (h : g db = g (store i)) (j : Fin partCount) :
    g (Function.update store i db j) = g (store j) := by
  by_cases hj : j = i
  · subst hj
    rw [Function.update_self, h]
  · rw [Function.update_of_ne hj]

omit [LinearOrder S] [LinearOrder K] in
theorem exs_update {i : Fin partCount} {db : RecoveryPart S K D} (h : db.exs = (store i).exs)
    (hex : .ex ∉ writes) (j : Fin partCount) (x : ExecutionMeta) (P : Prop) :
    x ∈ (Function.update store i db j).exs ↔ x ∈ (store j).exs ∨ .ex ∈ writes ∧ P := by
  rw [show (Function.update store i db j).exs = (store j).exs from update_frame (·.exs) h j]
  simp [hex]

/-- One durable write changes one table of one partition. -/
theorem applied_singleton {w : DurableWrite S K D}
    (h : applyWrite route resumeFrom workerCount store w = some store') :
    Applied route resumeFrom workerCount [w] store store' := by
  cases w with
  | ex =>
    obtain ⟨db, hdb, h⟩ := Option.bind_eq_some_iff.1 h
    obtain ⟨hpos, exs, hexs, rfl⟩ := writeEx_eq_some (foldlM_singleton_eq_some.1 hdb)
    cases h
    refine ⟨update_frame (·.parts) rfl, update_frame (·.commits) rfl, fun i x => ?_,
      update_frame (·.fronts) rfl, update_frame (·.snaps) rfl, fun _ => hpos, fun w n hw => ?_⟩
    · by_cases hi : i = route.ex resumeFrom.exNum
      · subst hi
        rw [Function.update_self]
        show x ∈ exs ↔ _
        rw [Table.mem_insert hexs, or_comm]
        simp
      · rw [Function.update_of_ne hi]
        simp [hi]
    · cases List.mem_singleton.1 hw
  | snap stepId stateKey since serChange =>
    obtain ⟨db, hdb, h⟩ := Option.bind_eq_some_iff.1 h
    have hdb := writeSnap_eq_some (foldlM_singleton_eq_some.1 hdb)
    subst hdb
    cases h
    have hex : ¬ DurableWrite.ex ∈ [DurableWrite.snap stepId stateKey since serChange] := by simp
    refine ⟨update_frame (·.parts) rfl, update_frame (·.commits) rfl,
      fun i x => exs_update (by rfl) hex i x _, update_frame (·.fronts) rfl, fun i => ?_,
      fun h => absurd h hex, fun w n hw => ?_⟩
    · by_cases hi : i = route.snap (stepId, stateKey)
      · subst hi
        rw [Function.update_self]
        simp [DurableWrite.snap?, SerializedSnapshot.pair]
      · rw [Function.update_of_ne hi]
        have hne : ¬ route.snap (stepId, stateKey) = i := fun he => hi he.symm
        simp [DurableWrite.snap?, SerializedSnapshot.pair, hne]
    · cases List.mem_singleton.1 hw
  | front workerIndex since =>
    obtain ⟨db, hdb, h⟩ := Option.bind_eq_some_iff.1 h
    have hfits := writeFront_fits (foldlM_singleton_eq_some.1 hdb)
    have hdb := writeFront_eq_some (foldlM_singleton_eq_some.1 hdb)
    subst hdb
    cases h
    have hex : ¬ (DurableWrite.ex : DurableWrite S K D) ∈ [.front workerIndex since] := by simp
    refine ⟨update_frame (·.parts) rfl, update_frame (·.commits) rfl,
      fun i x => exs_update (by rfl) hex i x _, fun i => ?_, update_frame (·.snaps) rfl,
      fun h => absurd h hex, fun w n hw => ?_⟩
    · by_cases hi : i = route.front (resumeFrom.exNum, workerIndex)
      · subst hi
        rw [Function.update_self]
        simp [DurableWrite.front?, FrontierMeta.key]
      · rw [Function.update_of_ne hi]
        have hne : ¬ route.front (resumeFrom.exNum, workerIndex) = i := fun he => hi he.symm
        simp [DurableWrite.front?, FrontierMeta.key, hne]
    · cases List.mem_singleton.1 hw
      exact hfits

theorem applied (h : writes.foldlM (applyWrite route resumeFrom workerCount) store = some store') :
    Applied route resumeFrom workerCount writes store store' := by
  induction writes generalizing store with
  | nil =>
    cases h
    refine ⟨fun _ => rfl, fun _ => rfl, fun i x => ?_, fun _ => rfl, fun _ => rfl, nofun, nofun⟩
    simp
  | cons w writes ih =>
    rw [List.foldlM_cons] at h
    obtain ⟨store₁, h₁, h⟩ := Option.bind_eq_some_iff.1 h
    exact (applied_singleton h₁).append (ih h)

end Applied

end Recovery

end Bytewax
