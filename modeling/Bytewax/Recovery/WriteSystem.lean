import Bytewax.Recovery.Executions
import Bytewax.Timely.PartdCommit
import Bytewax.Timely.WriteConserves

/-!
# Bytewax.Recovery.WriteSystem — `write_recovery` on all workers

The writers of executions, snapshots and frontiers are `partd_write`; between them is the `frontier`
operator, which tells on each worker that everything before an epoch is written; and behind them is
`partd_commit`.  Operators are activated in any order, with what has been sent to them and with a
frontier that Timely allows.
-/

namespace Bytewax

open Std (TreeMap TreeSet)

namespace Recovery

variable {S K D W : Type}

/-- What is written by a `partd_write` with partitions `PartitionIndex`. -/
abbrev WriterState (V W : Type) := EpochState (TreeMap ℕ (List V)) (ℕ × ℕ) (TreeMap ℕ W)

/-- An activation of a `partd_write`: routed items, and primary assignments. -/
abbrev WriterActivation (Key V : Type) := EpochActivation (ℕ × ℕ × Key × V) (ℕ × ℕ)

/-- A `partd_commit` with partitions `PartitionIndex`. -/
abbrev CommitterState (W : Type) := EpochState Unit (ℕ × ℕ) (TreeMap ℕ W)

/-- What `write_recovery` is built from; `delay` is `epochs_per` the backup interval. -/
structure RecoveryWrite (S K D W : Type) where
  resumeFrom : ResumeFrom
  workerCount : ℕ
  localParts : ℕ → List ℕ
  exWriters : Writers ℕ ExecutionMeta W
  snapWriters : Writers ℕ (SerializedSnapshot S K D) W
  frontWriters : Writers ℕ FrontierMeta W
  committers : Committers ℕ W
  delay : ℕ

/-- `Snapshot`, with a state that is serialized. -/
structure Snapshot (S K D : Type) where
  stepId : S
  stateKey : K
  snapChange : StateChange D
  deriving DecidableEq, Repr

/-- `ser_snap`, of a snapshot in an epoch. -/
def serSnap (epoch : ℕ) : Snapshot S K D → (S × K) × SerializedSnapshot S K D
  | ⟨stepId, stateKey, snapChange⟩ =>
    let serChange := match snapChange with
      | .upsert serSnap => some serSnap
      | .discard => none
    ((stepId, stateKey), ⟨stepId, stateKey, epoch, serChange⟩)

/-- What `ser_snap` makes of snapshots in an epoch: rows of that epoch under their own keys. -/
theorem exists_serSnap {epoch : ℕ} {x : (S × K) × SerializedSnapshot S K D} :
    (∃ snap, x = serSnap epoch snap) ↔ x.1 = x.2.pair ∧ x.2.snapEpoch = epoch := by
  constructor
  · rintro ⟨snap, rfl⟩
    exact ⟨rfl, rfl⟩
  · obtain ⟨key, stepId, stateKey, snapEpoch, serChange⟩ := x
    rintro ⟨hkey, hepoch⟩
    obtain rfl : key = (stepId, stateKey) := hkey
    obtain rfl : snapEpoch = epoch := hepoch
    cases serChange with
    | none => exact ⟨⟨stepId, stateKey, .discard⟩, rfl⟩
    | some state => exact ⟨⟨stepId, stateKey, .upsert state⟩, rfl⟩

instance [DecidableEq S] [DecidableEq K] (epoch : ℕ) (x : (S × K) × SerializedSnapshot S K D) :
    Decidable (∃ snap, x = serSnap epoch snap) :=
  decidable_of_iff' _ exists_serSnap

/-- `frontier`: when the frontier has progressed past the capability, it is sent, at the time of the
capability; `none` is the dropped capability. -/
def frontierOp (exNum workerIndex : ℕ) (cap : Option ℕ) (frontier : Frontier) :
    Option ℕ × List (ℕ × FrontierMeta) :=
  match cap with
  | none => (none, [])
  | some cap =>
    if frontier.IsClosed cap then
      (frontier, [(cap, ⟨exNum, workerIndex, frontier.getD (cap + 1)⟩)])
    else (some cap, [])

/-- The operators on all workers, and what is on the channels: whether the row of the execution has
arrived at a writer, and the frontiers that have been sent and those that have arrived. -/
structure WriteState (S K D W : Type) where
  ex : ℕ → WriterState ExecutionMeta W
  snap : ℕ → WriterState (SerializedSnapshot S K D) W
  frontier : ℕ → Option ℕ
  front : ℕ → WriterState FrontierMeta W
  commit : ℕ → CommitterState W
  exArrived : Bool
  sent : List (ℕ × FrontierMeta)
  arrived : List (ℕ × FrontierMeta)

/-- An operator is activated on a worker. -/
inductive WriteStep (S K D : Type)
  | ex (worker : ℕ) (a : WriterActivation ℕ ExecutionMeta)
  | snap (worker : ℕ) (a : WriterActivation (S × K) (SerializedSnapshot S K D))
  | frontier (worker : ℕ) (frontier : Frontier)
  | front (worker : ℕ) (a : WriterActivation (ℕ × ℕ) FrontierMeta)
  | commit (worker : ℕ) (a : EpochActivation Unit (ℕ × ℕ))

/-- What the writers and the committers do. -/
inductive WriteEvent (S K D : Type)
  | ex (worker : ℕ) (call : ℕ × WriteCall ℕ ExecutionMeta)
  | snap (worker : ℕ) (call : ℕ × WriteCall ℕ (SerializedSnapshot S K D))
  | front (worker : ℕ) (call : ℕ × WriteCall ℕ FrontierMeta)
  | commit (worker : ℕ) (call : ℕ × CommitCall ℕ)
  deriving DecidableEq

namespace RecoveryWrite

open EpochOp

variable (cfg : RecoveryWrite S K D W)

/-- The writer of executions on a worker. -/
def exWriter (w : ℕ) := partdWrite (K := ℕ) cfg.exWriters (cfg.localParts w) w

/-- The writer of snapshots on a worker. -/
def snapWriter (w : ℕ) := partdWrite (K := S × K) cfg.snapWriters (cfg.localParts w) w

/-- The writer of frontiers on a worker. -/
def frontWriter (w : ℕ) := partdWrite (K := ℕ × ℕ) cfg.frontWriters (cfg.localParts w) w

/-- The committer on a worker. -/
def committer (w : ℕ) := partdCommit cfg.committers w cfg.delay

/-- The row of the execution. -/
def execution : ExecutionMeta :=
  ⟨cfg.resumeFrom.exNum, cfg.workerCount, cfg.resumeFrom.resumeEpoch⟩

/-- All operators when they are built; the capability of `frontier` is downgraded to the resume
epoch. -/
def init : WriteState S K D W where
  ex w := (cfg.exWriter w).start
  snap w := (cfg.snapWriter w).start
  frontier _ := some cfg.resumeFrom.resumeEpoch
  front w := (cfg.frontWriter w).start
  commit w := (cfg.committer w).start
  exArrived := false
  sent := []
  arrived := []

/-- One activation. -/
def step (s : WriteState S K D W) :
    WriteStep S K D → Option (WriteState S K D W × List (WriteEvent S K D))
  | .ex w a => do
    let (t, calls) ← (cfg.exWriter w).activate (s.ex w) a
    return ({ s with
      ex := Function.update s.ex w t
      exArrived := s.exArrived || !a.items.isEmpty }, calls.map (.ex w))
  | .snap w a => do
    let (t, calls) ← (cfg.snapWriter w).activate (s.snap w) a
    return ({ s with snap := Function.update s.snap w t }, calls.map (.snap w))
  | .frontier w frontier =>
    let (cap, out) := frontierOp cfg.resumeFrom.exNum w (s.frontier w) frontier
    some ({ s with frontier := Function.update s.frontier w cap, sent := s.sent ++ out }, [])
  | .front w a => do
    let (t, calls) ← (cfg.frontWriter w).activate (s.front w) a
    return ({ s with
      front := Function.update s.front w t
      arrived := s.arrived ++ a.items.flatMap fun m => m.2.map fun item => (m.1, item.2.2.2) },
      calls.map (.front w))
  | .commit w a => do
    let (t, calls) ← (cfg.committer w).activate (s.commit w) a
    return ({ s with commit := Function.update s.commit w t }, calls.map (.commit w))

/-- What arrives at an activation has been sent, and the frontiers of `frontier` and of
`partd_commit` are behind what is still held or in flight before them.  The row of the execution is
sent once, in the resume epoch; the rows of snapshots are what `ser_snap` makes of them in the epoch
they are sent in; and the frontiers of a worker are routed to one writer. -/
def Allowed (target : ℕ → ℕ) (s : WriteState S K D W) : WriteStep S K D → Prop
  | .ex w a => w < cfg.workerCount ∧ (a.items = [] ∨ s.exArrived = false ∧
      a.items.map (fun m => (m.1, m.2.map fun item => item.2.2.2)) =
        [(cfg.resumeFrom.resumeEpoch, [cfg.execution])])
  | .snap w a => w < cfg.workerCount ∧
      ∀ m ∈ a.items, ∀ item ∈ m.2, ∃ snap, item.2.2 = serSnap m.1 snap
  | .frontier w frontier => w < cfg.workerCount ∧
      (∀ v < cfg.workerCount, ∀ cap ∈ held (s.ex v), frontier.Admits cap) ∧
      (∀ v < cfg.workerCount, ∀ cap ∈ held (s.snap v), frontier.Admits cap) ∧
      (s.exArrived = false → frontier.Admits cfg.resumeFrom.resumeEpoch)
  | .front w a => w < cfg.workerCount ∧ ∀ m ∈ a.items, ∀ item ∈ m.2,
      (m.1, item.2.2.2) ∈ s.sent ∧ target item.2.2.2.workerIndex = w
  | .commit w a => w < cfg.workerCount ∧
      (∀ v < cfg.workerCount, ∀ cap ∈ s.frontier v, a.itemsFrontier.Admits cap) ∧
      (∀ v < cfg.workerCount, ∀ cap ∈ held (s.front v), a.itemsFrontier.Admits cap) ∧
      ∀ x ∈ s.sent, x ∉ s.arrived → a.itemsFrontier.Admits x.1

instance [DecidableEq S] [DecidableEq K] (target : ℕ → ℕ) (s : WriteState S K D W) :
    (i : WriteStep S K D) → Decidable (cfg.Allowed target s i)
  | .ex _ _ | .snap _ _ | .frontier _ _ | .front _ _ | .commit _ _ => by
    unfold Allowed Frontier.Admits
    infer_instance

end RecoveryWrite

/-- The rows that the writers write, counted from the resume epoch. -/
def WriteEvent.rows (resumeEpoch : ℕ) : WriteEvent S K D → List (DurableWrite S K D)
  | .ex _ call => (EpochOp.batchOf call).map fun _ => .ex
  | .snap _ call => (EpochOp.batchOf call).map fun r =>
      .snap r.stepId r.stateKey (r.snapEpoch - resumeEpoch) r.serChange
  | .front _ call => (EpochOp.batchOf call).map fun r =>
      .front r.workerIndex (r.workerFrontier - resumeEpoch)
  | .commit _ _ => []

/-- All rows, in the order in which they are written. -/
def durable (resumeEpoch : ℕ) (events : List (WriteEvent S K D)) : List (DurableWrite S K D) :=
  events.flatMap (WriteEvent.rows resumeEpoch)

/-! ### What each worker has taken and put out -/

namespace WriteStep

/-- The activation of the writer of executions on worker `w`. -/
def ex? (w : ℕ) : WriteStep S K D → Option (WriterActivation ℕ ExecutionMeta)
  | .ex v a => if v = w then some a else none
  | _ => none

/-- The activation of the writer of snapshots on worker `w`. -/
def snap? (w : ℕ) :
    WriteStep S K D → Option (WriterActivation (S × K) (SerializedSnapshot S K D))
  | .snap v a => if v = w then some a else none
  | _ => none

/-- The activation of the writer of frontiers on worker `w`. -/
def front? (w : ℕ) : WriteStep S K D → Option (WriterActivation (ℕ × ℕ) FrontierMeta)
  | .front v a => if v = w then some a else none
  | _ => none

end WriteStep

namespace WriteEvent

/-- What the writer of executions does on worker `w`. -/
def ex? (w : ℕ) : WriteEvent S K D → Option (ℕ × WriteCall ℕ ExecutionMeta)
  | .ex v call => if v = w then some call else none
  | _ => none

/-- What the writer of snapshots does on worker `w`. -/
def snap? (w : ℕ) : WriteEvent S K D → Option (ℕ × WriteCall ℕ (SerializedSnapshot S K D))
  | .snap v call => if v = w then some call else none
  | _ => none

/-- What the writer of frontiers does on worker `w`. -/
def front? (w : ℕ) : WriteEvent S K D → Option (ℕ × WriteCall ℕ FrontierMeta)
  | .front v call => if v = w then some call else none
  | _ => none

/-- The rows of executions that are written. -/
def exBatch : WriteEvent S K D → List ExecutionMeta
  | .ex _ call => EpochOp.batchOf call
  | _ => []

end WriteEvent

section

variable {resumeEpoch : ℕ} {o o' : List (WriteEvent S K D)}

@[simp] theorem durable_append :
    durable resumeEpoch (o ++ o') = durable resumeEpoch o ++ durable resumeEpoch o' :=
  List.flatMap_append

/-- A row of the execution stays written. -/
theorem ex_mem_durable_append (h : .ex ∈ durable resumeEpoch o) :
    .ex ∈ durable resumeEpoch (o ++ o') := by
  rw [durable_append]
  exact List.mem_append_left _ h

theorem durable_commit {w : ℕ} {calls : List (ℕ × CommitCall ℕ)} :
    durable resumeEpoch (calls.map (WriteEvent.commit w) : List (WriteEvent S K D)) = [] := by
  refine List.flatMap_eq_nil_iff.2 fun event hin => ?_
  obtain ⟨call, -, rfl⟩ := List.mem_map.1 hin
  rfl

theorem ex_mem_durable : .ex ∈ durable resumeEpoch o ↔ o.flatMap WriteEvent.exBatch ≠ [] := by
  constructor
  · intro h
    obtain ⟨event, hin, hrow⟩ := List.mem_flatMap.1 h
    cases event with
    | ex w call =>
      obtain ⟨r, hr, -⟩ := List.mem_map.1 hrow
      exact List.ne_nil_of_mem (List.mem_flatMap.2 ⟨_, hin, hr⟩)
    | snap w call => simp [WriteEvent.rows] at hrow
    | front w call => simp [WriteEvent.rows] at hrow
    | commit w call => cases hrow
  · intro h
    obtain ⟨r, hr⟩ := List.exists_mem_of_ne_nil _ h
    obtain ⟨event, hin, hr⟩ := List.mem_flatMap.1 hr
    cases event with
    | ex w call => exact List.mem_flatMap.2 ⟨_, hin, List.mem_map.2 ⟨r, hr, rfl⟩⟩
    | snap w call => cases hr
    | front w call => cases hr
    | commit w call => cases hr

theorem front_mem_durable {i n : ℕ} (h : .front i n ∈ durable resumeEpoch o) :
    ∃ w call, .front w call ∈ o ∧ ∃ r ∈ EpochOp.batchOf call,
      r.workerIndex = i ∧ r.workerFrontier - resumeEpoch = n := by
  obtain ⟨event, hin, hrow⟩ := List.mem_flatMap.1 h
  cases event with
  | ex w call => simp [WriteEvent.rows] at hrow
  | snap w call => simp [WriteEvent.rows] at hrow
  | front w call =>
    obtain ⟨r, hr, heq⟩ := List.mem_map.1 hrow
    obtain ⟨hi, hn⟩ := DurableWrite.front.inj heq
    exact ⟨w, call, hin, r, hr, hi, hn⟩
  | commit w call => cases hrow

theorem mem_frontCalls {w : ℕ} {call : ℕ × WriteCall ℕ FrontierMeta} :
    call ∈ o.filterMap (WriteEvent.front? w) ↔ .front w call ∈ o := by
  rw [List.mem_filterMap]
  constructor
  · rintro ⟨event, hin, heq⟩
    cases event with
    | ex v call' => cases heq
    | snap v call' => cases heq
    | front v call' =>
      obtain ⟨hv, hcall⟩ := Option.ite_none_right_eq_some.1 heq
      rw [← hv, ← Option.some.inj hcall]
      exact hin
    | commit v call' => cases heq
  · exact fun hin => ⟨_, hin, if_pos rfl⟩

end

end Recovery
end Bytewax
