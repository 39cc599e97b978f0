import Bytewax.Lib.Runs
import Bytewax.Operators.Frontier
import Mathlib.Order.Compare
import Std.Data.TreeMap
import Std.Data.TreeSet

/-!
# Bytewax.Operators.Unary — the `unary` operator

The operator every stateful step is made of.  It keeps one logic a key and applies the items of an
epoch, the notifications that are due, the end of the input, and the states loaded from recovery,
epoch by epoch; the frontier epoch is run eagerly, before it is closed.  `activate` is one
activation.  It lists the calls it makes and the changes it sends to recovery as events.

The builder and the methods of the Python logic are the record `UnaryLogic`, over the logic's state.
The operator's two output capabilities always have the same time, and are one field here.
-/

namespace Bytewax

open Std (TreeMap TreeSet)

/-- `IsComplete`. -/
inductive IsComplete
  | retain
  | discard
  deriving DecidableEq, Repr

/-- `StateChange`. -/
inductive StateChange (S : Type)
  | upsert (state : S)
  | discard
  deriving DecidableEq, Repr

/-- What an `on_*` method leaves: the logic, the values to emit, and whether it is complete. -/
abbrev LogicReturn (W L : Type) := L × List W × IsComplete

/-- The builder of a step and the methods of the logics it builds. -/
structure UnaryLogic (V W S L : Type) where
  builder : (now : Int) → (resumeState : Option S) → L
  onItem : L → (now : Int) → (value : V) → LogicReturn W L
  onNotify : L → (sched : Int) → LogicReturn W L
  onEof : L → LogicReturn W L
  notifyAt : L → Option Int
  snapshot : L → S

/-- A call of a logic, a change sent to recovery or a loaded one, in an epoch and for a key. -/
inductive UnaryEvent (K V W S : Type)
  | onItem (epoch : Nat) (key : K) (value : V) (emit : List W) (isComplete : IsComplete)
  | onNotify (epoch : Nat) (key : K) (sched : Int) (emit : List W) (isComplete : IsComplete)
  | onEof (epoch : Nat) (key : K) (emit : List W) (isComplete : IsComplete)
  | snap (epoch : Nat) (key : K) (change : StateChange S)
  | load (epoch : Nat) (key : K) (change : StateChange S)
  deriving DecidableEq, Repr

/-- The state of the keys: `logics`, `sched_cache` and `awoken_keys_buffer`. -/
structure UnaryKeys (K L : Type) [Ord K] where
  logics : TreeMap K L
  schedCache : TreeMap K Int
  awokenKeysBuffer : TreeSet K

/-- The state of the operator between activations; `initCaps` is what is left of `init_caps`. -/
structure UnaryState (K V S L : Type) [Ord K] where
  cap : Option Nat
  initCaps : List Nat
  keys : UnaryKeys K L
  inbuf : TreeMap Nat (List (K × V))
  loadsInbuf : TreeMap Nat (List (K × StateChange S))

/-- What an activation sees: the system time, the batches of the two inputs with their epochs, and
the frontiers of the two inputs. -/
structure Activation (K V S : Type) where
  now : Int
  items : List (Nat × List (K × V))
  loads : List (Nat × List (K × StateChange S))
  itemsFrontier : Frontier
  loadsFrontier : Frontier

/-- The frontier of all inputs. -/
def Activation.frontier {K V S : Type} (a : Activation K V S) : Frontier :=
  a.itemsFrontier.both a.loadsFrontier

namespace Unary

variable {K V W S L : Type} [LinearOrder K]

/-- The operator when it is built: `init_caps` holds a capability for each of the two outputs, and
both are popped. -/
def init : UnaryState K V S L :=
  let initCaps : List Nat := [0, 0]
  { cap := initCaps.getLast?
    initCaps := initCaps.dropLast.dropLast
    keys := ⟨∅, ∅, ∅⟩
    inbuf := ∅
    loadsInbuf := ∅ }

/-- `InBuffer::extend`, for each batch that arrived. -/
def extend {α : Type} (buffer : TreeMap Nat (List α)) (batches : List (Nat × List α)) :
    TreeMap Nat (List α) :=
  batches.foldl (fun buf b => buf.insert b.1 (buf.getD b.1 [] ++ b.2)) buffer

/-- The epochs of an activation, in order: those that are closed among the last output epoch and the
buffered ones, and the frontier epoch unless it is before the resume epoch. -/
def processEpochs (resumeEpoch lastOutputEpoch : Nat) (frontier : Frontier)
    (inbuf : TreeMap Nat (List (K × V))) (loadsInbuf : TreeMap Nat (List (K × StateChange S))) :
    List Nat :=
  let frontierEpoch := frontier.getD lastOutputEpoch
  let epochs : TreeSet Nat := TreeSet.empty.insert lastOutputEpoch
  let epochs := (epochs.insertMany inbuf.keys).insertMany loadsInbuf.keys
  let epochs := epochs.filter fun e => frontier.IsClosed e
  let epochs := if frontierEpoch ≥ resumeEpoch then epochs.insert frontierEpoch else epochs
  epochs.toList

variable (logic : UnaryLogic V W S L)

/-- The loop over the items of an epoch. -/
def itemStep (now : Int) (epoch : Nat) (s : UnaryKeys K L) (item : K × V) :
    Option (UnaryKeys K L × List (UnaryEvent K V W S)) :=
  let l := s.logics.getD item.1 (logic.builder now none)
  let (l, emit, isComplete) := logic.onItem l now item.2
  let s := match isComplete with
    | .discard => { s with
        logics := s.logics.erase item.1
        schedCache := s.schedCache.erase item.1 }
    | .retain => { s with logics := s.logics.insert item.1 l }
  some ({ s with awokenKeysBuffer := s.awokenKeysBuffer.insert item.1 },
    [.onItem epoch item.1 item.2 emit isComplete])

/-- The notifications that are due. -/
def notifyKeys (now : Int) (s : UnaryKeys K L) : List (K × Int) :=
  s.schedCache.toList.filter fun entry => entry.2 ≤ now

/-- The loop over the due notifications; the `unwrap` fails for a key without a logic. -/
def notifyStep (epoch : Nat) (s : UnaryKeys K L) (entry : K × Int) :
    Option (UnaryKeys K L × List (UnaryEvent K V W S)) := do
  let l ← s.logics[entry.1]?
  let (l, emit, isComplete) := logic.onNotify l entry.2
  let s := match isComplete with
    | .discard => { s with logics := s.logics.erase entry.1 }
    | .retain => { s with logics := s.logics.insert entry.1 l }
  return ({ s with
      schedCache := s.schedCache.erase entry.1
      awokenKeysBuffer := s.awokenKeysBuffer.insert entry.1 },
    [.onNotify epoch entry.1 entry.2 emit isComplete])

/-- The loop over all logics at the end of the input. -/
def eofStep (epoch : Nat) (s : UnaryKeys K L) (entry : K × L) :
    Option (UnaryKeys K L × List (UnaryEvent K V W S)) :=
  let (l, emit, isComplete) := logic.onEof entry.2
  some ({ s with
      logics := s.logics.insert entry.1 l
      awokenKeysBuffer := s.awokenKeysBuffer.insert entry.1 },
    [.onEof epoch entry.1 emit isComplete])

/-- The key that an `on_eof` call discards. -/
def discardedKey : UnaryEvent K V W S → Option K
  | .onEof _ key _ .discard => some key
  | _ => none

/-- Remove the keys that were discarded at the end of the input. -/
def removeKeys (s : UnaryKeys K L) (keys : List K) : UnaryKeys K L :=
  keys.foldl (fun s key => { s with
    logics := s.logics.erase key
    schedCache := s.schedCache.erase key }) s

/-- The end-of-input phase of an epoch. -/
def eofPhase (eof : Bool) (epoch : Nat) (s : UnaryKeys K L) :
    Option (UnaryKeys K L × List (UnaryEvent K V W S)) :=
  if eof then do
    let (s, events) ← Runs.run (eofStep logic epoch) s s.logics.toList
    return (removeKeys s (events.filterMap discardedKey), events)
  else
    some (s, [])

/-- Note when the logic of an awoken key, if it still has one, wants to be notified. -/
def noteSched (logics : TreeMap K L) (schedCache : TreeMap K Int) (key : K) : TreeMap K Int :=
  match logics[key]?.bind logic.notifyAt with
  | some sched => schedCache.insert key sched
  | none => schedCache

/-- Go through the awoken keys and update the next scheduled notification times. -/
def updateSched (s : UnaryKeys K L) : UnaryKeys K L :=
  { s with schedCache :=
      s.awokenKeysBuffer.toList.foldl (noteSched logic s.logics) s.schedCache }

/-- The change that is sent to recovery for an awoken key. -/
def changeOf (l : Option L) : StateChange S :=
  match l with
  | some l => .upsert (logic.snapshot l)
  | none => .discard

/-- The snapshots of a closed epoch. -/
def snapshots (epoch : Nat) (s : UnaryKeys K L) : List (UnaryEvent K V W S) :=
  s.awokenKeysBuffer.toList.map fun key => .snap epoch key (changeOf logic s.logics[key]?)

/-- Apply a load to its key. -/
def applyLoad (now : Int) (s : UnaryKeys K L) (load : K × StateChange S) : UnaryKeys K L :=
  match load.2 with
  | .upsert state =>
    let l := logic.builder now (some state)
    { s with
      schedCache := match logic.notifyAt l with
        | some notifyAt => s.schedCache.insert load.1 notifyAt
        | none => s.schedCache
      logics := s.logics.insert load.1 l }
  | .discard => { s with
      logics := s.logics.erase load.1
      schedCache := s.schedCache.erase load.1 }

/-- The loop over the loads of a closed epoch. -/
def loadStep (now : Int) (epoch : Nat) (s : UnaryKeys K L) (load : K × StateChange S) :
    Option (UnaryKeys K L × List (UnaryEvent K V W S)) :=
  some (applyLoad logic now s load, [.load epoch load.1 load.2])

/-- The items, the due notifications and the end of the input of an epoch. -/
def callPhases (now : Int) (eof : Bool) (epoch : Nat) (items : List (K × V)) (s : UnaryKeys K L) :
    Option (UnaryKeys K L × List (UnaryEvent K V W S)) := do
  let (s, onItems) ← Runs.run (itemStep logic now epoch) s items
  let (s, onNotifies) ← Runs.run (notifyStep logic epoch) s (notifyKeys now s)
  let (s, onEofs) ← eofPhase logic eof epoch s
  return (updateSched logic s, onItems ++ onNotifies ++ onEofs)

/-- The closing of an epoch: snapshots, then loads. -/
def closePhases (now : Int) (epoch : Nat) (loads : List (K × StateChange S)) (s : UnaryKeys K L) :
    Option (UnaryKeys K L × List (UnaryEvent K V W S)) := do
  let snaps := snapshots logic epoch s
  let (s, events) ← Runs.run (loadStep logic now epoch) { s with awokenKeysBuffer := ∅ } loads
  return (s, snaps ++ events)

/-- The body of the loop over the epochs; downgrading a capability to an earlier epoch panics. -/
def processEpoch (now : Int) (frontier : Frontier) (s : UnaryState K V S L) (epoch : Nat) :
    Option (UnaryState K V S L × List (UnaryEvent K V W S)) := do
  let cap ← s.cap
  if epoch < cap then
    none
  else
    let items := s.inbuf.getD epoch []
    let (keys, called) ← callPhases logic now frontier.isEof epoch items s.keys
    let s := { s with cap := some epoch, inbuf := s.inbuf.erase epoch }
    if frontier.IsClosed epoch then
      let loads := s.loadsInbuf.getD epoch []
      let (keys, closed) ← closePhases logic now epoch loads keys
      return ({ s with keys, loadsInbuf := s.loadsInbuf.erase epoch }, called ++ closed)
    else
      return ({ s with keys }, called)

/-- One activation of the operator. -/
def activate (resumeEpoch : Nat) (s : UnaryState K V S L) (a : Activation K V S) :
    Option (UnaryState K V S L × List (UnaryEvent K V W S)) :=
  match s.cap with
  | none => some (s, [])
  | some lastOutputEpoch => do
    let s := { s with
      inbuf := extend s.inbuf a.items
      loadsInbuf := extend s.loadsInbuf a.loads }
    let epochs := processEpochs resumeEpoch lastOutputEpoch a.frontier s.inbuf s.loadsInbuf
    let (s, events) ← Runs.run (processEpoch logic a.now a.frontier) s epochs
    let s := { s with
      initCaps := if a.loadsFrontier.isEof then s.initCaps.map fun _ => resumeEpoch
        else s.initCaps }
    return (if a.frontier.isEof then { s with cap := none } else s, events)

end Unary
end Bytewax
