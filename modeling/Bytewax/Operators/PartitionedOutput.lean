import Bytewax.Operators.EagerNotificator
import Bytewax.Operators.Unary

/-!
# Bytewax.Operators.PartitionedOutput — the `partitioned_output` operator

The operator that writes to a partitioned sink.  Items are written as soon as their epoch is the
frontier epoch; when an epoch closes, the partitions that were written to in it are snapshotted, and
only then is what was loaded in that epoch built.  `activate` is one activation; it lists what it
asks of the sink and sends downstream as events, each with its epoch.

The Python sink and its partitions are the record `FixedPartitionedSink`, over the state of a
partition.
-/

namespace Bytewax

open Std (TreeMap TreeSet)

/-- A partitioned sink and the methods of the partitions it builds. -/
structure FixedPartitionedSink (K V S P : Type) where
  buildPart : (forPart : K) → (resumeState : Option S) → P
  writeBatch : P → List V → P
  snapshot : P → S

/-- What the operator does: it builds, writes to, snapshots or drops a partition, or sends a clock
tick. -/
inductive SinkCall (K V S : Type)
  | built (part : K) (resumeState : Option S)
  | write (part : K) (batch : List V)
  | snap (part : K) (state : S)
  | removed (part : K)
  | clock
  deriving DecidableEq, Repr

/-- A call and the epoch it is made in. -/
abbrev SinkEvent (K V S : Type) := Nat × SinkCall K V S

/-- What the logics borrow: `items_inbuf` and `loads_inbuf`. -/
structure OutputBufs (K V S : Type) [Ord K] where
  itemsInbuf : TreeMap Nat (TreeMap K (List (K × V)))
  loadsInbuf : TreeMap Nat (List (Nat × K × StateChange S))

/-- The state of the notificator: the partitions, and those written to in the open epoch. -/
structure OutputParts (K P : Type) [Ord K] where
  parts : TreeMap K P
  awoken : TreeSet K

/-- The state of the operator between activations. -/
structure OutputState (K V S P : Type) [Ord K] where
  bufs : OutputBufs K V S
  ncater : EagerNotificator (OutputParts K P)

/-- What an activation sees: the batches of the two inputs with their epochs, routed items as
worker, partition, key and value, and the frontiers of the two inputs. -/
structure OutputActivation (K V S : Type) where
  items : List (Nat × List (Nat × K × K × V))
  loads : List (Nat × List (Nat × K × StateChange S))
  itemsFrontier : Frontier
  loadsFrontier : Frontier

/-- The frontier of all inputs. -/
def OutputActivation.frontier {K V S : Type} (a : OutputActivation K V S) : Frontier :=
  a.itemsFrontier.both a.loadsFrontier

namespace PartitionedOutput

variable {K V S P : Type} [LinearOrder K]

/-- The operator when it is built. -/
def init : OutputState K V S P := ⟨⟨∅, ∅⟩, .new ⟨∅, ∅⟩⟩

/-- Buffer a routed item; an item for another worker panics. -/
def pushItem (thisWorker epoch : Nat) (inbuf : TreeMap Nat (TreeMap K (List (K × V))))
    (item : Nat × K × K × V) : Option (TreeMap Nat (TreeMap K (List (K × V)))) :=
  let (worker, part, key, value) := item
  if worker = thisWorker then
    let partToItems := inbuf.getD epoch ∅
    some (inbuf.insert epoch
      (partToItems.insert part (partToItems.getD part [] ++ [(key, value)])))
  else
    none

/-- A batch of routed items arrives. -/
def receiveItems (thisWorker : Nat) (s : OutputState K V S P)
    (incoming : Nat × List (Nat × K × K × V)) : Option (OutputState K V S P) := do
  let itemsInbuf ← incoming.2.foldlM (pushItem thisWorker incoming.1) s.bufs.itemsInbuf
  let ncater ← s.ncater.notifyAt incoming.1
  return ⟨{ s.bufs with itemsInbuf }, ncater⟩

/-- A batch of loads arrives. -/
def receiveLoads (s : OutputState K V S P)
    (incoming : Nat × List (Nat × K × StateChange S)) : Option (OutputState K V S P) := do
  let loadsInbuf := Unary.extend s.bufs.loadsInbuf [incoming]
  let ncater ← s.ncater.notifyAt incoming.1
  return ⟨{ s.bufs with loadsInbuf }, ncater⟩

variable (sink : FixedPartitionedSink K V S P)

/-- The loop over the partitions with items in an epoch; a partition that was not loaded is built
when it is first written to. -/
def writeStep (epoch : Nat) (s : OutputParts K P) (entry : K × List (K × V)) :
    Option (OutputParts K P × List (SinkEvent K V S)) :=
  let (partKey, items) := entry
  let (part, built) : P × List (SinkEvent K V S) := match s.parts[partKey]? with
    | some part => (part, [])
    | none => (sink.buildPart partKey none, [(epoch, .built partKey none)])
  let batch := items.map Prod.snd
  some ({
      parts := s.parts.insert partKey (sink.writeBatch part batch)
      awoken := s.awoken.insert partKey },
    built ++ [(epoch, .write partKey batch)])

/-- The eager logic: write what has arrived in the epoch. -/
def eagerLogic (epoch : Nat) (s : OutputBufs K V S × OutputParts K P) :
    Option ((OutputBufs K V S × OutputParts K P) × List (SinkEvent K V S)) :=
  match s.1.itemsInbuf[epoch]? with
  | none => some (s, [])
  | some partToItems => do
    let (parts, events) ← Runs.run (writeStep sink epoch) s.2 partToItems.toList
    return (({ s.1 with itemsInbuf := s.1.itemsInbuf.erase epoch }, parts), events)

/-- The loop over the awoken partitions; the `unwrap` fails for a partition that is not there. -/
def snapStep (epoch : Nat) (parts : TreeMap K P) (partKey : K) :
    Option (TreeMap K P × List (SinkEvent K V S)) := do
  let part ← parts[partKey]?
  return (parts, [(epoch, .snap partKey (sink.snapshot part))])

/-- The loop over the loads of a closed epoch. -/
def loadStep (thisWorker epoch : Nat) (parts : TreeMap K P) (load : Nat × K × StateChange S) :
    Option (TreeMap K P × List (SinkEvent K V S)) :=
  let (worker, partKey, change) := load
  if worker = thisWorker then
    match change with
    | .upsert state => some (parts.insert partKey (sink.buildPart partKey (some state)),
        [(epoch, .built partKey (some state))])
    | .discard => some (parts.erase partKey, [(epoch, .removed partKey)])
  else
    some (parts.erase partKey, [(epoch, .removed partKey)])

/-- The close logic: a clock tick, the snapshots of the awoken partitions, and then the loads. -/
def closeLogic (thisWorker epoch : Nat) (s : OutputBufs K V S × OutputParts K P) :
    Option ((OutputBufs K V S × OutputParts K P) × List (SinkEvent K V S)) := do
  let (parts, snaps) ← Runs.run (snapStep sink epoch) s.2.parts s.2.awoken.toList
  let loads := s.1.loadsInbuf.getD epoch []
  let (parts, loaded) ← Runs.run (loadStep sink thisWorker epoch) parts loads
  return (({ s.1 with loadsInbuf := s.1.loadsInbuf.erase epoch }, { parts, awoken := ∅ }),
    (epoch, .clock) :: snaps ++ loaded)

/-- One activation of the operator. -/
def activate (thisWorker : Nat) (s : OutputState K V S P) (a : OutputActivation K V S) :
    Option (OutputState K V S P × List (SinkEvent K V S)) := do
  let s ← a.items.foldlM (receiveItems thisWorker) s
  let s ← a.loads.foldlM receiveLoads s
  let ((bufs, ncater), events) ← EagerNotificator.forEach (eagerLogic sink)
    (closeLogic sink thisWorker) a.frontier s.bufs s.ncater
  return (⟨bufs, ncater⟩, events)

end PartitionedOutput
end Bytewax
