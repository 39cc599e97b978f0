import Bytewax.Operators.Unary
import Bytewax.Window.Time

/-!
# Bytewax.Operators.PartitionedInput — the `partitioned_input` operator

The operator that reads a partitioned source.  It builds a partition from its loaded state, or from
nothing once there is nothing more to load, and polls each partition that is due while the dataflow
has caught up with the partition's epoch.  Each partition has its own epoch, which it leaves with a
snapshot.  `activate` is one activation; it lists what it does to the partitions as events.

The Python source and its partitions are the record `FixedPartitionedSource`, over the state of a
partition.
-/

namespace Bytewax

open Std (TreeMap TreeSet)

/-- `BatchResult`. -/
inductive BatchResult (X : Type)
  | eof
  | abort
  | batch (items : List X)
  deriving DecidableEq, Repr

/-- The source has no more batches. -/
def BatchResult.isEof {X : Type} : BatchResult X → Bool
  | .eof => true
  | .abort | .batch _ => false

/-- The source asks to stop the dataflow. -/
def BatchResult.isAbort {X : Type} : BatchResult X → Bool
  | .abort => true
  | .eof | .batch _ => false

/-- A partitioned source and the methods of the partitions it builds. -/
structure FixedPartitionedSource (K X S P : Type) where
  buildPart : (now : Int) → (forPart : K) → (resumeState : Option S) → P
  nextBatch : P → (sched : Option Int) → P × BatchResult X
  nextAwake : P → Option Int
  snapshot : P → S

/-- What happens to a partition: it is built in an epoch, it is asked for a batch, whose items are
sent in an epoch, and its snapshot is sent in an epoch. -/
inductive PartEvent (X S : Type)
  | built (epoch : Nat) (now : Int) (resumeState : Option S)
  | nextBatch (epoch : Nat) (sched : Option Int) (batchRes : BatchResult X)
  | snap (epoch : Nat) (state : S)
  deriving DecidableEq, Repr

/-- `PartitionedPartState`. -/
structure PartitionedPartState (P : Type) where
  part : P
  downstreamCap : Nat
  snapCap : Nat
  epochStarted : Int
  nextAwake : Option Int

/-- The state of the operator between activations.  `abort` is the flag shared with the worker, and
`activateAfter` the delay after which the operator last asked to be activated. -/
structure InputState (K P : Type) [Ord K] where
  initCaps : Option (Nat × Nat)
  parts : TreeMap K (PartitionedPartState P)
  primaryParts : TreeSet K
  primariesInbuf : TreeMap Nat (List (K × Nat))
  abort : Bool
  activateAfter : Option Int

/-- What an activation sees: the system time, the batches of the two inputs with their epochs, the
frontiers of the two inputs, and the probe. -/
structure InputActivation (K S : Type) where
  now : Int
  loads : List (Nat × List (Nat × K × StateChange S))
  primaries : List (Nat × List (K × Nat))
  loadsFrontier : Frontier
  primariesFrontier : Frontier
  probe : Frontier

namespace PartitionedInput

/-- `DEFAULT_COOLDOWN`. -/
def defaultCooldown : Int := 1000000

/-- `default_next_awake`; `none` is the panic of an addition that leaves the range of instants. -/
def defaultNextAwake (res : Option Int) (batchLen : Nat) (now : Int) : Option (Option Int) :=
  match res with
  | some nextAwake => some (some nextAwake)
  | none =>
    if 0 < batchLen then
      some none
    else
      (addDuration now defaultCooldown).map some

/-- `awake_due`. -/
def awakeDue {P : Type} (p : PartitionedPartState P) (now : Int) : Bool :=
  match p.nextAwake with
  | none => true
  | some nextAwake => now ≥ nextAwake

variable {K X S P : Type}

/-- The operator when it is built. -/
def init [Ord K] (startAt : Nat) : InputState K P where
  initCaps := some (startAt, startAt)
  parts := ∅
  primaryParts := ∅
  primariesInbuf := ∅
  abort := false
  activateAfter := none

variable (source : FixedPartitionedSource K X S P)

/-- A partition that was just built. -/
def newPart (now : Int) (partKey : K) (resumeState : Option S) (downstreamCap snapCap : Nat) :
    PartitionedPartState P :=
  let part := source.buildPart now partKey resumeState
  { part, downstreamCap, snapCap, epochStarted := now, nextAwake := source.nextAwake part }

/-- A poll of a partition. -/
def nextBatch (now : Int) (p : PartitionedPartState P) :
    Option (PartitionedPartState P × BatchResult X) :=
  let (part, batchRes) := source.nextBatch p.part p.nextAwake
  match batchRes with
  | .batch batch => do
    let nextAwake ← defaultNextAwake (source.nextAwake part) batch.length now
    return ({ p with part, nextAwake }, .batch batch)
  | .eof => some ({ p with part }, .eof)
  | .abort => some ({ p with part }, .abort)

/-- The end of the epoch of a partition, when its interval has elapsed or the partition is at its
end. -/
def advance (epochInterval now : Int) (eof : Bool) (p : PartitionedPartState P) :
    PartitionedPartState P × List (PartEvent X S) :=
  if now - p.epochStarted ≥ epochInterval ∨ eof then
    let nextEpoch := p.downstreamCap + 1
    ({ p with downstreamCap := nextEpoch, snapCap := nextEpoch, epochStarted := now },
      [.snap p.snapCap (source.snapshot p.part)])
  else
    (p, [])

/-- What a turn of the loop leaves of a partition. -/
structure PolledPart (X S P : Type) where
  partState : PartitionedPartState P
  eof : Bool
  abort : Bool
  events : List (PartEvent X S)

/-- The body of the loop over the partitions; `none` where the assertion fails. -/
def pollPart (epochInterval now : Int) (probe : Frontier) (p : PartitionedPartState P) :
    Option (PolledPart X S P) :=
  if p.downstreamCap ≠ p.snapCap then
    none
  else if ¬ probe.LessThan p.downstreamCap ∧ awakeDue p now then do
    let (q, batchRes) ← nextBatch source now p
    let (q, snaps) := advance source epochInterval now batchRes.isEof q
    return ⟨q, batchRes.isEof, batchRes.isAbort,
      .nextBatch p.downstreamCap p.nextAwake batchRes :: snaps⟩
  else
    some ⟨p, false, false, []⟩

variable [LinearOrder K]

/-- The loop over the loads, each with its epoch; a load for another worker panics. -/
def loadStep (thisWorker startAt : Nat) (now : Int) (parts : TreeMap K (PartitionedPartState P))
    (load : Nat × Nat × K × StateChange S) :
    Option (TreeMap K (PartitionedPartState P) × List (K × PartEvent X S)) :=
  let (loadEpoch, worker, partKey, change) := load
  if worker = thisWorker then
    match change with
    | .upsert state =>
      let emitEpoch := max loadEpoch startAt
      some (parts.insert partKey (newPart source now partKey (some state) emitEpoch emitEpoch),
        [(partKey, .built emitEpoch now (some state))])
    | .discard => some (parts, [])
  else
    none

/-- The loads of an activation, each with its epoch. -/
def loadsOf (a : InputActivation K S) : List (Nat × Nat × K × StateChange S) :=
  a.loads.flatMap fun incoming => incoming.2.map fun load => (incoming.1, load)

/-- The assignments of the closed epochs, in epoch order. -/
def applyPrimaries (thisWorker : Nat) (frontier : Frontier) (inbuf : TreeMap Nat (List (K × Nat)))
    (primaryParts : TreeSet K) : TreeMap Nat (List (K × Nat)) × TreeSet K :=
  let closed := inbuf.keys.filter fun e => frontier.IsClosed e
  (closed.foldl (fun buf e => buf.erase e) inbuf,
    closed.foldl (fun parts e => (inbuf.getD e []).foldl
      (fun parts primary => if primary.2 = thisWorker then parts.insert primary.1 else parts)
      parts) primaryParts)

/-- The loop over the primary partitions that have not been loaded. -/
def initStep (now : Int) (initDownstreamCap initSnapCap : Nat)
    (parts : TreeMap K (PartitionedPartState P)) (partKey : K) :
    Option (TreeMap K (PartitionedPartState P) × List (K × PartEvent X S)) :=
  if parts.contains partKey then
    some (parts, [])
  else
    some (parts.insert partKey (newPart source now partKey none initDownstreamCap initSnapCap),
      [(partKey, .built initDownstreamCap now none)])

/-- Take the initial capabilities once the loads have ended, and build what was not loaded. -/
def initParts (now : Int) (loadsFrontier : Frontier) (s : InputState K P) :
    Option (InputState K P × List (K × PartEvent X S)) :=
  if loadsFrontier.isEof then
    match s.initCaps with
    | none => some (s, [])
    | some (initDownstreamCap, initSnapCap) =>
      if initDownstreamCap = initSnapCap then do
        let (parts, events) ← Runs.run (initStep source now initDownstreamCap initSnapCap) s.parts
          s.primaryParts.toList
        return ({ s with parts, initCaps := none }, events)
      else
        none
  else
    some (s, [])

/-- What the loop over the partitions works on. -/
structure PollState (K P : Type) [Ord K] where
  parts : TreeMap K (PartitionedPartState P)
  eofdPartsBuffer : List K
  abort : Bool

/-- The loop over the partitions. -/
def partStep (epochInterval now : Int) (probe : Frontier) (s : PollState K P)
    (entry : K × PartitionedPartState P) : Option (PollState K P × List (K × PartEvent X S)) := do
  let polled ← pollPart source epochInterval now probe entry.2
  return ({
      parts := s.parts.insert entry.1 polled.partState
      eofdPartsBuffer := if polled.eof then s.eofdPartsBuffer ++ [entry.1] else s.eofdPartsBuffer
      abort := s.abort || polled.abort },
    polled.events.map fun event => (entry.1, event))

/-- Poll the partitions, and remove those that are at their end. -/
def pollParts (epochInterval now : Int) (probe : Frontier) (s : InputState K P) :
    Option (InputState K P × List (K × PartEvent X S)) := do
  let (polled, events) ← Runs.run (partStep source epochInterval now probe)
    ⟨s.parts, [], s.abort⟩ s.parts.toList
  return ({ s with
      parts := polled.eofdPartsBuffer.foldl (fun parts part => parts.erase part) polled.parts
      abort := polled.abort }, events)

/-- The delay after which the operator asks to be activated. -/
def activateAfter (now : Int) (loadsFrontier : Frontier)
    (parts : TreeMap K (PartitionedPartState P)) : Option Int :=
  if loadsFrontier.isEof then
    (parts.values.map fun p => p.nextAwake.getD now).min?.map fun minNextAwake =>
      max (minNextAwake - now) 0
  else
    none

/-- One activation of the operator. -/
def activate (thisWorker startAt : Nat) (epochInterval : Int) (s : InputState K P)
    (a : InputActivation K S) : Option (InputState K P × List (K × PartEvent X S)) := do
  let (parts, loaded) ← Runs.run (loadStep source thisWorker startAt a.now) s.parts (loadsOf a)
  let (primariesInbuf, primaryParts) := applyPrimaries thisWorker a.primariesFrontier
    (Unary.extend s.primariesInbuf a.primaries) s.primaryParts
  let (s, inited) ← initParts source a.now a.loadsFrontier
    { s with parts, primariesInbuf, primaryParts }
  let (s, polled) ← pollParts source epochInterval a.now a.probe s
  return ({ s with activateAfter := activateAfter a.now a.loadsFrontier s.parts },
    loaded ++ inited ++ polled)

end PartitionedInput
end Bytewax
