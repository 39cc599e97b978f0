import Bytewax.Dataflow.Makers
import Bytewax.Dataflow.Rendered

/-!
# Bytewax.Dataflow.Compile — from a dataflow to Timely operators

Each worker compiles the core steps of a dataflow: it looks up the Timely streams of their input
ports by stream ID, and stores those of their output ports.  The loop pops steps from a stack, and
replaces a step that is not core by its substeps, reversed, so that steps are compiled in preorder
(`Building.buildLoop_eq`).
-/

namespace Bytewax

/-- What the compilation of a dataflow raises. -/
inductive BuildError
  | argument (err : String)
  | missingPort (portName : String)
  | unknown (streamId : String)
  | duplicate (streamId : String)
  | noInput
  | noOutput
  deriving DecidableEq

namespace OperatorStep

/-- A port by its name. -/
def port? (step : OperatorStep) (portName : PlainId) : Option Port :=
  (step.ups ++ step.downs).find? fun port => port.name = portName

def getPortStream (step : OperatorStep) (portName : PlainId) : Except BuildError String :=
  match step.port? portName with
  | some ⟨_, [streamId]⟩ => .ok streamId
  | _ => .error (.missingPort portName.id)

def getMultiportStreams (step : OperatorStep) (portName : PlainId) :
    Except BuildError (List String) :=
  match step.port? portName with
  | some port => .ok port.streamIds
  | none => .error (.missingPort portName.id)

end OperatorStep

/-- What the arguments of core steps raise: when they are looked up and extracted, before the streams
of the input ports are looked up, and when the Timely operators are built with them, after that. -/
structure StepArgs where
  extract : OperatorStep → Option String
  build : OperatorStep → Option String

namespace StepArgs

/-- What a step raises first. -/
def raises (args : StepArgs) (step : OperatorStep) : Option String :=
  (args.extract step).or (args.build step)

/-- The `?` behind what is done with the arguments. -/
def check : Option String → Except BuildError Unit
  | some err => .error (.argument err)
  | none => .ok ()

end StepArgs

/-- A Timely stream: what the Timely operators for a core step put out. -/
structure TimelyStream where
  stepId : String
  port : PlainId
  deriving DecidableEq

/-- The Timely operators for a core step, and the streams they read. -/
structure TimelyNode where
  stepId : String
  op : CoreOp
  ups : List TimelyStream
  deriving DecidableEq

/-- Whether its stream is one of `inputs`. -/
def TimelyNode.isInput (node : TimelyNode) : Bool := node.op = .input

/-- Whether its clock is one of `outputs`. -/
def TimelyNode.isOutput (node : TimelyNode) : Bool := node.op = .output ∨ node.op = .inspectDebug

/-- `StreamCache`. -/
abbrev StreamCache := Dict String TimelyStream

namespace StreamCache

/-- The stream with an ID. -/
def getStream (streams : StreamCache) (streamId : String) : Except BuildError TimelyStream :=
  match streams.get? streamId with
  | some stream => .ok stream
  | none => .error (.unknown streamId)

def getUpstream (streams : StreamCache) (step : OperatorStep) (portName : PlainId) :
    Except BuildError TimelyStream := do
  let streamId ← step.getPortStream portName
  getStream streams streamId

def getUpmultistream (streams : StreamCache) (step : OperatorStep) (portName : PlainId) :
    Except BuildError (List TimelyStream) := do
  let streamIds ← step.getMultiportStreams portName
  streamIds.mapM (getStream streams)

def insertDownstream (streams : StreamCache) (step : OperatorStep) (portName : PlainId)
    (stream : TimelyStream) : Except BuildError StreamCache := do
  let streamId ← step.getPortStream portName
  if (streams.get? streamId).isSome then throw (.duplicate streamId)
  return streams.set streamId stream

/-- The streams that a core step reads. -/
def getUps (streams : StreamCache) (step : OperatorStep) :
    CoreOp → Except BuildError (List TimelyStream)
  | .input => return []
  | .merge => getUpmultistream streams step .ups
  | _ => do
    let up ← getUpstream streams step .up
    return [up]

/-- One core step: its operators, and the cache with the streams they put out. -/
def compileCore (streams : StreamCache) (args : StepArgs) (step : OperatorStep) (op : CoreOp) :
    Except BuildError (TimelyNode × StreamCache) := do
  StepArgs.check (args.extract step)
  let ups ← getUps streams step op
  StepArgs.check (args.build step)
  let streams ← op.downNames.foldlM
    (fun streams name => insertDownstream streams step name ⟨step.stepId, name⟩) streams
  return (⟨step.stepId, op, ups⟩, streams)

end StreamCache

namespace Building

/-- The loop over the stack of steps, whose top is at its end; `none` is that it has not ended after
`fuel` rounds. -/
def buildLoop (b : Building) (args : StepArgs) : ℕ → List OperatorStep → StreamCache → List TimelyNode →
    Option (Except BuildError (List TimelyNode))
  | 0, _, _, _ => none
  | fuel + 1, buildStack, streams, nodes =>
    match buildStack.getLast? with
    | none => some (.ok nodes)
    | some step =>
      match step.typ with
      | .core op =>
        match streams.compileCore args step op with
        | .error err => some (.error err)
        | .ok (node, streams) => b.buildLoop args fuel buildStack.dropLast streams (nodes ++ [node])
      | .other _ =>
        b.buildLoop args fuel (buildStack.dropLast ++ (b.substepsOf step.substeps).reverse) streams
          nodes

/-- The checks that there are inputs and outputs. -/
def checkEnds (nodes : List TimelyNode) : Except BuildError (List TimelyNode) := do
  if !nodes.any TimelyNode.isInput then throw .noInput
  if !nodes.any TimelyNode.isOutput then throw .noOutput
  return nodes

/-- `build_production_dataflow`, for the `Dataflow` number `ref`. -/
def buildProductionDataflow (b : Building) (args : StepArgs) (ref : ℕ) (flowId : PlainId)
    (fuel : ℕ) : Option (Except BuildError (List TimelyNode)) := do
  let built ← b.buildLoop args fuel (b.substepsOf (.flow ref flowId)).reverse .empty []
  return built.bind checkEnds

end Building
end Bytewax
