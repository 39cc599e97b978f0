import Bytewax.Dataflow.Operator
import Bytewax.Lib.ChainMap

/-!
# Bytewax.Dataflow.Encoder — the rendered graph

`to_rendered` resolves the links between ports: for each stream of an input port it looks up which
port the stream comes from, in a chain of maps with one map for each list of substeps around the
step.
-/

namespace Bytewax

structure RenderedPort where
  portName : String
  portId : String
  fromPortIds : List String
  fromStreamIds : List String
  deriving DecidableEq, Repr

structure RenderedOperator where
  opType : String
  stepName : String
  stepId : String
  inpPorts : List RenderedPort
  outPorts : List RenderedPort
  substeps : List RenderedOperator

structure RenderedDataflow where
  flowId : String
  substeps : List RenderedOperator

namespace OperatorStep

/-- A stream and the ID of its port, for each stream of some ports. -/
def portEntries (step : OperatorStep) (ports : List Port) : List (String × String) :=
  ports.flatMap fun port => port.streamIds.map fun id => (id, step.portId port)

/-- A port, with the links of these of its streams. -/
def renderPort (step : OperatorStep) (m : ChainMap String String) (port : Port)
    (streamIds : List String) : Option RenderedPort := do
  let fromPortIds ← streamIds.mapM m.get?
  return ⟨port.name.id, step.portId port, fromPortIds, streamIds⟩

end OperatorStep

namespace Building

/-- Render steps one after the other, which write to the same map. -/
def renderAll (render : OperatorStep → ChainMap String String →
      Option (RenderedOperator × ChainMap String String)) :
    List OperatorStep → ChainMap String String →
      Option (List RenderedOperator × ChainMap String String)
  | [], m => some ([], m)
  | step :: steps, m => do
    let (r, m) ← render step m
    let (rs, m) ← renderAll render steps m
    return (r :: rs, m)

/-- `_to_rendered`, for lists that are not nested deeper than `fuel`; `none` is an exception. -/
def toRenderedStep (b : Building) : ℕ → OperatorStep → ChainMap String String →
    Option (RenderedOperator × ChainMap String String)
  | 0, _, _ => none
  | fuel + 1, step, m => do
    let inpPorts ← step.ups.mapM fun port => step.renderPort m port port.streamIds
    let m := m.update (step.portEntries step.downs)
    -- The inner scope: streams of the input ports come from the input ports.
    let inner := m.newChild (step.portEntries step.ups)
    let (substeps, inner) ← renderAll (b.toRenderedStep fuel) (b.substepsOf step.substeps) inner
    let outPorts ← step.downs.mapM fun port =>
      step.renderPort inner port (if substeps.length > 0 then port.streamIds else [])
    return (⟨step.typ.name, step.stepName.id, step.stepId, inpPorts, outPorts, substeps⟩, m)

/-- How deep the deepest list of a step is. -/
def depth (b : Building) : ℕ := (b.steps.map fun step => step.substeps.depth).foldr max 0

/-- `to_rendered`, for the `Dataflow` number `ref`. -/
def toRendered (b : Building) (ref : ℕ) (flowId : PlainId) : Option RenderedDataflow := do
  let (substeps, _) ← renderAll (b.toRenderedStep b.depth) (b.substepsOf (.flow ref flowId)) .empty
  return ⟨flowId.id, substeps⟩

end Building

/-! ### Following links -/

mutual

/-- The ports of a step and of the steps in it. -/
def RenderedOperator.ports : RenderedOperator → List RenderedPort
  | ⟨_, _, _, inpPorts, outPorts, substeps⟩ => inpPorts ++ outPorts ++ portsAll substeps

def portsAll : List RenderedOperator → List RenderedPort
  | [] => []
  | r :: rs => r.ports ++ portsAll rs

end

def RenderedDataflow.ports (r : RenderedDataflow) : List RenderedPort := portsAll r.substeps

/-- The port that a port has a stream from. -/
def fromPort? (ports : List RenderedPort) (streamId portId : String) : Option String := do
  let port ← ports.find? fun port => port.portId = portId
  (port.fromStreamIds.zip port.fromPortIds).lookup streamId

/-- Following the links of a stream backwards from a port ends at another one. -/
inductive EndsAt (ports : List RenderedPort) (streamId : String) : String → String → Prop
  | here {p : String} (h : fromPort? ports streamId p = none) : EndsAt ports streamId p p
  | link {p q r : String} (h : fromPort? ports streamId p = some q)
    (hq : EndsAt ports streamId q r) : EndsAt ports streamId p r

end Bytewax
