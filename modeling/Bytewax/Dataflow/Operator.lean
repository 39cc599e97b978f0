import Bytewax.Lib.Runs

/-!
# Bytewax.Dataflow.Operator — `Dataflow` and the `operator` decorator

A program builds dataflows by calling functions that the `operator` decorator has made.  The call of
a core operator makes a step and new streams.  The call of any other operator makes a scope and runs
the operator's builder, which calls operators on streams of that scope; when the builder returns,
the step is stored, and the streams it returned are those of the outer scope.  Since Python programs
can keep any stream they have seen, a program is any sequence of such actions, on any of the handles
made so far.
-/

namespace Bytewax

/-- An ID without a period.  Names of parameters and of dataclass fields are such IDs, too. -/
structure PlainId where
  id : String
  noPeriod : '.' ∉ id.toList
  deriving DecidableEq

/-- The check for a period, in `Dataflow.__post_init__` and in the functions of operators. -/
def PlainId.ofString (id : String) : Option PlainId :=
  if h : '.' ∉ id.toList then some ⟨id, h⟩ else none

namespace PlainId

/-! Names of parameters and of returned values. -/

def up : PlainId := ⟨"up", by decide⟩

def ups : PlainId := ⟨"ups", by decide⟩

def down : PlainId := ⟨"down", by decide⟩

def trues : PlainId := ⟨"trues", by decide⟩

def falses : PlainId := ⟨"falses", by decide⟩

end PlainId

/-- The operators with `_core=True`. -/
inductive CoreOp
  | branch
  | flatMapBatch
  | foldWindow
  | input
  | inspectDebug
  | merge
  | output
  | redistribute
  | unary
  deriving DecidableEq

/-- The name of the function. -/
def CoreOp.name : CoreOp → String
  | .branch => "branch"
  | .flatMapBatch => "flat_map_batch"
  | .foldWindow => "fold_window"
  | .input => "input"
  | .inspectDebug => "inspect_debug"
  | .merge => "merge"
  | .output => "output"
  | .redistribute => "redistribute"
  | .unary => "unary"

/-- A class that the decorator makes, by the name of its function. -/
inductive OpType
  | core (op : CoreOp)
  | other (name : String)
  deriving DecidableEq

def OpType.name : OpType → String
  | .core op => op.name
  | .other name => name

def OpType.isCore : OpType → Bool
  | .core _ => true
  | .other _ => false

/-- A list of substeps: of the `Dataflow` object number `ref`, or of call number `ref` of an
operator, with the outer list to which the step of the call goes. -/
inductive Substeps
  | flow (ref : ℕ) (flowId : PlainId)
  | step (ref : ℕ) (outer : Substeps) (stepName : PlainId)
  deriving DecidableEq

namespace Substeps

/-- `_Scope.parent_id`. -/
def parentId : Substeps → String
  | .flow _ flowId => flowId.id
  | .step _ outer stepName => outer.parentId ++ "." ++ stepName.id

def outer : Substeps → Option Substeps
  | .flow _ _ => none
  | .step _ outer _ => some outer

/-- The list of the `Dataflow`. -/
def root : Substeps → Substeps
  | .flow ref flowId => .flow ref flowId
  | .step _ outer _ => outer.root

/-- How deep the list is. -/
def depth : Substeps → ℕ
  | .flow _ _ => 0
  | .step _ outer _ => outer.depth + 1

end Substeps

/-- `_Scope`: its list, and the lists of the scope of the `Dataflow` that is its `flow`, of the
scope of the `flow` of that scope, and so on, to the scope that a `Dataflow` got in `__post_init__`,
whose `flow` has the same scope. -/
structure Scope where
  substeps : Substeps
  flows : List Substeps
  deriving DecidableEq

/-- `scope.flow._scope`. -/
def Scope.flow : Scope → Scope
  | ⟨substeps, []⟩ => ⟨substeps, []⟩
  | ⟨_, substeps :: flows⟩ => ⟨substeps, flows⟩

/-- A `Stream`, or, without a stream ID, a `Dataflow`. -/
structure Handle where
  scope : Scope
  streamId : Option String
  deriving DecidableEq

/-- `_with_scope`. -/
def Handle.withScope (h : Handle) (scope : Scope) : Handle := { h with scope := scope }

/-- `SinglePort` or `MultiPort`, with the name of its field; `stream_ids` without their keys. -/
structure Port where
  name : PlainId
  streamIds : List String
  deriving DecidableEq

/-- The ports of the streams that a core operator returns. -/
def CoreOp.downNames : CoreOp → List PlainId
  | .branch => [.trues, .falses]
  | .output => []
  | _ => [.down]

/-- The output ports of a core operator, whose builder makes their streams. -/
def CoreOp.downs (op : CoreOp) (stepId : String) : List Port :=
  op.downNames.map fun name => ⟨name, [stepId ++ "." ++ name.id]⟩

/-- `Operator`, in the list `outer`. -/
structure OperatorStep where
  typ : OpType
  ref : ℕ
  outer : Substeps
  stepName : PlainId
  ups : List Port
  downs : List Port
  deriving DecidableEq

namespace OperatorStep

def substeps (step : OperatorStep) : Substeps := .step step.ref step.outer step.stepName

/-- `step_id`. -/
def stepId (step : OperatorStep) : String := step.outer.parentId ++ "." ++ step.stepName.id

/-- `port_id`. -/
def portId (step : OperatorStep) (port : Port) : String := step.stepId ++ "." ++ port.name.id

/-- The streams on the input ports. -/
def upIds (step : OperatorStep) : List String := step.ups.flatMap Port.streamIds

/-- The streams on the output ports. -/
def downIds (step : OperatorStep) : List String := step.downs.flatMap Port.streamIds

end OperatorStep

/-- A call of an operator, with its `outer_scope`. -/
structure OperatorCall where
  typ : OpType
  ref : ℕ
  outer : Scope
  stepName : PlainId
  ups : List Port
  deriving DecidableEq

namespace OperatorCall

/-- `inner_scope`: its `flow` has the scope that `inner_scope` was before its `flow` was replaced.
-/
def inner (call : OperatorCall) : Scope :=
  let substeps := .step call.ref call.outer.substeps call.stepName
  ⟨substeps, substeps :: call.outer.flow.substeps :: call.outer.flow.flows⟩

def upIds (call : OperatorCall) : List String := call.ups.flatMap Port.streamIds

/-- The step of the call, once the builder has returned. -/
def step (call : OperatorCall) (downs : List Port) : OperatorStep :=
  ⟨call.typ, call.ref, call.outer.substeps, call.stepName, call.ups, downs⟩

end OperatorCall

/-- An argument or a returned value: streams of a port, or a `Dataflow` or a stream without an
annotation, which is on no port.  Handles are given by their number. -/
inductive Arg
  | port (name : PlainId) (handles : List ℕ)
  | other (handle : ℕ)
  deriving DecidableEq

def Arg.handles : Arg → List ℕ
  | .port _ handles => handles
  | .other handle => [handle]

/-- The value that is on no port. -/
def Arg.other? : Arg → Option ℕ
  | .port _ _ => none
  | .other handle => some handle

/-- The arguments of a core operator, by their parameters. -/
def CoreOp.args : CoreOp → List ℕ → Option (List Arg)
  | .input, [flow] => some [.other flow]
  | .input, _ => none
  | .merge, ups => some [.port .ups ups]
  | _, [up] => some [.port .up [up]]
  | _, _ => none

/-- The state of a program that builds dataflows: the steps that have been appended to lists of
substeps, in order, the handles made so far, and the calls whose builders are running, the innermost
first. -/
structure Building where
  steps : List OperatorStep
  handles : List Handle
  calls : List OperatorCall
  fresh : ℕ

/-- What a program does: instantiate a `Dataflow`, take the `flow()` of a stream, call an operator,
or return from the builder of an operator. -/
inductive BuildAction
  | dataflow (flowId : String)
  | flow (handle : ℕ)
  | callCore (op : CoreOp) (stepId : String) (handles : List ℕ)
  | call (opType : String) (stepId : String) (args : List Arg)
  | ret (out : List Arg)
  deriving DecidableEq

namespace Building

/-- Before any action. -/
def init : Building := ⟨[], [], [], 0⟩

/-- The contents of a list of substeps. -/
def substepsOf (b : Building) (s : Substeps) : List OperatorStep :=
  b.steps.filter fun step => step.outer = s

def lookup (b : Building) (handles : List ℕ) : Option (List Handle) :=
  handles.mapM fun i => b.handles[i]?

/-- The ports of arguments, whose values must be streams. -/
def ports (b : Building) : List Arg → Option (List Port)
  | [] => some []
  | .other _ :: args => b.ports args
  | .port name handles :: args => do
    let handles ← b.lookup handles
    let streamIds ← handles.mapM Handle.streamId
    let ports ← b.ports args
    return ⟨name, streamIds⟩ :: ports

/-- The `outer_scope` of the arguments: scopes are compared by their `parent_id`, and of equal ones
the first is taken. -/
def outerScope : List Handle → Option Scope
  | [] => none
  | arg :: args =>
    if ∀ a ∈ args, a.scope.substeps.parentId = arg.scope.substeps.parentId then some arg.scope
    else none

/-- The scoping of a call, with the values of its arguments. -/
def enter (b : Building) (typ : OpType) (stepId : String) (args : List Arg) :
    Option (OperatorCall × List Handle) := do
  let ups ← b.ports args
  let stepName ← PlainId.ofString stepId
  let handles ← b.lookup (args.flatMap Arg.handles)
  let outer ← outerScope handles
  return (⟨typ, b.fresh, outer, stepName, ups⟩, handles)

/-- Store a step in its list, unless its ID exists there. -/
def append (b : Building) (step : OperatorStep) : Option Building :=
  if ∃ existing ∈ b.steps, existing.outer = step.outer ∧ existing.stepId = step.stepId then none
  else some { b with steps := b.steps ++ [step] }

/-- One action, with the handles it makes; `none` is an exception.  The names of the ports of a
class are distinct, as the decorator checks. -/
def act (b : Building) : BuildAction → Option (Building × List Handle)
  | .dataflow flowId => do
    let flowId ← PlainId.ofString flowId
    return ({ b with fresh := b.fresh + 1 }, [⟨⟨.flow b.fresh flowId, []⟩, none⟩])
  | .flow handle => do
    let h ← b.handles[handle]?
    if h.streamId.isSome then return (b, [⟨h.scope.flow, none⟩]) else none
  | .callCore op stepId handles => do
    let args ← op.args handles
    let (call, _) ← b.enter (.core op) stepId args
    let step := call.step (op.downs call.inner.substeps.parentId)
    let b ← { b with fresh := b.fresh + 1 }.append step
    return (b, step.downIds.map fun id => ⟨call.outer, some id⟩)
  | .call opType stepId args => do
    let (call, handles) ← b.enter (.other opType) stepId args
    return ({ b with calls := call :: b.calls, fresh := b.fresh + 1 },
      handles.map fun h => h.withScope call.inner)
  | .ret out => do
    let call ← b.calls.head?
    let downs ← b.ports out
    let handles ← b.lookup (out.flatMap Arg.handles)
    if ((call.ups ++ downs).map Port.name).Nodup then
      let b ← { b with calls := b.calls.tail }.append (call.step downs)
      return (b, handles.map fun h => h.withScope call.outer)
    else
      none

/-- One action of the program, which keeps the handles. -/
def step (b : Building) (action : BuildAction) : Option (Building × List Handle) := do
  let (b, handles) ← b.act action
  return ({ b with handles := b.handles ++ handles }, handles)

end Building
end Bytewax
