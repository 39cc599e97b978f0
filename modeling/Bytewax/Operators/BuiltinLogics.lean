import Bytewax.Lib.Dict
import Bytewax.Operators.Unary

/-!
# Bytewax.Operators.BuiltinLogics — the logics of the built-in operators

The builders that `fold_final`, `stateful_map`, `collect`, `join` and `join_named` hand to `unary`,
with the logics they build; the other state of a logic, its configuration, is the parameters.  A
value that Python code may set to `None` has the type `Py`: the builders take a resume state of
`None` for the lack of one.
-/

namespace Bytewax

/-- A Python value, or `None`. -/
abbrev Py (α : Type) := Option α

/-- `resume_state if resume_state is not None else default`, when the resume state may be `None`. -/
def resumeOr {S : Type} (resumeState : Option (Py S)) (default : Py S) : Py S :=
  match resumeState.join with
  | some state => some state
  | none => default

/-! ### Folding and mapping -/

section

variable {V W S : Type}

/-- The builder of `fold_final` and `_FoldFinalLogic`. -/
def foldFinal (builder : Py S) (folder : Py S → V → Py S) :
    UnaryLogic V (Py S) (Py S) (Py S) where
  builder _ resumeState := resumeOr resumeState builder
  onItem state _ value := (folder state value, [], .retain)
  onNotify state _ := (state, [], .retain)
  onEof state := (state, [state], .discard)
  notifyAt _ := none
  snapshot state := state

/-- The builder of `stateful_map` and `_StatefulMapLogic`. -/
def statefulMap (builder : Py S) (mapper : Py S → V → Py S × W) :
    UnaryLogic V W (Py S) (Py S) where
  builder _ resumeState := resumeOr resumeState builder
  onItem state _ value :=
    match mapper state value with
    | (none, w) => (state, [w], .discard)
    | (some s, w) => (some s, [w], .retain)
  onNotify state _ := (state, [], .retain)
  onEof state := (state, [], .retain)
  notifyAt _ := none
  snapshot state := state

end

/-! ### Collecting -/

/-- `_CollectState`. -/
structure CollectState (V : Type) where
  acc : List V
  timeoutAt : Option Int
  deriving DecidableEq, Repr

/-- The builder of `collect` and `_CollectLogic`. -/
def collect {V : Type} (timeout : Int) (maxSize : Nat) :
    UnaryLogic V (List V) (CollectState V) (CollectState V) where
  builder _ resumeState := resumeState.getD ⟨[], none⟩
  onItem state now value :=
    let state : CollectState V := ⟨state.acc ++ [value], some (now + timeout)⟩
    if state.acc.length ≥ maxSize then (state, [state.acc], .discard) else (state, [], .retain)
  onNotify state _ := (state, [state.acc], .discard)
  onEof state := (state, [state.acc], .discard)
  notifyAt state := state.timeoutAt
  snapshot state := state

/-! ### Joining -/

/-- `_JoinState`, over the names of the sides. -/
structure JoinState (N V : Type) where
  seen : Dict N (List V)
  deriving DecidableEq

namespace JoinState

variable {N V V' : Type} [DecidableEq N]

/-- `_JoinState.for_names`. -/
def forNames (names : List N) : JoinState N V := ⟨.ofList (names.map fun name => (name, []))⟩

/-- `_JoinState.set_val`. -/
def setVal (s : JoinState N V) (name : N) (value : V) : JoinState N V := ⟨s.seen.set name [value]⟩

/-- `_JoinState.is_set`. -/
def isSet (s : JoinState N V) (name : N) : Bool := ((s.seen.get? name).getD []).length > 0

/-- `_JoinState.all_set`. -/
def allSet (s : JoinState N V) : Bool := s.seen.keys.all s.isSet

omit [DecidableEq N] in
/-- `itertools.product`: the last place changes fastest. -/
def product : List (List V) → List (List V)
  | [] => [[]]
  | vals :: rest => vals.flatMap fun v => (product rest).map (v :: ·)

omit [DecidableEq N] in
/-- `_JoinState.astuples`. -/
def astuples (empty : V) (s : JoinState N V) : List (List V) :=
  product (s.seen.values.map fun vals => if vals.length > 0 then vals else [empty])

/-- `_JoinState.asdicts`; the values are told apart from the new object `EMPTY`. -/
def asdicts (s : JoinState N V) : List (Dict N V) :=
  let withEmpty : JoinState N (Option V) := ⟨s.seen.map fun vals => vals.map some⟩
  (withEmpty.astuples none).map fun t =>
    .ofList ((s.seen.keys.zip t).filterMap fun p => p.2.map fun v => (p.1, v))

end JoinState

/-- The builder of `join` and `join_named`, and `_JoinLogic`. -/
def join {N V : Type} [DecidableEq N] (names : List N) (running : Bool) :
    UnaryLogic (N × V) (JoinState N V) (JoinState N V) (JoinState N V) where
  builder _ resumeState := resumeState.getD (.forNames names)
  onItem state _ value :=
    let state := state.setVal value.1 value.2
    if running then (state, [state], .retain)
    else if state.allSet then (state, [state], .discard)
    else (state, [], .retain)
  onNotify state _ := (state, [], .retain)
  onEof state := (state, [], .retain)
  notifyAt _ := none
  snapshot state := state

end Bytewax
