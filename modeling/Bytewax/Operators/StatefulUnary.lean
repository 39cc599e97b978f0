import Bytewax.Lib.Runs

/-!
# Bytewax.Operators.StatefulUnary — `stateful_unary`, one key at a time

What the operator does with the logic of one key each time that key is awoken: it takes the logic
out, or builds a new one, calls it, and puts it back unless its fate is to be discarded.
-/

namespace Bytewax

/-- `LogicFate`. -/
inductive LogicFate
  | retain
  | discard
  deriving DecidableEq, Repr

/-- `trait StatefulLogic`, over the logic's state; `I` is what `on_awake` gets and `O` what it
returns.  `none` is a panic. -/
structure StatefulLogic (I O L : Type) where
  build : L
  onAwake : L → I → Option (L × List O)
  fate : L → LogicFate
  nextAwake : L → Option (Option Int)

/-- The entries of a key in `current_logic` and `current_next_awake`. -/
structure KeyState (L : Type) where
  currentLogic : Option L
  currentNextAwake : Option Int

namespace KeyState

variable {I O L : Type}

/-- Before the key is seen. -/
def init : KeyState L := ⟨none, none⟩

/-- The body of the loop over `tmp_awake_logic_with`. -/
def awake (logic : StatefulLogic I O L) (s : KeyState L) (nextValue : I) :
    Option (KeyState L × List O) := do
  let (l, output) ← logic.onAwake (s.currentLogic.getD logic.build) nextValue
  match logic.fate l with
  | .discard => return (⟨none, none⟩, output)
  | .retain => do
    let nextAwake ← logic.nextAwake l
    return (⟨some l, nextAwake⟩, output)

variable {logic : StatefulLogic I O L} {s s' : KeyState L} {nextValue : I} {output : List O}

/-- An awakening is a call of the logic, whose state is dropped, or kept with its next awakening. -/
theorem awake_cases (h : awake logic s nextValue = some (s', output)) :
    ∃ l, logic.onAwake (s.currentLogic.getD logic.build) nextValue = some (l, output) ∧
      (logic.fate l = .discard ∧ s' = init ∨
        logic.fate l = .retain ∧ ∃ next, logic.nextAwake l = some next ∧ s' = ⟨some l, next⟩) := by
  obtain ⟨⟨l, out⟩, hl, h⟩ := Option.bind_eq_some_iff.mp h
  refine ⟨l, ?_⟩
  cases hf : logic.fate l with
  | discard =>
    simp only [hf, Option.pure_def, Option.some.injEq, Prod.mk.injEq] at h
    obtain ⟨rfl, rfl⟩ := h
    exact ⟨hl, .inl ⟨rfl, rfl⟩⟩
  | retain =>
    simp only [hf] at h
    obtain ⟨next, hnext, h⟩ := Option.bind_eq_some_iff.mp h
    simp only [Option.pure_def, Option.some.injEq, Prod.mk.injEq] at h
    obtain ⟨rfl, rfl⟩ := h
    exact ⟨hl, .inr ⟨rfl, next, hnext, rfl⟩⟩

/-- The next awakening of a key is what its logic asks for, and there is none without a logic. -/
def Scheduled (logic : StatefulLogic I O L) (s : KeyState L) : Prop :=
  s = init ∨ ∃ l, s.currentLogic = some l ∧ logic.nextAwake l = some s.currentNextAwake

theorem scheduled_awake (h : awake logic s nextValue = some (s', output)) :
    Scheduled logic s' := by
  obtain ⟨l, -, ⟨-, rfl⟩ | ⟨-, next, hnext, rfl⟩⟩ := awake_cases h
  · exact .inl rfl
  · exact .inr ⟨l, rfl, hnext⟩

end KeyState
end Bytewax
