import Mathlib.Order.Basic

/-!
# Bytewax.Operators.Frontier — frontiers and input buffers

Epochs are totally ordered, so what an operator sees of the frontier of an input is one epoch, or
nothing once the input has ended (`FrontierEx`).
-/

namespace Bytewax

/-- A frontier after `FrontierEx::simplify`: `none` is the end of the input. -/
abbrev Frontier := Option Nat

namespace Frontier

/-- `FrontierEx::simplify` of two inputs together. -/
def both : Frontier → Frontier → Frontier
  | some a, some b => some (min a b)
  | some a, none => some a
  | none, b => b

/-- `FrontierEx::is_closed`. -/
def IsClosed (f : Frontier) (epoch : Nat) : Prop := ∀ t ∈ f, epoch < t

instance (f : Frontier) (epoch : Nat) : Decidable (f.IsClosed epoch) :=
  match f with
  | none => isTrue fun _ h => nomatch h
  | some t => decidable_of_iff (epoch < t) ⟨fun h _ ht => Option.some.inj ht ▸ h, fun h => h t rfl⟩

/-- `FrontierEx::is_eof`. -/
def isEof (f : Frontier) : Bool := f.isNone

/-- A frontier does not go back. -/
def Le (f g : Frontier) : Prop := ∀ t ∈ g, ∃ s ∈ f, s ≤ t

/-- A message of this epoch can still arrive at the frontier. -/
def Admits (f : Frontier) (epoch : Nat) : Prop := ∃ t ∈ f, t ≤ epoch

/-- `ProbeHandle::less_than`: there is still something to do before this epoch. -/
def LessThan (f : Frontier) (epoch : Nat) : Prop := ∃ t ∈ f, t < epoch

instance (f : Frontier) (epoch : Nat) : Decidable (f.LessThan epoch) :=
  match f with
  | none => isFalse fun ⟨_, h, _⟩ => nomatch h
  | some t => decidable_of_iff (t < epoch) ⟨fun h => ⟨t, rfl, h⟩,
      fun ⟨_, ht, h⟩ => Option.some.inj ht ▸ h⟩

theorem LessThan.mono {f : Frontier} {e e' : Nat} (h : f.LessThan e) (he : e ≤ e') :
    f.LessThan e' := by
  obtain ⟨t, ht, hlt⟩ := h
  exact ⟨t, ht, by omega⟩

/-- The closed epochs are before the open ones. -/
theorem IsClosed.lt {f : Frontier} {e e' : Nat} (h : f.IsClosed e) (h' : ¬ f.IsClosed e') :
    e < e' := by
  cases f with
  | none => exact absurd (fun _ ht => nomatch ht) h'
  | some t =>
    have he : e < t := h t rfl
    have he' : ¬ e' < t := fun hlt => h' fun _ ht => Option.some.inj ht ▸ hlt
    omega

@[simp] theorem isClosed_some {t epoch : Nat} : IsClosed (some t) epoch ↔ epoch < t :=
  ⟨fun h => h t rfl, fun h _ ht => Option.some.inj ht ▸ h⟩

@[simp] theorem isClosed_none {epoch : Nat} : IsClosed none epoch :=
  fun _ h => nomatch h

end Frontier
end Bytewax
