import Mathlib.Tactic.TypeStar

/-!
# Bytewax.Lib.MapM — mapping a function that may fail

`xs.mapM f` has the values of `f` at all elements of `xs`, if `f` fails at none of them.
-/

namespace MapM

variable {α β : Type*} {f : α → Option β} {xs : List α} {ys : List β}

theorem cons_eq_some {x : α} (h : (x :: xs).mapM f = some ys) :
    ∃ y zs, f x = some y ∧ xs.mapM f = some zs ∧ ys = y :: zs := by
  rw [List.mapM_cons] at h
  obtain ⟨y, hy, h⟩ := Option.bind_eq_some_iff.mp h
  obtain ⟨zs, hzs, h⟩ := Option.bind_eq_some_iff.mp h
  cases h
  exact ⟨y, zs, hy, hzs, rfl⟩

theorem eq_some_iff : xs.mapM f = some ys ↔ xs.map f = ys.map some := by
  induction xs generalizing ys with
  | nil => cases ys <;> simp
  | cons x xs ih =>
    constructor
    · intro h
      obtain ⟨y, zs, hy, hzs, rfl⟩ := cons_eq_some h
      rw [List.map_cons, List.map_cons, hy, ih.mp hzs]
    · intro h
      cases ys with
      | nil => cases h
      | cons y ys =>
        obtain ⟨hy, hys⟩ := List.cons.inj h
        rw [List.mapM_cons, hy, ih.mpr hys]
        rfl

theorem isSome_iff : (xs.mapM f).isSome ↔ ∀ x ∈ xs, (f x).isSome := by
  induction xs with
  | nil => simp
  | cons x xs ih =>
    rw [List.mapM_cons, List.forall_mem_cons, ← ih]
    cases f x with
    | none => simp
    | some y => cases xs.mapM f <;> simp

theorem mem_iff (h : xs.mapM f = some ys) {y : β} : y ∈ ys ↔ ∃ x ∈ xs, f x = some y := by
  rw [← List.mem_map, eq_some_iff.mp h]
  simp

theorem length_eq (h : xs.mapM f = some ys) : ys.length = xs.length := by
  simpa using (congrArg List.length (eq_some_iff.mp h)).symm

theorem append {xs' : List α} {ys' : List β} (h : xs.mapM f = some ys)
    (h' : xs'.mapM f = some ys') : (xs ++ xs').mapM f = some (ys ++ ys') := by
  rw [eq_some_iff] at h h' ⊢
  rw [List.map_append, List.map_append, h, h']

/-- One mapping after another. -/
theorem bind {γ : Type*} {g : β → Option γ} {zs : List γ} (h : xs.mapM f = some ys)
    (h' : ys.mapM g = some zs) : (xs.mapM fun x => (f x).bind g) = some zs := by
  induction xs generalizing ys zs with
  | nil =>
    cases h
    exact h'
  | cons x xs ih =>
    obtain ⟨y, ys, hy, hys, rfl⟩ := cons_eq_some h
    obtain ⟨z, zs, hz, hzs, rfl⟩ := cons_eq_some h'
    rw [List.mapM_cons, hy, Option.bind_some, hz, ih hys hzs]
    rfl

/-- What is made of each value is made of the element it comes from. -/
theorem flatMap_eq {γ : Type*} {g : β → List γ} (h : xs.mapM f = some ys) :
    ys.flatMap g = xs.flatMap fun x => ((f x).map g).getD [] := by
  induction xs generalizing ys with
  | nil =>
    cases h
    rfl
  | cons x xs ih =>
    obtain ⟨y, zs, hy, hzs, rfl⟩ := cons_eq_some h
    rw [List.flatMap_cons, List.flatMap_cons, hy, ih hzs]
    rfl

/-- What decodes single values decodes a list of them. -/
theorem decodes {g : β → Option α} (hg : ∀ a b, f a = some b → g b = some a)
    (h : xs.mapM f = some ys) : ys.mapM g = some xs := by
  induction xs generalizing ys with
  | nil =>
    cases h
    rfl
  | cons x xs ih =>
    obtain ⟨y, zs, hy, hzs, rfl⟩ := cons_eq_some h
    rw [List.mapM_cons, hg x y hy, ih hzs]
    rfl

end MapM
