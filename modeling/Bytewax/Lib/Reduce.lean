import Mathlib.Data.List.Induction

/-!
# Bytewax.Lib.Reduce — reducing a list with a binary operation

`reduce op l` combines the elements of a list from the left, the first being the start; the empty list
has no result.  If the operation is associative, a list may be reduced piece by piece.
-/

namespace Reduce

variable {α : Type*} (op : α → α → α)

/-- Combine the elements from the left. -/
def reduce (l : List α) : Option α := l.foldl (fun acc a => acc.merge op (some a)) none

@[simp] theorem reduce_nil : reduce op [] = none := rfl

theorem reduce_concat (l : List α) (a : α) :
    reduce op (l ++ [a]) = (reduce op l).merge op (some a) := by
  rw [reduce, List.foldl_append]
  rfl

theorem reduce_cons (a : α) (l : List α) : reduce op (a :: l) = some (l.foldl op a) := by
  induction l using List.reverseRecOn with
  | nil => rfl
  | append_singleton l b ih =>
    rw [← List.cons_append, reduce_concat, ih, List.foldl_append]
    rfl

theorem reduce_eq_none {l : List α} : reduce op l = none ↔ l = [] := by
  cases l with
  | nil => simp
  | cons a l => simp [reduce_cons]

variable [Std.Associative op]

theorem reduce_append (l l' : List α) :
    reduce op (l ++ l') = (reduce op l).merge op (reduce op l') := by
  induction l' using List.reverseRecOn with
  | nil => simp
  | append_singleton l' a ih =>
    rw [← List.append_assoc, reduce_concat, ih, reduce_concat]
    exact (Option.associative_merge op).assoc _ _ _

/-- **Reducing piece by piece.** -/
theorem reduce_flatMap (ls : List (List α)) :
    reduce op (ls.flatMap fun l => (reduce op l).toList) = reduce op ls.flatten := by
  induction ls with
  | nil => rfl
  | cons l ls ih =>
    have hone : reduce op (reduce op l).toList = reduce op l := by
      cases reduce op l <;> rfl
    rw [List.flatMap_cons, List.flatten_cons, reduce_append, reduce_append, hone, ih]

end Reduce
