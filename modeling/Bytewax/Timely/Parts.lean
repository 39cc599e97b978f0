import Bytewax.Timely.Routing

/-!
# Bytewax.Timely.Parts — the parts that a worker is primary for

`partd_write` and `partd_commit` keep one part for each partition that is assigned to their worker,
and update the parts at the close of an epoch.  Since only changes of assignments are sent, an
assignment to this worker never meets a part that is there.
-/

namespace Bytewax

open Std (TreeMap TreeSet)

namespace EpochOp

variable {P W C : Type} [LinearOrder P]

/-- The loop over the assignments of a closed epoch: a part is built, or dropped. -/
def assignPart (builder : P → W) (built dropped : P → C) (thisWorker epoch : Nat)
    (parts : TreeMap P W) (assignment : P × Nat) : Option (TreeMap P W × List (Nat × C)) :=
  let (partKey, worker) := assignment
  if worker = thisWorker ∧ partKey ∉ parts then
    some (parts.insert partKey (builder partKey), [(epoch, built partKey)])
  else
    some (parts.erase partKey, [(epoch, dropped partKey)])

/-- Each assignment is a change. -/
def Changing (routes : List (P × Nat)) : Prop :=
  ∀ pre route post, routes = pre ++ route :: post → lastAssigned pre route.1 ≠ some route.2

/-- The parts are those of the partitions that are assigned to this worker. -/
def IsPrimary (thisWorker : Nat) (routes : List (P × Nat)) (parts : TreeMap P W) : Prop :=
  ∀ p, p ∈ parts ↔ lastAssigned routes p = some thisWorker

variable {builder : P → W} {built dropped : P → C} {thisWorker e : Nat} {parts parts' : TreeMap P W}
  {routes updates : List (P × Nat)} {o : List (Nat × C)}

theorem Changing.nil : Changing ([] : List (P × Nat)) := fun pre route post heq => by
  simp at heq

/-- One more change. -/
theorem Changing.concat (h : Changing routes) (route : P × Nat)
    (hchange : lastAssigned routes route.1 ≠ some route.2) : Changing (routes ++ [route]) := by
  intro pre route' post heq
  rcases List.eq_nil_or_concat' post with rfl | ⟨post', last, rfl⟩
  · obtain ⟨rfl, hlast⟩ := List.append_inj' heq rfl
    obtain rfl := List.singleton_inj.mp hlast
    exact hchange
  · rw [← List.cons_append, ← List.append_assoc] at heq
    obtain ⟨hinit, -⟩ := List.append_inj' heq rfl
    exact h pre route' post' hinit

theorem IsPrimary.empty : IsPrimary thisWorker [] (∅ : TreeMap P W) := fun p => by
  simp [lastAssigned]

variable (builder built dropped e) in
/-- One assignment. -/
theorem IsPrimary.assignPart (h : IsPrimary thisWorker routes parts) (route : P × Nat)
    (hchange : lastAssigned routes route.1 ≠ some route.2) :
    ∃ parts' o, assignPart builder built dropped thisWorker e parts route = some (parts', o) ∧
      IsPrimary thisWorker (routes ++ [route]) parts' := by
  obtain ⟨part, worker⟩ := route
  have hlast : ∀ p, lastAssigned (routes ++ [(part, worker)]) p =
      if part = p then some worker else lastAssigned routes p := by
    intro p
    rw [lastAssigned_append]
    show (List.lookup p [(part, worker)]).or _ = _
    rw [List.lookup_cons]
    by_cases hp : part = p
    · simp [hp]
    · rw [beq_eq_false_iff_ne.mpr (Ne.symm hp), if_neg hp]
      rfl
  by_cases hthis : worker = thisWorker
  · -- a change to this worker: there is no part yet
    have hnew : part ∉ parts := fun hin => hchange (by rw [hthis]; exact (h part).mp hin)
    refine ⟨parts.insert part (builder part), _, if_pos ⟨hthis, hnew⟩, fun p => ?_⟩
    rw [TreeMap.mem_insert, Std.LawfulEqCmp.compare_eq_iff_eq, hlast, h p]
    split
    · next hp => simp [hp, hthis]
    · next hp => simp [hp]
  · refine ⟨parts.erase part, _, if_neg fun hb => hthis hb.1, fun p => ?_⟩
    rw [TreeMap.mem_erase, hlast, h p]
    split
    · next hp => simp [hp, hthis]
    · next hp => simp [hp]

variable (builder built dropped e) in
/-- The loop over the assignments does not panic. -/
theorem IsPrimary.run_assignPart (h : IsPrimary thisWorker routes parts)
    (hchanges : Changing (routes ++ updates)) :
    ∃ parts' o, Runs.run (EpochOp.assignPart builder built dropped thisWorker e) parts updates =
        some (parts', o) ∧ IsPrimary thisWorker (routes ++ updates) parts' := by
  induction updates generalizing parts routes with
  | nil => exact ⟨parts, [], rfl, by rwa [List.append_nil]⟩
  | cons route updates ih =>
    obtain ⟨parts₁, o₁, hs, h₁⟩ := h.assignPart builder built dropped e route
      (hchanges routes route updates rfl)
    have hsplit : routes ++ route :: updates = routes ++ [route] ++ updates := by simp
    rw [hsplit] at hchanges ⊢
    obtain ⟨parts', o, hr, h'⟩ := ih h₁ hchanges
    exact ⟨parts', o₁ ++ o, Runs.run_cons hs hr, h'⟩

/-- It only builds and drops. -/
theorem run_assignPart_calls
    (h : Runs.run (assignPart builder built dropped thisWorker e) parts updates =
      some (parts', o)) : ∀ call ∈ o, call.1 = e ∧ ∃ p, call.2 = built p ∨ call.2 = dropped p := by
  intro call hcall
  obtain ⟨route, -, s, s', o', hs, hcall⟩ := Runs.exists_of_mem_run h hcall
  obtain ⟨part, worker⟩ := route
  by_cases hb : worker = thisWorker ∧ part ∉ s
  · rw [show assignPart builder built dropped thisWorker e s (part, worker) = _ from if_pos hb] at hs
    cases hs
    rw [List.mem_singleton.mp hcall]
    exact ⟨rfl, part, .inl rfl⟩
  · rw [show assignPart builder built dropped thisWorker e s (part, worker) = _ from if_neg hb] at hs
    cases hs
    rw [List.mem_singleton.mp hcall]
    exact ⟨rfl, part, .inr rfl⟩

end EpochOp
end Bytewax
