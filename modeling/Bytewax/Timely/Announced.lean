import Bytewax.Timely.Parts
import Bytewax.Timely.Primaries

/-!
# Bytewax.Timely.Announced — the primaries of a cluster

The partitions of all workers are broadcast in the first epoch, each worker sends what it gets to
worker 0, and worker 0 assigns primaries; the assignments are broadcast in turn.
-/

namespace Bytewax

open Std (TreeMap TreeSet)

namespace EpochOp

variable {P : Type} [LinearOrder P]

/-- All of the input has arrived, in batches that are not empty. -/
structure Delivered {A U : Type} (as : List (EpochActivation A U)) : Prop where
  schedule : EpochSchedule as
  ended : lastFrontier as = none
  items : ∀ a ∈ as, ∀ m ∈ a.items, m.2 ≠ []
  updates : ∀ a ∈ as, ∀ m ∈ a.updates, m.2 ≠ []

/-- What the operator puts out in all; nothing if it panics. -/
def outputs {A B U D ω : Type} (op : EpochOp A B U D ω) (as : List (EpochActivation A U)) : List ω :=
  ((Runs.run op.activate op.start as).map Prod.snd).getD []

/-- `into_broadcast`: what each worker gets of the partitions of all workers. -/
def announcements (localParts : Nat → List P) (workers : Nat) : List (P × Nat) :=
  (List.range workers).flatMap fun w => (localParts w).map fun part => (part, w)

/-- **The announcements**: each worker sends what it got in the broadcast to worker 0, which gets all
of it. -/
structure Announced (localParts : Nat → List P) (workers : Nat)
    (assigned : List (EpochActivation (P × Nat) Empty)) : Prop where
  announced : (itemsAt assigned 0).Perm
    ((List.range workers).flatMap fun _ => announcements localParts workers)
  once : ∀ e, 0 < e → itemsAt assigned e = []
  delivered : Delivered assigned

/-! ### Arrivals -/

variable {std : Unstable P Nat} {localParts : Nat → List P} {workers : Nat}
  {assigned : List (EpochActivation (P × Nat) Empty)} {e : Nat}

theorem outputs_of_run {A B U D ω : Type} {op : EpochOp A B U D ω} {as : List (EpochActivation A U)}
    {s : EpochState B U D} {o : List ω} (h : Runs.run op.activate op.start as = some (s, o)) :
    op.outputs as = o := by
  rw [outputs, h]
  rfl

theorem Delivered.itemsAt_ne_nil {A U : Type} {as : List (EpochActivation A U)} (h : Delivered as)
    (hitems : HasItems as e) : itemsAt as e ≠ [] := by
  obtain ⟨m, hm, rfl⟩ := List.mem_map.mp hitems
  obtain ⟨a, ha, hin⟩ := List.mem_flatMap.mp hm
  obtain ⟨x, hx⟩ := List.exists_mem_of_ne_nil _ (h.items a ha m hin)
  exact List.ne_nil_of_mem (List.mem_flatten.mpr ⟨m.2, Keyed.mem_valuesOf.mpr hm, hx⟩)

theorem Delivered.itemsAt_ne_nil_of_active {A : Type} {as : List (EpochActivation A Empty)}
    (h : Delivered as) (hactive : Active as e) : itemsAt as e ≠ [] := by
  rcases hactive with hitems | hupdates
  · exact h.itemsAt_ne_nil hitems
  · obtain ⟨m, hm, rfl⟩ := List.mem_map.mp hupdates
    obtain ⟨a, ha, hin⟩ := List.mem_flatMap.mp hm
    obtain ⟨x, -⟩ := List.exists_mem_of_ne_nil _ (h.updates a ha m hin)
    exact x.elim

omit [LinearOrder P] in
theorem mem_announcements {part : P} {w : Nat} :
    (part, w) ∈ announcements localParts workers ↔ w < workers ∧ part ∈ localParts w := by
  simp only [announcements, List.mem_flatMap, List.mem_range, List.mem_map, Prod.mk.injEq]
  constructor
  · rintro ⟨w', hw', p, hp, rfl, rfl⟩
    exact ⟨hw', hp⟩
  · rintro ⟨hw, hp⟩
    exact ⟨w, hw, part, hp, rfl, rfl⟩

/-- The partitions that are known. -/
def allParts (localParts : Nat → List P) (workers : Nat) : List P :=
  (announcements localParts workers).map Prod.fst

/-- What is sent only once is what has been sent before each later epoch. -/
theorem flatMap_range_once {α : Type} {f : Nat → List α} (h : ∀ e, 0 < e → f e = []) (he : 0 < e) :
    (List.range e).flatMap f = f 0 := by
  obtain ⟨n, rfl⟩ := Nat.exists_eq_succ_of_ne_zero (Nat.ne_of_gt he)
  rw [List.range_succ_eq_map, List.flatMap_cons, List.flatMap_map,
    List.flatMap_eq_nil_iff.mpr fun x _ => h (x + 1) (Nat.succ_pos x), List.append_nil]

/-! ### Primaries -/

/-- The assignments of epoch 0. -/
def assignments (std : Unstable P Nat) (assigned : List (EpochActivation (P × Nat) Empty)) :
    List (P × Nat) :=
  Keyed.valuesOf 0 ((assignPrimaries std).outputs assigned)

/-- The assignments that worker 0 sends: each is a change, and each partition is assigned once, to one
of the workers that have it. -/
structure Settled (localParts : Nat → List P) (workers : Nat) (routes : List (P × Nat)) : Prop where
  changing : Changing routes
  once : (routes.map Prod.fst).Nodup
  valid : ∀ p w, lastAssigned routes p = some w → w < workers ∧ p ∈ localParts w
  all : ∀ p ∈ allParts localParts workers, (lastAssigned routes p).isSome

/-- Worker 0 sends all assignments in epoch 0. -/
theorem Announced.settled (std : Unstable P Nat) (h : Announced localParts workers assigned) :
    (Runs.run (assignPrimaries std).activate (assignPrimaries std).start assigned).isSome ∧
      (∀ e, 0 < e → Keyed.valuesOf e ((assignPrimaries std).outputs assigned) = []) ∧
      Settled localParts workers (assignments std assigned) := by
  have hd := h.delivered
  obtain ⟨s, o, hr, ho⟩ := assignPrimaries_run std hd.schedule
    fun e hactive => hd.itemsAt_ne_nil_of_active hactive
  have hc : closedHorizon assigned = beyond assigned := by rw [closedHorizon, hd.ended]
  rw [hc] at ho
  -- after epoch 0 the announcements do not change
  have hbefore : ∀ e, 0 < e → itemsBefore assigned e = itemsAt assigned 0 :=
    fun e he => flatMap_range_once h.once he
  have hlater : ∀ e, 0 < e → Keyed.valuesOf e o = [] := by
    intro e he
    rcases Nat.lt_or_ge e (beyond assigned) with hlt | hge
    · rw [ho.sent e hlt, hbefore e he, hbefore (e + 1) (Nat.succ_pos e), changes_self]
    · refine Keyed.valuesOf_eq_nil fun hin => ?_
      obtain ⟨x, hx, rfl⟩ := List.mem_map.mp hin
      exact Nat.not_le_of_lt (ho.before x hx) hge
  have hzero : ∀ x ∈ o, x.1 = 0 := by
    intro x hx
    by_contra hne
    have hin : x.2 ∈ Keyed.valuesOf x.1 o := Keyed.mem_valuesOf.mpr hx
    rw [hlater x.1 (Nat.pos_of_ne_zero hne)] at hin
    cases hin
  have hall : Keyed.valuesOf 0 o = o.map Prod.snd := by
    rw [Keyed.valuesOf, List.filter_eq_self.mpr fun x hx => by simp [hzero x hx]]
  have hmem : ∀ x, x ∈ itemsAt assigned 0 ↔ x ∈ announcements localParts workers := by
    intro x
    rw [h.announced.mem_iff]
    simp only [List.mem_flatMap, List.mem_range, exists_and_right, and_iff_right_iff_imp]
    rintro hx
    exact ⟨x.2, (mem_announcements.mp hx).1⟩
  have htable : ∀ p, lastAssigned (Keyed.valuesOf 0 o) p =
      (primariesOf std (itemsAt assigned 0))[p]? := by
    intro p
    rw [hall, ho.table p, hbefore (beyond assigned) (Nat.succ_pos _)]
  obtain ⟨-, hkeys, hvalid⟩ := primariesOf_spec std (itemsAt assigned 0)
  rw [assignments, outputs_of_run hr, hr]
  refine ⟨rfl, hlater, fun pre route post heq => ?_, ?_, fun p w hp => ?_, fun p hp => ?_⟩
  · rw [hall] at heq
    obtain ⟨pre', rest, rfl, rfl, hrest⟩ := List.map_eq_append_iff.mp heq
    obtain ⟨x, post', rfl, rfl, rfl⟩ := List.map_eq_cons_iff.mp hrest
    exact ho.changed pre' x post' rfl
  · rcases Nat.eq_zero_or_pos (beyond assigned) with hnone | hsome
    · exact absurd hnone (Nat.succ_ne_zero _)
    · rw [ho.sent 0 hsome]
      exact changes_nodup
  · rw [htable] at hp
    exact mem_announcements.mp ((hmem _).mp (hvalid p w hp))
  · obtain ⟨⟨p', w⟩, hin, rfl⟩ := List.mem_map.mp hp
    rw [htable, TreeMap.isSome_getElem?_iff_mem, hkeys]
    exact ⟨w, (hmem _).mpr hin⟩

/-- They are all the assignments there are. -/
theorem updatesBefore_assignments {A : Type} {as : List (EpochActivation A (P × Nat))}
    (h : ∀ e, updatesAt as e = Keyed.valuesOf e ((assignPrimaries std).outputs assigned))
    (hlater : ∀ e, 0 < e → Keyed.valuesOf e ((assignPrimaries std).outputs assigned) = [])
    (he : 0 < e) : updatesBefore as e = assignments std assigned := by
  have honce : ∀ e, 0 < e → updatesAt as e = [] := fun e he => (h e).trans (hlater e he)
  rw [updatesBefore, flatMap_range_once honce he, h 0]
  rfl

end EpochOp
end Bytewax
