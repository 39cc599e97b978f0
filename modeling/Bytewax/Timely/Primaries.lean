import Bytewax.Operators.CalcPrimaries
import Bytewax.Timely.Routing

/-!
# Bytewax.Timely.Primaries — the `assign_primaries` operator

When an epoch closes, worker 0 calculates the primaries of all partitions that have been announced
so far, and sends those that have changed.  What it has sent, applied in order, is always what it
has calculated last.
-/

namespace Bytewax

open Std (TreeMap TreeSet)
open CalcPrimaries

/-- The state of the operator: the workers that have announced each partition, and the primaries
that were calculated last. -/
structure Assignments (P W : Type) [Ord P] [Ord W] where
  known : TreeMap P (TreeSet W)
  primaries : TreeMap P W

namespace EpochOp

variable {P W : Type} [LinearOrder P] [LinearOrder W]

/-- A worker has a partition. -/
def addKnown (known : TreeMap P (TreeSet W)) (announcement : P × W) : TreeMap P (TreeSet W) :=
  let (key, worker) := announcement
  known.insert key ((known.getD key ∅).insert worker)

/-- The assignments that differ from those before. -/
def changes (oldPrimaries newPrimaries : TreeMap P W) : List (P × W) :=
  newPrimaries.toList.filter fun (key, worker) => oldPrimaries[key]? ≠ some worker

/-- `assign_primaries`: the items are announcements, and there is no second input. -/
def assignPrimaries (std : Unstable P W) :
    EpochOp (P × W) (List (P × W)) Empty (Assignments P W) (Nat × P × W) where
  init := ⟨∅, ∅⟩
  push := extendBuffer
  use _ s routes := some ({ s with known := routes.foldl addKnown s.known }, [])
  close epoch s _ := do
    let newPrimaries ← calcPrimaries std s.known
    if newPrimaries.isEmpty then none
    else
      return ({ s with primaries := newPrimaries },
        (changes s.primaries newPrimaries).map (Prod.mk epoch))

/-! ### What has been announced -/

/-- The workers that have announced each partition. -/
def addAll (announcements : List (P × W)) : TreeMap P (TreeSet W) :=
  announcements.foldl addKnown ∅

/-- The primaries of what has been announced. -/
def primariesOf (std : Unstable P W) (announcements : List (P × W)) : TreeMap P W :=
  (calcPrimaries std (addAll announcements)).getD ∅

variable {announcements : List (P × W)} {part : P} {worker : W}

/-- A partition is known by exactly the workers that have announced it. -/
theorem addAll_spec (announcements : List (P × W)) (part : P) :
    (∀ workers, (addAll announcements)[part]? = some workers →
      workers.isEmpty = false ∧ ∀ w, w ∈ workers ↔ (part, w) ∈ announcements) ∧
    ∀ w, (part, w) ∈ announcements → part ∈ addAll announcements := by
  induction announcements using List.reverseRecOn with
  | nil => simp [addAll]
  | append_singleton announcements a ih =>
    obtain ⟨p, w₀⟩ := a
    obtain ⟨hworkers, hmem⟩ := ih
    have hlast : addAll (announcements ++ [(p, w₀)]) = (addAll announcements).insert p
        (((addAll announcements).getD p ∅).insert w₀) := by
      simp [addAll, addKnown]
    rw [hlast]
    constructor
    · intro workers hget
      rw [TreeMap.getElem?_insert] at hget
      split at hget
      · next heq =>
        obtain rfl := Std.LawfulEqCmp.compare_eq_iff_eq.mp heq
        cases hget
        refine ⟨by simp, fun w => ?_⟩
        rw [TreeSet.mem_insert, Std.LawfulEqCmp.compare_eq_iff_eq, List.mem_append,
          List.mem_singleton]
        have hold : w ∈ (addAll announcements).getD p ∅ ↔ (p, w) ∈ announcements := by
          rw [TreeMap.getD_eq_getD_getElem?]
          cases hp : (addAll announcements)[p]? with
          | some workers => exact (hworkers workers hp).2 w
          | none =>
            refine ⟨fun hin => by simp at hin, fun hin => ?_⟩
            have hin' := TreeMap.isSome_getElem?_iff_mem.mpr (hmem w hin)
            rw [hp] at hin'
            cases hin'
        rw [hold, Prod.mk.injEq]
        constructor
        · rintro (rfl | hin)
          · exact .inr ⟨rfl, rfl⟩
          · exact .inl hin
        · rintro (hin | ⟨-, rfl⟩)
          · exact .inr hin
          · exact .inl rfl
      · next hne =>
        obtain ⟨hempty, hiff⟩ := hworkers workers hget
        refine ⟨hempty, fun w => ?_⟩
        have hne' : p ≠ part := fun heq => hne (by simp [heq])
        rw [hiff, List.mem_append, List.mem_singleton, Prod.mk.injEq]
        exact (or_iff_left fun h => hne' h.1.symm).symm
    · intro w hin
      rw [TreeMap.mem_insert, Std.LawfulEqCmp.compare_eq_iff_eq]
      rcases List.mem_append.mp hin with hin | hin
      · exact .inr (hmem w hin)
      · exact .inl (Prod.mk.inj (List.mem_singleton.mp hin)).1.symm

theorem mem_addAll : part ∈ addAll announcements ↔ ∃ w, (part, w) ∈ announcements := by
  refine ⟨fun h => ?_, fun ⟨w, hw⟩ => (addAll_spec announcements part).2 w hw⟩
  obtain ⟨workers, hworkers⟩ := Option.isSome_iff_exists.mp (TreeMap.isSome_getElem?_iff_mem.mpr h)
  obtain ⟨hne, hiff⟩ := (addAll_spec announcements part).1 workers hworkers
  obtain ⟨w, hw⟩ := TreeSet.isEmpty_eq_false_iff_exists_mem.mp hne
  exact ⟨w, (hiff w).mp hw⟩

/-- **Primaries**: each announced partition has one, which has announced it. -/
theorem primariesOf_spec (std : Unstable P W) (announcements : List (P × W)) :
    calcPrimaries std (addAll announcements) = some (primariesOf std announcements) ∧
      (∀ p, p ∈ primariesOf std announcements ↔ ∃ w, (p, w) ∈ announcements) ∧
      ∀ (p : P) w, (primariesOf std announcements)[p]? = some w → (p, w) ∈ announcements := by
  have hperm : (knownByCount std (addAll announcements)).Perm (addAll announcements).keys :=
    std.sort_perm _ _
  have hnodup : (knownByCount std (addAll announcements)).Nodup :=
    hperm.nodup_iff.mpr (TreeMap.ordered_keys.imp fun hlt he => by simp [he] at hlt)
  have hmem : ∀ p, p ∈ knownByCount std (addAll announcements) ↔ p ∈ addAll announcements :=
    fun p => by rw [hperm.mem_iff, TreeMap.mem_keys]
  obtain ⟨primaries, hr, h⟩ := (Assigns.empty (addAll announcements)).foldlM std
    (fun p workers hp => ((addAll_spec announcements p).1 workers hp).1)
    (fun p hp => (hmem p).mp hp) (by simpa using hnodup)
  rw [List.nil_append] at h
  have hkeys : ∀ p, p ∈ primaries ↔ p ∈ addAll announcements :=
    fun p => (h.keys p).trans (hmem p)
  have hcalc : calcPrimaries std (addAll announcements) = some primaries := by
    rw [calcPrimaries, hr]
    exact if_pos (keys_eq_of_mem_iff fun p => (hkeys p).symm)
  have heq : primariesOf std announcements = primaries := by
    rw [primariesOf, hcalc]
    rfl
  rw [heq]
  refine ⟨hcalc, fun p => (hkeys p).trans mem_addAll, fun p w hp => ?_⟩
  obtain ⟨workers, hworkers, hw⟩ := h.valid p w hp
  exact (((addAll_spec announcements p).1 workers hworkers).2 w).mp hw

/-! ### Changes -/

variable {oldPrimaries newPrimaries : TreeMap P W} {routes : List (P × W)}

theorem mem_changes {x : P × W} : x ∈ changes oldPrimaries newPrimaries ↔
    newPrimaries[x.1]? = some x.2 ∧ oldPrimaries[x.1]? ≠ some x.2 := by
  obtain ⟨p, w⟩ := x
  rw [changes, List.mem_filter, TreeMap.mem_toList_iff_getElem?_eq_some]
  simp

theorem changes_self (primaries : TreeMap P W) : changes primaries primaries = [] :=
  List.eq_nil_iff_forall_not_mem.mpr fun _ hx => (mem_changes.mp hx).2 (mem_changes.mp hx).1

theorem changes_nodup : ((changes oldPrimaries newPrimaries).map Prod.fst).Nodup := by
  have hkeys : (newPrimaries.toList.map Prod.fst).Nodup :=
    List.pairwise_map.mpr (TreeMap.distinct_keys_toList.imp fun hne he => hne (by simp [he]))
  exact hkeys.sublist (List.filter_sublist.map Prod.fst)

/-- The changes make the new primaries of the old ones. -/
theorem lastAssigned_changes (hold : ∀ p, lastAssigned routes p = oldPrimaries[p]?)
    (hkeys : ∀ p, p ∈ oldPrimaries → p ∈ newPrimaries) (p : P) :
    lastAssigned (routes ++ changes oldPrimaries newPrimaries) p = newPrimaries[p]? := by
  rw [lastAssigned_append, hold]
  cases hnew : newPrimaries[p]? with
  | none =>
    have hnone : oldPrimaries[p]? = none := by
      refine TreeMap.getElem?_eq_none fun hin => ?_
      have hin' := TreeMap.isSome_getElem?_iff_mem.mpr (hkeys p hin)
      rw [hnew] at hin'
      cases hin'
    rw [hnone, lastAssigned_eq_none]
    · rfl
    · intro hin
      obtain ⟨x, hx, rfl⟩ := List.mem_map.mp hin
      have hget := (mem_changes.mp hx).1
      rw [hnew] at hget
      cases hget
  | some w =>
    by_cases hsame : oldPrimaries[p]? = some w
    · rw [hsame, lastAssigned_eq_none]
      · rfl
      · intro hin
        obtain ⟨x, hx, rfl⟩ := List.mem_map.mp hin
        obtain ⟨hget, hne⟩ := mem_changes.mp hx
        rw [hnew] at hget
        exact hne (hget ▸ hsame)
    · rw [lastAssigned_of_mem changes_nodup (mem_changes.mpr ⟨hnew, hsame⟩)]
      rfl

/-! ### Whole epochs -/

variable {as : List (EpochActivation (P × W) Empty)} {e b : Nat} {std : Unstable P W}

/-- The items of all epochs before. -/
def itemsBefore {A U : Type} (as : List (EpochActivation A U)) (e : Nat) : List A :=
  (List.range e).flatMap (itemsAt as)

theorem itemsBefore_succ {A U : Type} {as : List (EpochActivation A U)} :
    itemsBefore as (e + 1) = itemsBefore as e ++ itemsAt as e := by
  rw [itemsBefore, itemsBefore, List.range_succ, List.flatMap_append, List.flatMap_singleton]

/-- However the announcements of an epoch are batched, they are all noted. -/
theorem assignPrimaries_uses {d₀ d : Assignments P W} {xs : List (P × W)} {o : List (Nat × P × W)}
    (h : (assignPrimaries std).Uses IsList e d₀ xs d o) :
    d = { d₀ with known := xs.foldl addKnown d₀.known } ∧ o = [] := by
  induction h with
  | nil => exact ⟨rfl, rfl⟩
  | use _ hbuf huse ih =>
    obtain ⟨rfl, rfl⟩ := ih
    cases huse
    rw [hbuf]
    exact ⟨by rw [List.foldl_append], rfl⟩

/-- What has been sent, applied in order, is what has been calculated last. -/
structure Assigned (std : Unstable P W) (as : List (EpochActivation (P × W) Empty)) (b : Nat)
    (o : List (Nat × P × W)) : Prop where
  before : ∀ x ∈ o, x.1 < b
  ordered : (o.map Prod.fst).Pairwise (· ≤ ·)
  sent : ∀ e < b, Keyed.valuesOf e o =
    changes (primariesOf std (itemsBefore as e)) (primariesOf std (itemsBefore as (e + 1)))
  table : ∀ p, lastAssigned (o.map Prod.snd) p = (primariesOf std (itemsBefore as b))[p]?
  changed : ∀ pre x post, o = pre ++ x :: post → lastAssigned (pre.map Prod.snd) x.2.1 ≠ some x.2.2

theorem primariesOf_nil (std : Unstable P W) : primariesOf std [] = ∅ := by
  have hkeys : knownByCount std (addAll [] : TreeMap P (TreeSet W)) = [] :=
    List.Perm.eq_nil (std.sort_perm _ _)
  rw [primariesOf, calcPrimaries, hkeys]
  rfl

theorem mem_primariesOf_mono (std : Unstable P W) {announcements announcements' : List (P × W)}
    (hsub : announcements ⊆ announcements') {p : P} (h : p ∈ primariesOf std announcements) :
    p ∈ primariesOf std announcements' := by
  obtain ⟨w, hw⟩ := ((primariesOf_spec std announcements).2.1 p).mp h
  exact ((primariesOf_spec std announcements').2.1 p).mpr ⟨w, hsub hw⟩

theorem Assigned.zero (std : Unstable P W) (as : List (EpochActivation (P × W) Empty)) :
    Assigned std as 0 [] where
  before x hx := by cases hx
  ordered := .nil
  sent e he := absurd he (Nat.not_lt_zero e)
  table p := by
    have hnil : itemsBefore as 0 = [] := rfl
    rw [hnil, primariesOf_nil]
    rfl
  changed pre x post h := by simp at h

/-- The close of one more epoch. -/
theorem Assigned.succ {o : List (Nat × P × W)} (h : Assigned std as b o) :
    Assigned std as (b + 1) (o ++ (changes (primariesOf std (itemsBefore as b))
      (primariesOf std (itemsBefore as (b + 1)))).map (Prod.mk b)) := by
  have hemits : SendsBefore (fun e => some (changes (primariesOf std (itemsBefore as e))
      (primariesOf std (itemsBefore as (e + 1))))) b o :=
    ⟨fun e he => congrArg some (h.sent e he).symm, h.before, h.ordered⟩
  have hnext := hemits.succ rfl
  refine ⟨hnext.before, hnext.ordered, fun e he => (Option.some.inj (hnext.sent e he)).symm,
    fun p => ?_, fun pre x post heq => ?_⟩
  · rw [List.map_append, List.map_map]
    have hid : (changes (primariesOf std (itemsBefore as b)) (primariesOf std
        (itemsBefore as (b + 1)))).map (Prod.snd ∘ Prod.mk b) = changes (primariesOf std
          (itemsBefore as b)) (primariesOf std (itemsBefore as (b + 1))) := List.map_id _
    rw [hid]
    refine lastAssigned_changes h.table (fun p hp => mem_primariesOf_mono std ?_ hp) p
    rw [itemsBefore_succ]
    exact List.subset_append_left _ _
  · rcases Runs.split_append heq with ⟨pre', rfl, hsplit⟩ | ⟨post', -, hold⟩
    · obtain ⟨ys, y, zs, hys, rfl, rfl, -⟩ : ∃ ys y zs, changes (primariesOf std
          (itemsBefore as b)) (primariesOf std (itemsBefore as (b + 1))) = ys ++ y :: zs ∧
          pre' = ys.map (Prod.mk b) ∧ x = (b, y) ∧ post = zs.map (Prod.mk b) := by
        obtain ⟨ys, rest, hys, rfl, hrest⟩ := List.map_eq_append_iff.mp hsplit
        obtain ⟨y, zs, rfl, rfl, rfl⟩ := List.map_eq_cons_iff.mp hrest
        exact ⟨ys, y, zs, hys, rfl, rfl, rfl⟩
      have hmem : y ∈ changes (primariesOf std (itemsBefore as b)) (primariesOf std
          (itemsBefore as (b + 1))) := hys ▸ List.mem_append_right _ List.mem_cons_self
      have hnew : y.1 ∉ ys.map Prod.fst := by
        have hnodup : ((ys ++ y :: zs).map Prod.fst).Nodup := hys ▸ changes_nodup
        rw [List.map_append, List.map_cons] at hnodup
        exact fun hin => (List.nodup_append.mp hnodup).2.2 y.1 hin y.1 List.mem_cons_self rfl
      have hid : (ys.map (Prod.mk b)).map Prod.snd = ys := by
        rw [List.map_map]
        exact List.map_id _
      show lastAssigned ((o ++ ys.map (Prod.mk b)).map Prod.snd) y.1 ≠ some y.2
      rw [List.map_append, hid, lastAssigned_append, lastAssigned_eq_none hnew, h.table]
      exact (mem_changes.mp hmem).2
    · exact h.changed pre x post' hold

/-- **Whole epochs.** -/
theorem assignPrimaries_trace {d : Assignments P W} {o : List (Nat × P × W)}
    (h : (assignPrimaries std).Trace IsList as b d o) :
    d = ⟨addAll (itemsBefore as b), primariesOf std (itemsBefore as b)⟩ ∧ Assigned std as b o := by
  induction h with
  | start =>
    refine ⟨?_, .zero std as⟩
    show (⟨∅, ∅⟩ : Assignments P W) = ⟨addAll [], primariesOf std []⟩
    rw [primariesOf_nil]
    rfl
  | @idle e d o _ hidle ih =>
    obtain ⟨rfl, hassigned⟩ := ih
    have hsame : itemsBefore as (e + 1) = itemsBefore as e := by
      rw [itemsBefore_succ, itemsAt_of_not_active hidle, List.append_nil]
    have hnext := hassigned.succ
    rw [hsame, changes_self, List.map_nil, List.append_nil] at hnext
    exact ⟨by rw [hsame], hnext⟩
  | @epoch e d d₁ d₂ o o₁ o₂ _ _ huses hclose ih =>
    obtain ⟨rfl, hassigned⟩ := ih
    obtain ⟨rfl, rfl⟩ := assignPrimaries_uses huses
    have hknown : (itemsAt as e).foldl addKnown (addAll (itemsBefore as e)) =
        addAll (itemsBefore as (e + 1)) := by
      rw [itemsBefore_succ, addAll, addAll, List.foldl_append]
    obtain ⟨newPrimaries, hcalc, hclose⟩ := Option.bind_eq_some_iff.mp hclose
    obtain ⟨-, hclose⟩ := Option.ite_none_left_eq_some.mp hclose
    simp only [hknown] at hcalc hclose
    rw [(primariesOf_spec std _).1] at hcalc
    cases hcalc
    cases hclose
    rw [List.append_nil]
    exact ⟨rfl, hassigned.succ⟩

/-- **Primaries follow the announcements**, however these and the frontiers arrive: after each
closed epoch, the assignments sent so far, applied in order, are the primaries of all partitions
announced so far, and each of them was a change. -/
theorem assignPrimaries_run (std : Unstable P W) (has : EpochSchedule as)
    (hitems : ∀ e, Active as e → itemsAt as e ≠ []) :
    ∃ s o, Runs.run (assignPrimaries std).activate (assignPrimaries std).start as = some (s, o) ∧
      Assigned std as (closedHorizon as) o := by
  have hbuf : (assignPrimaries std).Buffers IsList := buffers_of_push rfl
  have htotal : (assignPrimaries std).Total IsList as := by
    refine ⟨fun {e d₀ o₀ xs d o ys buf} _ _ _ _ _ => rfl, fun {e d₀ o₀ d o} htrace hactive huses => ?_⟩
    obtain ⟨rfl, -⟩ := assignPrimaries_trace htrace
    obtain ⟨rfl, -⟩ := assignPrimaries_uses huses
    have hknown : (itemsAt as e).foldl addKnown (addAll (itemsBefore as e)) =
        addAll (itemsBefore as (e + 1)) := by
      rw [itemsBefore_succ, addAll, addAll, List.foldl_append]
    obtain ⟨hcalc, hmem, -⟩ := primariesOf_spec std (itemsBefore as (e + 1))
    have hne : (primariesOf std (itemsBefore as (e + 1))).isEmpty = false := by
      obtain ⟨x, hx⟩ := List.exists_mem_of_ne_nil _ (hitems e hactive)
      refine TreeMap.isEmpty_eq_false_iff_exists_mem.mpr ⟨x.1, (hmem x.1).mpr ⟨x.2, ?_⟩⟩
      rw [itemsBefore_succ]
      exact List.mem_append_right _ hx
    show (Option.bind (calcPrimaries std ((itemsAt as e).foldl addKnown
      (addAll (itemsBefore as e)))) _).isSome
    rw [hknown, hcalc, Option.bind_some, hne]
    rfl
  obtain ⟨s, o, hr, hends⟩ := run_ends hbuf htotal has
  refine ⟨s, o, hr, ?_⟩
  rcases hends with ⟨f, d₀, o₀, d, o₁, hf, htrace, huses, rfl⟩ | ⟨hf, hall⟩
  · obtain ⟨-, rfl⟩ := assignPrimaries_uses huses
    have hh : closedHorizon as = f := by rw [closedHorizon, hf]
    rw [hh, List.append_nil]
    exact (assignPrimaries_trace htrace).2
  · obtain ⟨d, htrace⟩ := hall (beyond as) fun e he => not_active_beyond he
    have hh : closedHorizon as = beyond as := by rw [closedHorizon, hf]
    rw [hh]
    exact (assignPrimaries_trace htrace).2

end EpochOp
end Bytewax
