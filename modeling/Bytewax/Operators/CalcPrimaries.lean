import Mathlib.Order.Compare
import Mathlib.Data.Nat.Basic
import Mathlib.Data.List.MinMax
import Mathlib.Data.List.Sort
import Std.Data.TreeMap
import Std.Data.TreeSet

/-!
# Bytewax.Operators.CalcPrimaries — the primary workers of partitions

Each partition is assigned a primary out of the workers that have it, from the partitions that the
fewest workers have to those that the most have, and each time a worker with the fewest partitions
so far.  How the unstable sort orders equal keys and which of the least candidates the unstable
selection picks is not specified, and is a parameter here.
-/

namespace Bytewax

open Std (TreeMap TreeSet)

/-- The unstable sort and selection of the standard library, with what is specified of them. -/
structure Unstable (P W : Type) where
  sortUnstableByKey : (P → Nat) → List P → List P
  selectLeast : (W → Nat) → List W → Option W
  sort_perm : ∀ key l, (sortUnstableByKey key l).Perm l
  sort_sorted : ∀ key l, (sortUnstableByKey key l).Pairwise fun p p' => key p ≤ key p'
  select_mem : ∀ key l w, selectLeast key l = some w → w ∈ l ∧ ∀ w' ∈ l, key w ≤ key w'
  select_isSome : ∀ key l, (selectLeast key l).isSome = !l.isEmpty

namespace CalcPrimaries

variable {P W : Type} [LinearOrder P] [LinearOrder W]

/-- How many partitions have been assigned to a worker. -/
def assigned (primaries : TreeMap P W) (w1 : W) : Nat :=
  ((primaries.toList.map Prod.snd).filter fun w2 => w1 = w2).length

/-- The body of the loop over the partitions: `select_nth_unstable_by_key(0, ..)` panics if there is
no candidate. -/
def assignStep (std : Unstable P W) (known : TreeMap P (TreeSet W)) (primaries : TreeMap P W)
    (part : P) : Option (TreeMap P W) := do
  let workers ← known[part]?
  let candidates := workers.toList
  let primaryWorker ← std.selectLeast (assigned primaries) candidates
  some (primaries.insert part primaryWorker)

/-- The partitions from those that the fewest workers have to those that the most have. -/
def knownByCount (std : Unstable P W) (known : TreeMap P (TreeSet W)) : List P :=
  std.sortUnstableByKey (fun p => (known.getD p ∅).size) known.keys

/-- `calc_primaries` -/
def calcPrimaries (std : Unstable P W) (known : TreeMap P (TreeSet W)) : Option (TreeMap P W) := do
  let primaries ← (knownByCount std known).foldlM (assignStep std known) ∅
  if known.keys = primaries.keys then some primaries else none

/-! ### Balance -/

/-- The loads of the workers of a set differ by at most one. -/
def Balanced {W : Type} (among : W → Prop) (load : W → Nat) : Prop :=
  ∀ w w', among w → among w' → load w ≤ load w' + 1

/-- Adding to a least load keeps the balance, whichever least load it is. -/
theorem Balanced.add {W : Type} [DecidableEq W] {among : W → Prop} {load : W → Nat} {w₀ : W}
    (h : Balanced among load) (hmin : ∀ w, among w → load w₀ ≤ load w) :
    Balanced among fun w => load w + if w = w₀ then 1 else 0 := by
  intro w w' hw hw'
  have hww' := h w w' hw hw'
  have hle := hmin w' hw'
  by_cases he : w = w₀
  · subst he
    simp only [if_true]
    omega
  · simp only [he, if_false]
    omega

section

variable {std : Unstable P W} {known : TreeMap P (TreeSet W)} {primaries primaries' : TreeMap P W}
  {part : P}

@[simp] theorem assigned_empty (w : W) : assigned (∅ : TreeMap P W) w = 0 := by
  simp [assigned]

/-- A new partition adds to the load of its worker. -/
theorem assigned_insert (hpart : part ∉ primaries) (w₀ w : W) :
    assigned (primaries.insert part w₀) w = assigned primaries w + if w = w₀ then 1 else 0 := by
  have hkeep : primaries.toList.filter (fun x => ¬ (part == x.1)) = primaries.toList := by
    rw [List.filter_eq_self]
    rintro ⟨p, w'⟩ hx
    rw [TreeMap.mem_toList_iff_getElem?_eq_some] at hx
    have hne : part ≠ p := by
      rintro rfl
      rw [TreeMap.getElem?_eq_none hpart] at hx
      cases hx
    simp [hne]
  have hperm := TreeMap.toList_insert_perm (t := primaries) (k := part) (v := w₀)
  rw [hkeep] at hperm
  have hlen := ((hperm.map Prod.snd).filter fun w2 => w = w2).length_eq
  unfold assigned
  rw [hlen, List.map_cons, List.filter_cons]
  by_cases he : w = w₀
  · simp [he]
  · simp [he]

/-! ### The loop over the partitions -/

/-- What the loop has done after some partitions, whichever candidates it picked. -/
structure Assigns (known : TreeMap P (TreeSet W)) (done : List P) (primaries : TreeMap P W) :
    Prop where
  keys : ∀ p, p ∈ primaries ↔ p ∈ done
  valid : ∀ (p : P) w, primaries[p]? = some w → ∃ workers, known[p]? = some workers ∧ w ∈ workers
  balanced : ∀ among : W → Prop,
    (∀ (p : P) workers, known[p]? = some workers → ∀ w, w ∈ workers ↔ among w) →
    Balanced among (assigned primaries)

theorem Assigns.empty (known : TreeMap P (TreeSet W)) : Assigns known [] ∅ := by
  refine ⟨by simp, fun p w h => by simp at h, fun among _ w w' _ _ => ?_⟩
  rw [assigned_empty]
  exact Nat.zero_le _

variable (std) in
theorem Assigns.step {done : List P} {workers : TreeSet W} (h : Assigns known done primaries)
    (hpart : known[part]? = some workers) (hne : workers.isEmpty = false) (hnew : part ∉ done) :
    ∃ primaries', assignStep std known primaries part = some primaries' ∧
      Assigns known (done ++ [part]) primaries' := by
  have hsome : (std.selectLeast (assigned primaries) workers.toList).isSome := by
    rw [std.select_isSome, TreeSet.isEmpty_toList, hne]
    rfl
  obtain ⟨w₀, hw₀⟩ := Option.isSome_iff_exists.mp hsome
  obtain ⟨hmem, hmin⟩ := std.select_mem _ _ _ hw₀
  refine ⟨primaries.insert part w₀, ?_, fun p => ?_, fun p w hp => ?_, fun among hamong => ?_⟩
  · rw [assignStep, hpart]
    show Option.bind (std.selectLeast _ _) _ = _
    rw [hw₀]
    rfl
  · rw [TreeMap.mem_insert, Std.LawfulEqCmp.compare_eq_iff_eq, h.keys, List.mem_append,
      List.mem_singleton, or_comm, eq_comm]
  · rw [TreeMap.getElem?_insert] at hp
    split at hp
    · rename_i he
      obtain rfl := Std.LawfulEqCmp.compare_eq_iff_eq.mp he
      cases hp
      exact ⟨workers, hpart, TreeSet.mem_toList.mp hmem⟩
    · exact h.valid p w hp
  · have hload : assigned (primaries.insert part w₀) =
        fun w => assigned primaries w + if w = w₀ then 1 else 0 := by
      ext w
      exact assigned_insert (fun hp => hnew ((h.keys part).mp hp)) w₀ w
    rw [hload]
    refine (h.balanced among hamong).add fun w hw => hmin w ?_
    exact TreeSet.mem_toList.mpr ((hamong part workers hpart w).mpr hw)

variable (std) in
theorem Assigns.foldlM {done rest : List P} (h : Assigns known done primaries)
    (hne : ∀ (p : P) workers, known[p]? = some workers → workers.isEmpty = false)
    (hrest : ∀ p ∈ rest, p ∈ known) (hnodup : (done ++ rest).Nodup) :
    ∃ primaries', rest.foldlM (assignStep std known) primaries = some primaries' ∧
      Assigns known (done ++ rest) primaries' := by
  induction rest generalizing done primaries with
  | nil =>
    rw [List.append_nil]
    exact ⟨primaries, rfl, h⟩
  | cons part rest ih =>
    obtain ⟨workers, hpart⟩ : ∃ workers, known[part]? = some workers :=
      Option.isSome_iff_exists.mp (TreeMap.isSome_getElem?_iff_mem.mpr (hrest part (by simp)))
    have hnew : part ∉ done := fun hmem =>
      (List.nodup_append.mp hnodup).2.2 part hmem part (by simp) rfl
    obtain ⟨primaries₁, hs, h₁⟩ := h.step std hpart (hne part workers hpart) hnew
    have happ : done ++ part :: rest = (done ++ [part]) ++ rest := by simp
    rw [happ] at hnodup ⊢
    obtain ⟨primaries₂, hr, h₂⟩ := ih h₁ (fun p hp => hrest p (by simp [hp])) hnodup
    refine ⟨primaries₂, ?_, h₂⟩
    rw [List.foldlM_cons, hs]
    exact hr

theorem keys_eq_of_mem_iff {α β : Type} {m : TreeMap P α} {n : TreeMap P β}
    (h : ∀ p, p ∈ m ↔ p ∈ n) : m.keys = n.keys := by
  have hperm : m.keys.Perm n.keys := by
    refine (List.perm_ext_iff_of_nodup ?_ ?_).mpr fun p => ?_
    · exact TreeMap.ordered_keys.imp fun hlt he => by simp [he] at hlt
    · exact TreeMap.ordered_keys.imp fun hlt he => by simp [he] at hlt
    · rw [TreeMap.mem_keys, TreeMap.mem_keys, h]
  refine hperm.eq_of_pairwise ?_ TreeMap.ordered_keys TreeMap.ordered_keys
  intro p p' _ _ hlt hgt
  rw [compare_lt_iff_lt] at hlt hgt
  exact absurd hlt hgt.asymm

/-- **Primaries are valid and balanced.**  However ties are broken, every partition that some worker
has is assigned one worker, out of those that have it; and if all partitions are had by the same
workers, the numbers of partitions of two of these differ by at most one. -/
theorem calcPrimaries_balanced (std : Unstable P W) (known : TreeMap P (TreeSet W))
    (hne : ∀ (p : P) workers, known[p]? = some workers → workers.isEmpty = false) :
    ∃ primaries, calcPrimaries std known = some primaries ∧
      (∀ p, p ∈ primaries ↔ p ∈ known) ∧
      (∀ (p : P) w, primaries[p]? = some w → ∃ workers, known[p]? = some workers ∧ w ∈ workers) ∧
      ∀ among : TreeSet W,
        (∀ (p : P) workers, known[p]? = some workers → ∀ w, w ∈ workers ↔ w ∈ among) →
        ∀ w ∈ among, ∀ w' ∈ among, assigned primaries w ≤ assigned primaries w' + 1 := by
  have hperm : (knownByCount std known).Perm known.keys := std.sort_perm _ _
  have hnodup : (knownByCount std known).Nodup :=
    hperm.nodup_iff.mpr (TreeMap.ordered_keys.imp fun hlt he => by simp [he] at hlt)
  have hmem : ∀ p, p ∈ knownByCount std known ↔ p ∈ known := fun p => by
    rw [hperm.mem_iff, TreeMap.mem_keys]
  obtain ⟨primaries, hr, h⟩ := (Assigns.empty known).foldlM std hne
    (fun p hp => (hmem p).mp hp) (by simpa using hnodup)
  rw [List.nil_append] at h
  have hkeys : ∀ p, p ∈ primaries ↔ p ∈ known := fun p => (h.keys p).trans (hmem p)
  refine ⟨primaries, ?_, hkeys, h.valid, fun among hamong w hw w' hw' => ?_⟩
  · rw [calcPrimaries, hr]
    exact if_pos (keys_eq_of_mem_iff fun p => (hkeys p).symm)
  · exact h.balanced (· ∈ among) hamong w w' hw hw'

end

/-- A stable sort, and the selection of the first of the least elements. -/
def stable (P W : Type) : Unstable P W where
  sortUnstableByKey key l := l.insertionSort fun p p' => key p ≤ key p'
  selectLeast key l := l.argmin key
  sort_perm key l := List.perm_insertionSort _ l
  sort_sorted key l := by
    have : Std.Total fun p p' : P => key p ≤ key p' := ⟨fun p p' => Nat.le_total _ _⟩
    have : IsTrans P fun p p' => key p ≤ key p' := ⟨fun p p' p'' => Nat.le_trans⟩
    exact List.pairwise_insertionSort _ l
  select_mem key l w h := ⟨List.argmin_mem h, fun w' hw' => List.le_of_mem_argmin hw' h⟩
  select_isSome key l := by
    cases h : l.argmin key with
    | none =>
      rw [List.argmin_eq_none.mp h]
      rfl
    | some w =>
      have hmem : w ∈ l := List.argmin_mem h
      cases l with
      | nil => cases hmem
      | cons w' l => rfl

/-- Three partitions that two workers have, and one that only one of them has. -/
def fourPartitions : TreeMap Nat (TreeSet Nat) :=
  TreeMap.ofList [(0, TreeSet.ofList [1, 2]), (1, TreeSet.ofList [1, 2]), (2, TreeSet.ofList [1]),
    (3, TreeSet.ofList [1, 2])]

/-- Five partitions that three workers have. -/
def fivePartitions : TreeMap Nat (TreeSet Nat) :=
  TreeMap.ofList ((List.range 5).map fun p => (p, TreeSet.ofList [1, 2, 3]))

theorem forall_of_toList {known : TreeMap Nat (TreeSet Nat)} {Q : TreeSet Nat → Prop}
    (h : ∀ x ∈ known.toList, Q x.2) (p : Nat) (workers : TreeSet Nat)
    (hp : known[p]? = some workers) : Q workers :=
  h (p, workers) (TreeMap.mem_toList_iff_getElem?_eq_some.mpr hp)

theorem fourPartitions_nonempty (p : Nat) (workers : TreeSet Nat)
    (hp : fourPartitions[p]? = some workers) : workers.isEmpty = false :=
  forall_of_toList (Q := fun workers => workers.isEmpty = false) (by decide +kernel) p workers hp

theorem fivePartitions_workers (p : Nat) (workers : TreeSet Nat)
    (hp : fivePartitions[p]? = some workers) : workers.toList = [1, 2, 3] :=
  forall_of_toList (Q := fun workers => workers.toList = [1, 2, 3]) (by decide +kernel) p workers hp

theorem calcPrimaries_balanced_fivePartitions :
    (∃ primaries, calcPrimaries (stable Nat Nat) fourPartitions = some primaries ∧
      (∀ p, p ∈ primaries ↔ p ∈ fourPartitions) ∧
      ∀ (p : Nat) w, primaries[p]? = some w →
        ∃ workers, fourPartitions[p]? = some workers ∧ w ∈ workers) ∧
    ∃ primaries, calcPrimaries (stable Nat Nat) fivePartitions = some primaries ∧
      ∀ w ∈ TreeSet.ofList [1, 2, 3], ∀ w' ∈ TreeSet.ofList [1, 2, 3],
        assigned primaries w ≤ assigned primaries w' + 1 := by
  constructor
  · obtain ⟨primaries, hr, hkeys, hvalid, -⟩ :=
      calcPrimaries_balanced (stable Nat Nat) fourPartitions fourPartitions_nonempty
    exact ⟨primaries, hr, hkeys, hvalid⟩
  · have hlist : (TreeSet.ofList [1, 2, 3]).toList = [1, 2, 3] := by decide +kernel
    have hne : ∀ (p : Nat) workers, fivePartitions[p]? = some workers → workers.isEmpty = false := by
      intro p workers hp
      rw [← TreeSet.isEmpty_toList, fivePartitions_workers p workers hp]
      rfl
    obtain ⟨primaries, hr, -, -, hbalanced⟩ :=
      calcPrimaries_balanced (stable Nat Nat) fivePartitions hne
    refine ⟨primaries, hr, hbalanced (TreeSet.ofList [1, 2, 3]) fun p workers hp w => ?_⟩
    rw [← TreeSet.mem_toList, ← TreeSet.mem_toList, fivePartitions_workers p workers hp, hlist]

example : (calcPrimaries (stable Nat Nat) fivePartitions).map TreeMap.toList =
    some [(0, 1), (1, 2), (2, 3), (3, 1), (4, 2)] := by
  decide +kernel

end CalcPrimaries
end Bytewax
