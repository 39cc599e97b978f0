import Mathlib.Data.List.Perm.Basic
import Mathlib.Data.List.Dedup
import Mathlib.Data.List.Nodup
import Mathlib.Tactic.TypeStar

/-!
# Bytewax.Lib.Keyed — lists of keyed values

`valuesOf k l` are the values that a list of key and value pairs holds for one key, in order.
-/

namespace Keyed

variable {κ α : Type*} [DecidableEq κ]

/-- The values of one key, in order. -/
def valuesOf (k : κ) (l : List (κ × α)) : List α :=
  (l.filter fun p => p.1 = k).map Prod.snd

@[simp] theorem valuesOf_nil (k : κ) : valuesOf k ([] : List (κ × α)) = [] := rfl

@[simp] theorem valuesOf_append (k : κ) (l l' : List (κ × α)) :
    valuesOf k (l ++ l') = valuesOf k l ++ valuesOf k l' := by
  simp [valuesOf]

theorem valuesOf_cons (k : κ) (p : κ × α) (l : List (κ × α)) :
    valuesOf k (p :: l) = if p.1 = k then p.2 :: valuesOf k l else valuesOf k l := by
  by_cases h : p.1 = k <;> simp [valuesOf, h]

theorem valuesOf_flatMap {β : Type*} (k : κ) (f : β → List (κ × α)) (l : List β) :
    valuesOf k (l.flatMap f) = l.flatMap fun b => valuesOf k (f b) := by
  induction l with
  | nil => rfl
  | cons b l ih => rw [List.flatMap_cons, valuesOf_append, ih, List.flatMap_cons]

theorem mem_valuesOf {k : κ} {a : α} {l : List (κ × α)} : a ∈ valuesOf k l ↔ (k, a) ∈ l := by
  simp [valuesOf]

theorem valuesOf_eq_nil {k : κ} {l : List (κ × α)} (h : k ∉ l.map Prod.fst) :
    valuesOf k l = [] := by
  rw [valuesOf, List.map_eq_nil_iff, List.filter_eq_nil_iff]
  exact fun p hp => by
    simpa using fun he => h (List.mem_map.mpr ⟨p, hp, he⟩)

theorem valuesOf_ne_nil {k : κ} {l : List (κ × α)} : valuesOf k l ≠ [] ↔ k ∈ l.map Prod.fst := by
  constructor
  · intro h
    by_contra hk
    exact h (valuesOf_eq_nil hk)
  · intro h
    obtain ⟨⟨k, a⟩, hp, rfl⟩ := List.mem_map.mp h
    exact List.ne_nil_of_mem (mem_valuesOf.mpr hp)

theorem valuesOf_map_mk (k : κ) (l : List α) : valuesOf k (l.map fun a => (k, a)) = l := by
  rw [valuesOf, List.filter_eq_self.mpr, List.map_map]
  · exact List.map_id l
  · intro p hp
    obtain ⟨a, -, rfl⟩ := List.mem_map.mp hp
    simp

/-- Taking the values key by key only rearranges them. -/
theorem flatten_valuesOf_perm : ∀ (keys : List κ) (l : List (κ × α)), keys.Nodup →
    (∀ p ∈ l, p.1 ∈ keys) → (keys.map (valuesOf · l)).flatten.Perm (l.map Prod.snd)
  | [], l, _, h => by
    obtain rfl : l = [] := List.eq_nil_iff_forall_not_mem.mpr fun p hp => by simpa using h p hp
    simp
  | k :: keys, l, hnd, h => by
    rw [List.nodup_cons] at hnd
    -- the values of the other keys are those of the rest of the list
    have hrest : ∀ k' ∈ keys, valuesOf k' (l.filter fun p => ¬ p.1 = k) = valuesOf k' l := by
      intro k' hk'
      have hne : k' ≠ k := fun he => hnd.1 (he ▸ hk')
      rw [valuesOf, valuesOf, List.filter_filter]
      congr 1
      refine List.filter_congr fun p _ => ?_
      by_cases hp : p.1 = k' <;> simp [hp, hne]
    have ih := flatten_valuesOf_perm keys (l.filter fun p => ¬ p.1 = k) hnd.2 fun p hp => by
      rw [List.mem_filter] at hp
      exact (List.mem_cons.mp (h p hp.1)).resolve_left (by simpa using hp.2)
    rw [List.map_congr_left hrest] at ih
    rw [List.map_cons, List.flatten_cons]
    refine ((List.Perm.refl _).append ih).trans ?_
    rw [valuesOf, ← List.map_append]
    exact (by simpa using List.filter_append_perm (fun p => decide (p.1 = k)) l :
      List.Perm _ l).map Prod.snd

theorem valuesOf_map_self (k : κ) (l : List (κ × α)) :
    valuesOf k (l.map fun p => (p.1, p)) = (valuesOf k l).map fun a => (k, a) := by
  induction l with
  | nil => rfl
  | cons p l ih =>
    rw [List.map_cons, valuesOf_cons, valuesOf_cons, ih]
    by_cases h : p.1 = k
    · subst h
      simp
    · simp [h]

/-- Lists with the same values of each key hold the same. -/
theorem perm_of_valuesOf {l l' : List (κ × α)} (h : ∀ k, (valuesOf k l).Perm (valuesOf k l')) :
    l.Perm l' := by
  have hlists : ∀ r : List (κ × α), (∀ p ∈ r, p.1 ∈ ((l ++ l').map Prod.fst).dedup) →
      (((l ++ l').map Prod.fst).dedup.flatMap fun k => (valuesOf k r).map fun a => (k, a)).Perm r := by
    intro r hr
    have hflat := flatten_valuesOf_perm ((l ++ l').map Prod.fst).dedup (r.map fun p => (p.1, p))
      (List.nodup_dedup _) fun p hp => by
        obtain ⟨q, hq, rfl⟩ := List.mem_map.mp hp
        exact hr q hq
    rw [List.map_map, List.map_congr_left fun k _ => valuesOf_map_self k r] at hflat
    exact hflat.trans (.of_eq (List.map_id r))
  have hkey : ∀ p ∈ l ++ l', p.1 ∈ ((l ++ l').map Prod.fst).dedup :=
    fun p hp => List.mem_dedup.mpr (List.mem_map_of_mem hp)
  refine (hlists l fun p hp => hkey p (List.mem_append_left _ hp)).symm.trans ?_
  refine List.Perm.trans ?_ (hlists l' fun p hp => hkey p (List.mem_append_right _ hp))
  exact List.Perm.flatMap_left _ fun k _ => (h k).map _

/-- With distinct keys, a key is there once or not at all. -/
theorem length_filter_key (k : κ) {l : List (κ × α)} (h : l.Pairwise fun x y => x.1 ≠ y.1) :
    (l.filter fun p => p.1 = k).length = if k ∈ l.map Prod.fst then 1 else 0 := by
  induction l with
  | nil => rfl
  | cons p l ih =>
    obtain ⟨hp, hl⟩ := List.pairwise_cons.mp h
    by_cases hk : p.1 = k
    · have hnot : k ∉ l.map Prod.fst := by
        intro hm
        obtain ⟨q, hq, rfl⟩ := List.mem_map.mp hm
        exact hp q hq hk
      have hzero : (l.filter fun p => p.1 = k).length = 0 := by rw [ih hl, if_neg hnot]
      simp [hk, hzero]
    · have hiff : k ∈ (p :: l).map Prod.fst ↔ k ∈ l.map Prod.fst := by
        simp only [List.map_cons, List.mem_cons, Ne.symm hk, false_or]
      rw [List.filter_cons_of_neg (by simpa using hk), ih hl]
      exact if_congr hiff.symm rfl rfl

/-- Among distinct keys, what concerns one key comes once or not at all. -/
theorem flatMap_ite {β : Type*} (k : κ) (f : κ → List β) {keys : List κ} (h : keys.Nodup) :
    keys.flatMap (fun k' => if k' = k then f k' else []) = if k ∈ keys then f k else [] := by
  induction keys with
  | nil => rfl
  | cons k₀ keys ih =>
    obtain ⟨hk₀, hkeys⟩ := List.nodup_cons.mp h
    rw [List.flatMap_cons, ih hkeys]
    by_cases hk : k₀ = k
    · subst hk
      simp [hk₀]
    · simp [hk, Ne.symm hk]

theorem flatMap_ite_eq {β : Type*} (k : κ) (g : κ → β) {keys : List κ} (h : keys.Nodup) :
    keys.flatMap (fun k' => if k' = k then [g k'] else []) = if k ∈ keys then [g k] else [] :=
  flatMap_ite k (fun k' => [g k']) h

/-- What is listed key by key, of distinct keys. -/
theorem valuesOf_flatMap_mk (k : κ) (f : κ → List α) {keys : List κ} (h : keys.Nodup) :
    valuesOf k (keys.flatMap fun k' => (f k').map (Prod.mk k')) = if k ∈ keys then f k else [] := by
  rw [valuesOf_flatMap, ← flatMap_ite k f h]
  refine List.flatMap_congr fun k' _ => ?_
  by_cases hk : k' = k
  · subst hk
    rw [if_pos rfl]
    exact valuesOf_map_mk k' (f k')
  · rw [if_neg hk]
    refine valuesOf_eq_nil fun hin => ?_
    obtain ⟨x, hx, rfl⟩ := List.mem_map.mp hin
    obtain ⟨a, -, rfl⟩ := List.mem_map.mp hx
    exact hk rfl

end Keyed
