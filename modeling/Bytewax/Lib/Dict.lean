import Bytewax.Lib.Keyed
import Mathlib.Logic.Function.Basic

/-!
# Bytewax.Lib.Dict — dictionaries that keep the order of insertion

A dictionary lists its entries in the order in which their keys were first set; setting a key that
is there replaces its value in place.
-/

/-- A dictionary with the keys in the order of insertion. -/
structure Dict (κ α : Type*) where
  entries : List (κ × α)
  nodup : (entries.map Prod.fst).Nodup
  deriving DecidableEq

namespace Dict

variable {κ α β : Type*}

theorem ext {d d' : Dict κ α} (h : d.entries = d'.entries) : d = d' := by
  cases d
  cases d'
  congr

/-- The keys, in the order of insertion. -/
def keys (d : Dict κ α) : List κ := d.entries.map Prod.fst

/-- The values, in the order of their keys. -/
def values (d : Dict κ α) : List α := d.entries.map Prod.snd

/-- The dictionary without entries. -/
def empty : Dict κ α := ⟨[], .nil⟩

/-- The same keys with other values. -/
def map (f : α → β) (d : Dict κ α) : Dict κ β :=
  ⟨d.entries.map fun p => (p.1, f p.2), by simpa [Function.comp_def] using d.nodup⟩

@[simp] theorem keys_map (f : α → β) (d : Dict κ α) : (d.map f).keys = d.keys := by
  simp [keys, map, Function.comp_def]

@[simp] theorem values_map (f : α → β) (d : Dict κ α) : (d.map f).values = d.values.map f := by
  simp [values, map, Function.comp_def]

variable [DecidableEq κ]

/-- The value of a key. -/
def get? (d : Dict κ α) (k : κ) : Option α := d.entries.lookup k

/-- The entries with the value of a key that is there replaced. -/
def replace (entries : List (κ × α)) (k : κ) (a : α) : List (κ × α) :=
  entries.map fun p => if p.1 = k then (k, a) else p

theorem keys_replace (entries : List (κ × α)) (k : κ) (a : α) :
    (replace entries k a).map Prod.fst = entries.map Prod.fst := by
  rw [replace, List.map_map]
  refine List.map_congr_left fun p _ => ?_
  show (if p.1 = k then (k, a) else p).1 = p.1
  split
  · rename_i h
    exact h.symm
  · rfl

/-- Set the value of a key. -/
def set (d : Dict κ α) (k : κ) (a : α) : Dict κ α :=
  if h : k ∈ d.keys then
    ⟨replace d.entries k a, by rw [keys_replace]; exact d.nodup⟩
  else
    ⟨d.entries ++ [(k, a)], by
      rw [List.map_append]
      exact d.nodup.append (List.nodup_singleton k) (by simpa [keys] using h)⟩

/-- The dictionary that sets these entries one after the other. -/
def ofList (l : List (κ × α)) : Dict κ α := l.foldl (fun d p => d.set p.1 p.2) empty

variable {d : Dict κ α} {k : κ} {a : α}

theorem entries_set_of_mem (h : k ∈ d.keys) : (d.set k a).entries = replace d.entries k a := by
  rw [set, dif_pos h]

theorem entries_set_of_not_mem (h : k ∉ d.keys) : (d.set k a).entries = d.entries ++ [(k, a)] := by
  rw [set, dif_neg h]

theorem keys_set (d : Dict κ α) (k : κ) (a : α) :
    (d.set k a).keys = if k ∈ d.keys then d.keys else d.keys ++ [k] := by
  by_cases h : k ∈ d.keys
  · rw [if_pos h, keys, entries_set_of_mem h, keys_replace]
    rfl
  · rw [if_neg h, keys, entries_set_of_not_mem h, List.map_append]
    rfl

theorem lookup_eq_none {l : List (κ × α)} (h : k ∉ l.map Prod.fst) : l.lookup k = none := by
  rw [List.lookup_eq_none_iff]
  intro p hp
  simpa using fun he : k = p.1 => h (List.mem_map.mpr ⟨p, hp, he.symm⟩)

theorem lookup_replace (l : List (κ × α)) (k k' : κ) (a : α) : (replace l k a).lookup k' =
    if k = k' then if k ∈ l.map Prod.fst then some a else none else l.lookup k' := by
  induction l with
  | nil => simp [replace]
  | cons p l ih =>
    obtain ⟨k₀, a₀⟩ := p
    have hcons : replace ((k₀, a₀) :: l) k a =
        (if k₀ = k then (k, a) else (k₀, a₀)) :: replace l k a := rfl
    rw [hcons]
    by_cases hk₀ : k₀ = k
    · subst hk₀
      rw [if_pos rfl, List.lookup_cons, ih]
      by_cases hk : k₀ = k'
      · subst hk
        simp
      · simp [hk, List.lookup_cons, beq_eq_false_iff_ne.mpr (Ne.symm hk)]
    · rw [if_neg hk₀, List.lookup_cons, ih, List.lookup_cons]
      by_cases hk : k = k'
      · subst hk
        have hmem : k ∈ ((k₀, a₀) :: l).map Prod.fst ↔ k ∈ l.map Prod.fst := by
          simp [Ne.symm hk₀]
        rw [if_congr hmem rfl rfl, beq_eq_false_iff_ne.mpr (Ne.symm hk₀)]
      · simp [hk]

/-- Setting a key changes its value, and no other. -/
theorem get?_set (d : Dict κ α) (k k' : κ) (a : α) :
    (d.set k a).get? k' = if k = k' then some a else d.get? k' := by
  by_cases h : k ∈ d.keys
  · rw [get?, entries_set_of_mem h, lookup_replace]
    by_cases hk : k = k'
    · rw [if_pos hk, if_pos hk]
      exact if_pos h
    · rw [if_neg hk, if_neg hk]
      rfl
  · rw [get?, entries_set_of_not_mem h, List.lookup_append]
    by_cases hk : k = k'
    · subst hk
      rw [lookup_eq_none h]
      simp
    · rw [if_neg hk, List.lookup_cons, beq_eq_false_iff_ne.mpr (Ne.symm hk)]
      simp [get?]

/-- The entries of a key are its value. -/
theorem valuesOf_entries (d : Dict κ α) (k : κ) :
    Keyed.valuesOf k d.entries = (d.get? k).toList := by
  obtain ⟨l, hl⟩ := d
  show Keyed.valuesOf k l = (l.lookup k).toList
  induction l with
  | nil => rfl
  | cons p l ih =>
    obtain ⟨k₀, a₀⟩ := p
    obtain ⟨hk₀, hl⟩ := List.nodup_cons.mp hl
    rw [Keyed.valuesOf_cons, List.lookup_cons]
    by_cases hk : k₀ = k
    · subst hk
      rw [if_pos rfl, Keyed.valuesOf_eq_nil hk₀]
      simp
    · rw [if_neg hk, beq_eq_false_iff_ne.mpr (Ne.symm hk)]
      exact ih hl

theorem get?_of_mem (h : (k, a) ∈ d.entries) : d.get? k = some a := by
  have hmem : a ∈ (d.get? k).toList := by
    rw [← valuesOf_entries]
    exact Keyed.mem_valuesOf.mpr h
  exact Option.mem_toList.mp hmem

/-- With distinct keys, setting them one after the other just lists them. -/
theorem entries_ofList {l : List (κ × α)} (h : (l.map Prod.fst).Nodup) : (ofList l).entries = l := by
  have hfold : ∀ (l : List (κ × α)) (d : Dict κ α), (d.keys ++ l.map Prod.fst).Nodup →
      (l.foldl (fun d p => d.set p.1 p.2) d).entries = d.entries ++ l := by
    intro l
    induction l with
    | nil => intro d _; simp
    | cons p l ih =>
      intro d hd
      rw [List.map_cons] at hd
      have hp : p.1 ∉ d.keys := fun hm =>
        (List.nodup_append.mp hd).2.2 p.1 hm p.1 (by simp) rfl
      have hkeys : (d.set p.1 p.2).keys = d.keys ++ [p.1] := by rw [keys_set, if_neg hp]
      rw [List.foldl_cons, ih _ (by rw [hkeys]; simpa using hd), entries_set_of_not_mem hp]
      simp
  have hnil : ((empty : Dict κ α).keys ++ l.map Prod.fst).Nodup := h
  rw [ofList, hfold l empty hnil]
  rfl

/-- Setting a key in a dictionary that gives each of its keys a value. -/
theorem entries_set_of_eq_map {keys : List κ} {f : κ → α} (h : d.entries = keys.map fun k => (k, f k))
    (hk : k ∈ keys) : (d.set k a).entries = keys.map fun k' => (k', Function.update f k a k') := by
  have hmem : k ∈ d.keys := by
    rw [Dict.keys, h, List.map_map]
    exact List.mem_map.mpr ⟨k, hk, rfl⟩
  rw [entries_set_of_mem hmem, h, replace, List.map_map]
  refine List.map_congr_left fun k' _ => ?_
  by_cases hk' : k' = k
  · subst hk'
    simp
  · simp [hk']

end Dict
