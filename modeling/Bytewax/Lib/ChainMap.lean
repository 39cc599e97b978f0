import Bytewax.Lib.Dict
import Bytewax.Lib.MapM
import Mathlib.Data.List.Induction

/-!
# Bytewax.Lib.ChainMap — dictionaries that are searched one after the other

A chain of dictionaries is read from its first one on and written to its first one only.
-/

namespace Dict

variable {κ α : Type*} [DecidableEq κ] {d : Dict κ α} {l : List (κ × α)} {k : κ} {a : α}

/-- Set one entry after the other. -/
def update (d : Dict κ α) (l : List (κ × α)) : Dict κ α := l.foldl (fun d p => d.set p.1 p.2) d

theorem update_concat (d : Dict κ α) (l : List (κ × α)) (p : κ × α) :
    d.update (l ++ [p]) = (d.update l).set p.1 p.2 := by
  rw [update, List.foldl_append]
  rfl

/-- A value is one that was set or one from before. -/
theorem mem_of_get?_update (h : (d.update l).get? k = some a) : (k, a) ∈ l ∨ d.get? k = some a := by
  induction l using List.reverseRecOn with
  | nil => exact .inr h
  | append_singleton l p ih =>
    rw [update_concat, get?_set] at h
    split at h
    · next hk =>
      have hp : (k, a) = p := Prod.ext hk.symm (Option.some.inj h).symm
      exact .inl (List.mem_append_right _ (List.mem_singleton.mpr hp))
    · exact (ih h).imp_left (List.mem_append_left _)

theorem get?_update_isSome (h : k ∈ l.map Prod.fst ∨ (d.get? k).isSome) :
    ((d.update l).get? k).isSome := by
  induction l using List.reverseRecOn with
  | nil => exact h.resolve_left List.not_mem_nil
  | append_singleton l p ih =>
    rw [update_concat, get?_set]
    split
    · rfl
    · next hk =>
      refine ih (h.imp_left fun hmem => ?_)
      rw [List.map_append] at hmem
      refine (List.mem_append.mp hmem).resolve_right fun hp => hk ?_
      rw [List.map_singleton] at hp
      exact (List.mem_singleton.mp hp).symm

@[simp] theorem get?_empty (k : κ) : (empty : Dict κ α).get? k = none := rfl

end Dict

/-- `collections.ChainMap`. -/
structure ChainMap (κ α : Type*) where
  map : Dict κ α
  parents : List (Dict κ α)

namespace ChainMap

variable {κ α : Type*} [DecidableEq κ] {m : ChainMap κ α} {k : κ} {a : α}

/-- Without entries. -/
def empty : ChainMap κ α := ⟨.empty, []⟩

def get? (m : ChainMap κ α) (k : κ) : Option α := (m.map :: m.parents).findSome? fun d => d.get? k

def update (m : ChainMap κ α) (l : List (κ × α)) : ChainMap κ α := { m with map := m.map.update l }

/-- `new_child`. -/
def newChild (m : ChainMap κ α) (l : List (κ × α)) : ChainMap κ α :=
  ⟨Dict.empty.update l, m.map :: m.parents⟩

theorem get?_of_map (h : m.map.get? k = some a) : m.get? k = some a := by
  rw [get?, List.findSome?_cons, h]

/-- The values of keys that are all there. -/
theorem mapM_get? {ks : List κ} (h : ∀ k ∈ ks, (m.map.get? k).isSome) :
    ∃ as, ks.mapM m.get? = some as ∧ ∀ k ∈ ks, (ks.zip as).lookup k = m.map.get? k := by
  induction ks with
  | nil => exact ⟨[], rfl, fun k hk => by cases hk⟩
  | cons k ks ih =>
    obtain ⟨a, ha⟩ := Option.isSome_iff_exists.mp (h k List.mem_cons_self)
    obtain ⟨as, has, hlookup⟩ := ih fun k' hk' => h k' (List.mem_cons_of_mem _ hk')
    refine ⟨a :: as, ?_, fun k' hk' => ?_⟩
    · rw [List.mapM_cons, get?_of_map ha, has]
      rfl
    · rw [List.zip_cons_cons, List.lookup_cons]
      by_cases hkk : k' = k
      · rw [hkk, beq_self_eq_true, ha]
      · rw [beq_false_of_ne hkk]
        exact hlookup k' ((List.mem_cons.mp hk').resolve_left hkk)

end ChainMap
