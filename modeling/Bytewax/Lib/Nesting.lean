import Mathlib.Data.List.Flatten
import Mathlib.Data.List.Nodup

/-!
# Bytewax.Lib.Nesting — lists in lists that are filled in any order

Elements are appended one after the other, each to one of many lists, and an element can own a list
that others are appended to, before or after it is appended itself.  `preorder` reads a list with
the lists in it.  `Ready T x s` says that `x` is appended so early that, in this reading, it stands
before whatever is appended to the list `s` from now on; `before_of_ready` is what this says once
everything is in place.
-/

/-- Elements of `α` that own lists, named by `κ`, where a list can be in another. -/
structure Nesting (α κ : Type*) where
  own : α → κ
  outer : κ → Option κ
  depth : κ → ℕ
  depth_outer : ∀ {s o : κ}, outer s = some o → depth s = depth o + 1

namespace Nesting

variable {α κ : Type*} (N : Nesting α κ)

/-! ### Lists around a list -/

/-- `s` is `t` or a list around it. -/
inductive Around : κ → κ → Prop
  | refl (s : κ) : Around s s
  | inner {s o t : κ} (houter : N.outer t = some o) (h : Around s o) : Around s t

variable {N} {s t u o r : κ}

theorem Around.trans (hst : N.Around s t) (htu : N.Around t u) : N.Around s u := by
  induction htu with
  | refl => exact hst
  | inner houter _ ih => exact .inner houter ih

theorem Around.depth_le (h : N.Around s t) : N.depth s ≤ N.depth t := by
  induction h with
  | refl => exact Nat.le_refl _
  | inner houter _ ih =>
    rw [N.depth_outer houter]
    omega

/-- A list of the same depth around a list is the same. -/
theorem Around.eq_of_depth (hs : N.Around s u) (ht : N.Around t u) (hd : N.depth s = N.depth t) :
    s = t := by
  induction hs with
  | refl =>
    cases ht with
    | refl => rfl
    | inner houter ht =>
      have hle := ht.depth_le
      rw [N.depth_outer houter] at hd
      omega
  | inner houter hs ih =>
    cases ht with
    | refl =>
      have hle := hs.depth_le
      rw [N.depth_outer houter] at hd
      omega
    | inner houter' ht =>
      cases houter.symm.trans houter'
      exact ih ht

theorem Around.exists_outer (h : N.Around s t) (ho : N.outer s = some o) :
    ∃ o', N.outer t = some o' := by
  cases h with
  | refl => exact ⟨o, ho⟩
  | inner houter _ => exact ⟨_, houter⟩

/-- An outermost list around a list is around every list around it. -/
theorem Around.of_outermost (hr : N.outer r = none) (h : N.Around r u) (ho : N.Around o u) :
    N.Around r o := by
  induction ho with
  | refl => exact h
  | inner houter _ ih =>
    cases h with
    | refl =>
      rw [hr] at houter
      cases houter
    | inner houter' h =>
      cases houter.symm.trans houter'
      exact ih h

/-! ### When everything is in place -/

variable (N) (T : List α)

/-- Everything is in place: no two elements own one list, and each element is in an outermost list
or one that is owned. -/
structure Complete : Prop where
  nodup : (T.map N.own).Nodup
  owned : ∀ {e : α} {s o : κ}, e ∈ T → N.outer (N.own e) = some s → N.outer s = some o →
    ∃ e' ∈ T, N.own e' = s

variable {N T} {e x : α}

theorem Complete.own_inj (hT : N.Complete T) (he : e ∈ T) (hx : x ∈ T) (h : N.own e = N.own x) :
    e = x := List.inj_on_of_nodup_map hT.nodup he hx h

/-- The lists around an owned list are owned, up to the outermost one. -/
theorem Complete.exists_own (hT : N.Complete T) (he : e ∈ T) (h : N.Around t (N.own e))
    (ho : N.outer t = some o) : ∃ e' ∈ T, N.own e' = t := by
  generalize hs : N.own e = s at h
  induction h generalizing e with
  | refl => exact ⟨e, he, hs⟩
  | inner houter h ih =>
    have hinner : ∃ o', N.outer _ = some o' := h.exists_outer ho
    obtain ⟨o', ho'⟩ := hinner
    obtain ⟨e', he', hown⟩ := hT.owned he (hs ▸ houter) ho'
    exact ih he' hown

/-! ### What is ready in a list -/

variable (N)

/-- `x` is read before whatever is appended to `s` when `T` has been appended: it is in `s`, or in a
list of an element of `s`, or it was ready in the list around `s` at a time when the owner of `s`
was not yet there. -/
inductive Ready : List α → α → κ → Prop
  | inside {T : List α} {x : α} {s : κ} (hx : x ∈ T) (houter : N.outer (N.own x) = some s) :
    Ready T x s
  | stored {T : List α} {x e : α} {s : κ} (h : Ready T x (N.own e)) (he : e ∈ T)
    (houter : N.outer (N.own e) = some s) : Ready T x s
  | within {pre T : List α} {x : α} {s o : κ} (h : Ready pre x o) (hpre : pre <+: T)
    (houter : N.outer s = some o) (hnew : ∀ e ∈ pre, N.own e ≠ s) : Ready T x s

variable {N} {T' : List α}

theorem Ready.mono (h : N.Ready T x s) (hT : T <+: T') : N.Ready T' x s := by
  induction h with
  | inside hx houter => exact .inside (hT.subset hx) houter
  | stored _ he houter ih => exact .stored (ih hT) (hT.subset he) houter
  | within h hpre houter hnew => exact .within h (hpre.trans hT) houter hnew

theorem Ready.mem (h : N.Ready T x s) : x ∈ T := by
  induction h with
  | inside hx => exact hx
  | stored _ _ _ ih => exact ih
  | within _ hpre _ _ ih => exact hpre.subset ih

/-- What is ready in a list is in it or in a list of one of its elements, or stands before one of
the lists around it. -/
theorem Ready.cases_around (h : N.Ready T x s) :
    (∃ e ∈ T, N.outer (N.own e) = some s ∧ N.Around (N.own e) (N.own x)) ∨
      ∃ pre t o, pre <+: T ∧ N.Around t s ∧ N.outer t = some o ∧ (∀ e ∈ pre, N.own e ≠ t) ∧
        ∃ e ∈ pre, N.outer (N.own e) = some o ∧ N.Around (N.own e) (N.own x) := by
  induction h with
  | inside hx houter => exact .inl ⟨_, hx, houter, .refl _⟩
  | stored _ he houter ih =>
    rcases ih with ⟨e', -, houter', haround⟩ |
      ⟨pre, t, o, hpre, ht, ho, hnew, e', he', ho', haround⟩
    · exact .inl ⟨_, he, houter, .trans (.inner houter' (.refl _)) haround⟩
    · cases ht with
      | refl =>
        cases houter.symm.trans ho
        exact .inl ⟨e', hpre.subset he', ho', haround⟩
      | inner houter' ht =>
        cases houter.symm.trans houter'
        exact .inr ⟨pre, t, o, hpre, ht, ho, hnew, e', he', ho', haround⟩
  | within _ hpre houter hnew ih =>
    rcases ih with hin | ⟨pre', t, o, hpre', ht, ho, hnew', hrest⟩
    · exact .inr ⟨_, _, _, hpre, .refl _, houter, hnew, hin⟩
    · exact .inr ⟨pre', t, o, hpre'.trans hpre, .inner houter ht, ho, hnew', hrest⟩

/-! ### Reading a list with the lists in it -/

variable (N T)

/-- How deep the deepest list of an element is. -/
def maxDepth : ℕ := (T.map fun e => N.depth (N.own e)).foldr max 0

variable {N T}

theorem depth_le_maxDepth (he : e ∈ T) : N.depth (N.own e) ≤ N.maxDepth T := by
  unfold maxDepth
  induction T with
  | nil => cases he
  | cons x T ih =>
    rw [List.map_cons, List.foldr_cons]
    rcases List.mem_cons.mp he with rfl | he
    · exact Nat.le_max_left _ _
    · exact Nat.le_trans (ih he) (Nat.le_max_right _ _)

variable [DecidableEq κ] (N T)

/-- The elements of a list. -/
def entries (s : κ) : List α := T.filter fun e => N.outer (N.own e) = some s

variable {N T}

theorem mem_entries : e ∈ N.entries T s ↔ e ∈ T ∧ N.outer (N.own e) = some s := by
  simp [entries]

variable (N T)

/-- The elements of a list, each with the list it owns. -/
def preorder (s : κ) : List α :=
  (N.entries T s).attach.flatMap fun e => e.1 :: preorder (N.own e.1)
termination_by N.maxDepth T - N.depth s
decreasing_by
  obtain ⟨hmem, houter⟩ := mem_entries.mp e.2
  have hle := N.depth_le_maxDepth hmem
  have hd := N.depth_outer houter
  omega

theorem preorder_eq (s : κ) :
    N.preorder T s = (N.entries T s).flatMap fun e => e :: N.preorder T (N.own e) := by
  rw [preorder, List.flatMap_subtype (g := fun e => e :: N.preorder T (N.own e)) fun _ _ => rfl,
    List.unattach_attach]

/-- Induction from the lists in a list to the list. -/
theorem nested_induct {P : κ → Prop} (h : ∀ s, (∀ e ∈ N.entries T s, P (N.own e)) → P s) (s : κ) :
    P s := by
  induction s using preorder.induct N T with
  | case1 s ih => exact h s fun e he => ih ⟨e, he⟩

variable {N T}

theorem mem_preorder : x ∈ N.preorder T s ↔
    ∃ e ∈ N.entries T s, x = e ∨ x ∈ N.preorder T (N.own e) := by
  rw [preorder_eq, List.mem_flatMap]
  simp only [List.mem_cons]

/-- Whatever is read is in a list in the list that is read. -/
theorem around_of_mem_preorder (h : x ∈ N.preorder T s) :
    x ∈ T ∧ ∃ o, N.outer (N.own x) = some o ∧ N.Around s o := by
  induction s using nested_induct N T with
  | h s ih =>
    obtain ⟨e, he, rfl | hx⟩ := mem_preorder.mp h
    · exact ⟨(mem_entries.mp he).1, s, (mem_entries.mp he).2, .refl s⟩
    · obtain ⟨hmem, o, ho, haround⟩ := ih e he hx
      exact ⟨hmem, o, ho, .trans (.inner (mem_entries.mp he).2 (.refl s)) haround⟩

theorem around_own (h : x ∈ e :: N.preorder T (N.own e)) : N.Around (N.own e) (N.own x) := by
  rcases List.mem_cons.mp h with rfl | hx
  · exact .refl _
  · obtain ⟨-, o, ho, haround⟩ := around_of_mem_preorder hx
    exact .inner ho haround

/-- Nothing is read twice. -/
theorem preorder_nodup (hT : (T.map N.own).Nodup) (s : κ) : (N.preorder T s).Nodup := by
  induction s using nested_induct N T with
  | h s ih =>
    rw [preorder_eq, List.nodup_flatMap]
    constructor
    · intro e he
      refine List.nodup_cons.mpr ⟨fun hself => ?_, ih e he⟩
      obtain ⟨-, o, ho, haround⟩ := around_of_mem_preorder hself
      have hle := haround.depth_le
      have hd := N.depth_outer ho
      omega
    · have hne : (N.entries T s).Pairwise fun a b => N.own a ≠ N.own b :=
        (List.pairwise_map.mp hT).sublist List.filter_sublist
      refine hne.imp_of_mem fun {a b} ha hb hab x hxa hxb => hab ?_
      have hda := N.depth_outer (mem_entries.mp ha).2
      have hdb := N.depth_outer (mem_entries.mp hb).2
      exact (around_own hxa).eq_of_depth (around_own hxb) (hda.trans hdb.symm)

/-- An element is read with the list it owns. -/
theorem sublist_preorder (h : x ∈ N.preorder T s) :
    (x :: N.preorder T (N.own x)).Sublist (N.preorder T s) := by
  induction s using nested_induct N T with
  | h s ih =>
    obtain ⟨e, he, hx⟩ := mem_preorder.mp h
    have hblock : (e :: N.preorder T (N.own e)).Sublist (N.preorder T s) := by
      rw [preorder_eq N T s, List.flatMap_def]
      exact List.sublist_flatten_of_mem (List.mem_map_of_mem he)
    rcases hx with rfl | hx
    · exact hblock
    · exact ((ih e he hx).cons e).trans hblock

/-- Whatever is in a list in a list is read. -/
theorem Complete.mem_preorder (hT : N.Complete T) (hx : x ∈ T) (ho : N.outer (N.own x) = some o)
    (h : N.Around s o) : x ∈ N.preorder T s := by
  induction h generalizing x with
  | refl => exact Nesting.mem_preorder.mpr ⟨x, mem_entries.mpr ⟨hx, ho⟩, .inl rfl⟩
  | inner houter _ ih =>
    obtain ⟨e, he, rfl⟩ := hT.owned hx ho houter
    have hsub := sublist_preorder (ih he houter)
    refine hsub.subset (List.mem_cons_of_mem _ ?_)
    exact Nesting.mem_preorder.mpr ⟨x, mem_entries.mpr ⟨hx, ho⟩, .inl rfl⟩

theorem Complete.mem_own (hT : N.Complete T) (he : e ∈ T) (hx : x ∈ T)
    (h : N.Around (N.own e) (N.own x)) : x ∈ e :: N.preorder T (N.own e) := by
  generalize hs : N.own x = s at h
  cases h with
  | refl => exact List.mem_cons.mpr (.inl (hT.own_inj hx he hs))
  | inner houter h => exact List.mem_cons_of_mem _ (hT.mem_preorder hx (hs ▸ houter) h)

/-- A list in a list is read with it. -/
theorem Complete.preorder_sublist (hT : N.Complete T) (hx : x ∈ T)
    (ho : N.outer (N.own x) = some o) (h : N.Around s o) :
    (N.preorder T o).Sublist (N.preorder T s) := by
  cases h with
  | refl => exact List.Sublist.refl _
  | inner houter h =>
    obtain ⟨e, he, rfl⟩ := hT.owned hx ho houter
    exact (List.sublist_cons_self _ _).trans (sublist_preorder (hT.mem_preorder he houter h))

/-- **What is ready is read before.** -/
theorem before_of_ready {c : α} (hT : N.Complete T) (hc : c ∈ T)
    (hleaf : N.entries T (N.own c) = []) (hr : N.outer r = none) (hrc : N.Around r (N.own c))
    (h : N.Ready T x (N.own c)) :
    [x, c].Sublist (N.preorder T r) := by
  rcases h.cases_around with ⟨e, he, houter, -⟩ |
    ⟨pre, t, o, hpre, ht, ho, hnew, e, he, ho', haround⟩
  · have hmem := mem_entries.mpr ⟨he, houter⟩
    rw [hleaf] at hmem
    cases hmem
  -- The owner of `t` was appended after `e`, both to `o`.
  · obtain ⟨c', hc', rfl⟩ := hT.exists_own hc ht ho
    obtain ⟨rest, rfl⟩ := hpre
    have hlater : c' ∈ rest := by
      rcases List.mem_append.mp hc' with hold | hlater
      · exact absurd rfl (hnew c' hold)
      · exact hlater
    have hmem := List.mem_append_left rest he
    have hpair : [e, c'].Sublist (N.entries (pre ++ rest) o) := by
      have hsub := ((List.singleton_sublist.mpr he).append
        (List.singleton_sublist.mpr hlater)).filter fun e => decide (N.outer (N.own e) = some o)
      simpa [entries, ho, ho'] using hsub
    have hx := hT.mem_own hmem h.mem haround
    have hc := hT.mem_own hc' hc ht
    have hblocks := hpair.flatMap fun e => e :: N.preorder (pre ++ rest) (N.own e)
    rw [← preorder_eq] at hblocks
    have hro := hrc.of_outermost hr (.trans (.inner ho (.refl o)) ht)
    refine List.Sublist.trans ?_ (hT.preorder_sublist hmem ho' hro)
    refine List.Sublist.trans ?_ hblocks
    simpa using (List.singleton_sublist.mpr hx).append (List.singleton_sublist.mpr hc)

/-- What stands before an element of a list is in the part of the list before it. -/
theorem mem_of_pair_sublist {c : α} {pre post : List α} (hnodup : (pre ++ c :: post).Nodup)
    (h : [x, c].Sublist (pre ++ c :: post)) : x ∈ pre := by
  have hpost : c ∉ post := (List.nodup_cons.mp (List.nodup_append.mp hnodup).2.1).1
  obtain ⟨l₁, l₂, heq, hpre, hrest⟩ := List.sublist_append_iff.mp h
  cases l₁ with
  | nil =>
    rw [List.nil_append] at heq
    subst heq
    rcases List.sublist_cons_iff.mp hrest with htail | ⟨r, hr, htail⟩
    · exact absurd (htail.subset (by simp)) hpost
    · obtain ⟨-, rfl⟩ := List.cons.inj hr
      exact absurd (htail.subset List.mem_cons_self) hpost
  | cons y l₁ =>
    obtain ⟨rfl, -⟩ := List.cons.inj heq
    exact hpre.subset List.mem_cons_self

/-! ### Reading with a stack -/

variable (N T)

/-- A stack, its top first, is emptied by popping elements, each of which is a leaf or is replaced
by the list it owns; the second list are the elements that are popped. -/
inductive Pops (leaf : α → Bool) : List α → List α → Prop
  | nil : Pops leaf [] []
  | leaf {e : α} {stack popped : List α} (he : leaf e = true) (h : Pops leaf stack popped) :
    Pops leaf (e :: stack) (e :: popped)
  | nested {e : α} {stack popped : List α} (he : leaf e = false)
    (h : Pops leaf (N.entries T (N.own e) ++ stack) popped) : Pops leaf (e :: stack) (e :: popped)

variable {N T} {leaf : α → Bool} {stack popped : List α}

/-- **A stack reads in preorder.** -/
theorem Pops.preorder (hleaf : ∀ e ∈ T, leaf e = true → N.entries T (N.own e) = []) (s : κ)
    (h : N.Pops T leaf stack popped) :
    N.Pops T leaf (N.entries T s ++ stack) (N.preorder T s ++ popped) := by
  induction s using nested_induct N T generalizing stack popped with
  | h s ih =>
    rw [preorder_eq]
    have hall : ∀ es : List α, (∀ e ∈ es, e ∈ N.entries T s) →
        N.Pops T leaf (es ++ stack)
          ((es.flatMap fun e => e :: N.preorder T (N.own e)) ++ popped) := by
      intro es hes
      induction es with
      | nil => exact h
      | cons e es ihes =>
        have he := hes e List.mem_cons_self
        have htail := ihes fun e' he' => hes e' (List.mem_cons_of_mem _ he')
        rw [List.flatMap_cons, List.append_assoc]
        cases hl : leaf e with
        | true =>
          have hnone : N.preorder T (N.own e) = [] := by
            rw [preorder_eq, hleaf e (mem_entries.mp he).1 hl, List.flatMap_nil]
          rw [hnone]
          exact .leaf hl htail
        | false => exact .nested hl (ih e he htail)
    exact hall _ fun _ he => he

end Nesting
