import Mathlib.Algebra.Order.Group.Abs
import Mathlib.Data.List.Pairwise
import Mathlib.Data.List.Sort
import Mathlib.Logic.Relation
import Mathlib.Order.Bounds.Basic

/-!
# Chains of points less than a gap apart

The points of a set are linked when a chain of points of the set leads from one to the other whose
neighbours are less than `gap` apart.  The classes of linked points are the components; a component
is given by its least and its greatest point.  A list of intervals that are chained, a gap apart
and cover the set lists its components.
-/

namespace Chains

variable {α : Type*} [AddCommGroup α] [LinearOrder α] [IsOrderedAddMonoid α]
  {gap : α} {T T' : Set α} {x y z : α}

/-- Two points of `T` less than a gap apart. -/
def Near (gap : α) (T : Set α) (x y : α) : Prop := x ∈ T ∧ y ∈ T ∧ |x - y| < gap

/-- A chain of points of `T`, neighbours less than a gap apart. -/
def Linked (gap : α) (T : Set α) : α → α → Prop := Relation.ReflTransGen (Near gap T)

/-- The points of `T` linked to `x`. -/
def component (gap : α) (T : Set α) (x : α) : Set α := fun y => y ∈ T ∧ Linked gap T x y

/-- The least and the greatest point of a component. -/
def IsComponent (gap : α) (T : Set α) (p : α × α) : Prop :=
  ∃ x ∈ T, IsLeast (component gap T x) p.1 ∧ IsGreatest (component gap T x) p.2

omit [IsOrderedAddMonoid α] in
theorem Near.symm (h : Near gap T x y) : Near gap T y x :=
  ⟨h.2.1, h.1, abs_sub_comm x y ▸ h.2.2⟩

omit [IsOrderedAddMonoid α] in
theorem Linked.symm (h : Linked gap T x y) : Linked gap T y x := by
  induction h with
  | refl => exact .refl
  | tail _ hn ih => exact .head hn.symm ih

omit [IsOrderedAddMonoid α] in
theorem Linked.mono (hT : T ⊆ T') (h : Linked gap T x y) : Linked gap T' x y := by
  induction h with
  | refl => exact .refl
  | tail _ hn ih => exact .tail ih ⟨hT hn.1, hT hn.2.1, hn.2.2⟩

omit [IsOrderedAddMonoid α] in
theorem Linked.mem (h : Linked gap T x y) (hx : x ∈ T) : y ∈ T := by
  induction h with
  | refl => exact hx
  | tail _ hn _ => exact hn.2.1

/-- A point that a chain passes is linked to its ends. -/
theorem Linked.of_between (h : Linked gap T x y) (hz : z ∈ T) (hxz : x ≤ z) (hzy : z ≤ y) :
    Linked gap T x z := by
  induction h with
  | refl => exact le_antisymm hxz hzy ▸ .refl
  | @tail c b hc hn ih =>
    rcases le_total z c with hle | hle
    · exact ih hle
    · refine .tail hc ⟨hn.1, hz, ?_⟩
      rw [abs_sub_comm, abs_of_nonneg (sub_nonneg.mpr hle)]
      calc z - c ≤ b - c := sub_le_sub_right hzy c
        _ ≤ |b - c| := le_abs_self _
        _ < gap := abs_sub_comm c b ▸ hn.2.2

/-- The interval is spanned by a chain. -/
structure IsChain (gap : α) (T : Set α) (p : α × α) : Prop where
  le : p.1 ≤ p.2
  mem : p.1 ∈ T
  linked : Linked gap T p.1 p.2

omit [IsOrderedAddMonoid α] in
theorem IsChain.mono {p : α × α} (hT : T ⊆ T') (h : IsChain gap T p) : IsChain gap T' p :=
  ⟨h.le, hT h.mem, h.linked.mono hT⟩

omit [IsOrderedAddMonoid α] in
theorem IsChain.singleton (hx : x ∈ T) : IsChain gap T (x, x) := ⟨le_rfl, hx, .refl⟩

/-- A chain reaches a chain that starts in it or less than a gap after it. -/
theorem IsChain.join {p q : α × α} (hp : IsChain gap T p) (hq : IsChain gap T q)
    (hle : p.1 ≤ q.1) (hlt : q.1 < p.2 + gap) : IsChain gap T (p.1, max p.2 q.2) := by
  have hpq : Linked gap T p.1 q.1 := by
    rcases le_total q.1 p.2 with h | h
    · exact hp.linked.of_between hq.mem hle h
    · refine .tail hp.linked ⟨hp.linked.mem hp.mem, hq.mem, ?_⟩
      rw [abs_sub_comm, abs_of_nonneg (sub_nonneg.mpr h)]
      exact sub_lt_iff_lt_add'.mpr hlt
  refine ⟨le_max_of_le_left hp.le, hp.mem, ?_⟩
  rcases max_choice p.2 q.2 with h | h
  · show Linked gap T p.1 (max p.2 q.2)
    rw [h]
    exact hp.linked
  · show Linked gap T p.1 (max p.2 q.2)
    rw [h]
    exact hpq.trans hq.linked

omit [AddCommGroup α] [IsOrderedAddMonoid α] in
theorem isLeast_unique_pair {S : Set α} {p q : α × α} (hp : IsLeast S p.1 ∧ IsGreatest S p.2)
    (hq : IsLeast S q.1 ∧ IsGreatest S q.2) : p = q :=
  Prod.ext (hp.1.unique hq.1) (hp.2.unique hq.2)

theorem not_near (h : x + gap ≤ y) : ¬ |x - y| < gap := by
  rw [not_lt, abs_sub_comm]
  exact le_trans (le_sub_iff_add_le'.mpr h) (le_abs_self _)

/-- Intervals a gap apart, in order. -/
def Before (gap : α) (p q : α × α) : Prop := p.2 + gap ≤ q.1

section Cover

variable {l : List (α × α)} (hchain : ∀ p ∈ l, IsChain gap T p)
  (hbefore : l.Pairwise (Before gap)) (hcover : ∀ x ∈ T, ∃ p ∈ l, p.1 ≤ x ∧ x ≤ p.2)

include hbefore in
omit [IsOrderedAddMonoid α] in
theorem before_or_before {p q : α × α} (hp : p ∈ l) (hq : q ∈ l) (hne : p ≠ q) :
    Before gap p q ∨ Before gap q p := by
  have : Std.Symm fun p q : α × α => Before gap p q ∨ Before gap q p := ⟨fun _ _ h => h.symm⟩
  have hor : l.Pairwise fun p q => Before gap p q ∨ Before gap q p := hbefore.imp .inl
  exact hor.forall hp hq hne

include hchain hbefore hcover in
/-- A chain does not leave its interval. -/
theorem Linked.in_interval {p : α × α} (hp : p ∈ l) (h : Linked gap T p.1 y) :
    p.1 ≤ y ∧ y ≤ p.2 := by
  induction h with
  | refl => exact ⟨le_rfl, (hchain p hp).le⟩
  | @tail c b _ hn ih =>
    obtain ⟨q, hq, hqb, hbq⟩ := hcover b hn.2.1
    by_cases he : p = q
    · subst he
      exact ⟨hqb, hbq⟩
    · exfalso
      rcases before_or_before hbefore hp hq he with h | h
      · exact not_near (le_trans (add_le_add_left ih.2 gap) (le_trans h hqb)) hn.2.2
      · exact not_near (le_trans (add_le_add_left hbq gap) (le_trans h ih.1)) hn.symm.2.2

include hchain in
theorem component_eq {p : α × α} (hp : p ∈ l) (hx : x ∈ T) (hpx : p.1 ≤ x) (hxp : x ≤ p.2) :
    component gap T x = component gap T p.1 := by
  have hlink : Linked gap T p.1 x := (hchain p hp).linked.of_between hx hpx hxp
  ext y
  constructor
  · rintro ⟨hy, h⟩
    exact ⟨hy, hlink.trans h⟩
  · rintro ⟨hy, h⟩
    exact ⟨hy, hlink.symm.trans h⟩

include hchain hbefore hcover in
theorem isLeast_isGreatest {p : α × α} (hp : p ∈ l) :
    IsLeast (component gap T p.1) p.1 ∧ IsGreatest (component gap T p.1) p.2 := by
  have hc := hchain p hp
  refine ⟨⟨⟨hc.mem, .refl⟩, ?_⟩, ⟨⟨hc.linked.mem hc.mem, hc.linked⟩, ?_⟩⟩
  · rintro y ⟨-, h⟩
    exact (h.in_interval hchain hbefore hcover hp).1
  · rintro y ⟨-, h⟩
    exact (h.in_interval hchain hbefore hcover hp).2

include hchain hbefore hcover in
/-- The intervals are the components. -/
theorem mem_iff_isComponent {p : α × α} : p ∈ l ↔ IsComponent gap T p := by
  constructor
  · intro hp
    exact ⟨p.1, (hchain p hp).mem, isLeast_isGreatest hchain hbefore hcover hp⟩
  · rintro ⟨x, hx, hcomp⟩
    obtain ⟨q, hq, hqx, hxq⟩ := hcover x hx
    rw [component_eq hchain hq hx hqx hxq] at hcomp
    rw [isLeast_unique_pair hcomp (isLeast_isGreatest hchain hbefore hcover hq)]
    exact hq

end Cover

theorem pairwise_lt_of_before {l : List (α × α)} (hgap : 0 < gap) (hl : ∀ p ∈ l, p.1 ≤ p.2)
    (hb : l.Pairwise (Before gap)) : l.Pairwise fun p q => p.1 < q.1 := by
  refine hb.imp_of_mem fun hp _ h => ?_
  exact lt_of_le_of_lt (hl _ hp) (lt_of_lt_of_le (lt_add_of_pos_right _ hgap) h)

theorem nodup_of_before {l : List (α × α)} (hgap : 0 < gap) (hl : ∀ p ∈ l, p.1 ≤ p.2)
    (hb : l.Pairwise (Before gap)) : l.Nodup :=
  (pairwise_lt_of_before hgap hl hb).imp fun h he => absurd (he ▸ h) (lt_irrefl _)

/-- Ordered lists of intervals with the same members are equal. -/
theorem eq_of_before {l l' : List (α × α)} (hgap : 0 < gap) (hl : ∀ p ∈ l, p.1 ≤ p.2)
    (hl' : ∀ p ∈ l', p.1 ≤ p.2) (hb : l.Pairwise (Before gap)) (hb' : l'.Pairwise (Before gap))
    (hmem : ∀ p, p ∈ l ↔ p ∈ l') : l = l' := by
  refine List.Perm.eq_of_pairwise ?_ (pairwise_lt_of_before hgap hl hb)
    (pairwise_lt_of_before hgap hl' hb')
    ((List.perm_ext_iff_of_nodup (nodup_of_before hgap hl hb)
      (nodup_of_before hgap hl' hb')).mpr hmem)
  exact fun p q _ _ h h' => absurd h (lt_asymm h')

end Chains
