import Mathlib.Data.List.Dedup
import Mathlib.Data.List.Induction
import Mathlib.Data.List.Nodup
import Mathlib.Data.List.Sort
import Mathlib.Order.MinMax

/-!
# Tables with a primary key

A table is a list of rows no two of which have the same primary key, with the statements a
database runs on it: an insert that fails on a conflict, an upsert, a delete and the query for
the greatest version of each group (`MAX` with `GROUP BY`, joined back with the table).
-/

namespace Sql

/-- The rows of a table whose primary key is `pk`. -/
structure Table {P R : Type} (pk : R → P) where
  rows : List R
  nodup : (rows.map pk).Nodup

namespace Table

variable {P R : Type} {pk : R → P}

instance : Membership R (Table pk) := ⟨fun t r => r ∈ t.rows⟩

theorem mem_def {t : Table pk} {r : R} : r ∈ t ↔ r ∈ t.rows := Iff.rfl

theorem eq_of_pk_eq {t : Table pk} {r r' : R} (h : r ∈ t) (h' : r' ∈ t) (he : pk r = pk r') :
    r = r' :=
  List.inj_on_of_nodup_map t.nodup h h' he

def empty : Table pk := ⟨[], List.nodup_nil⟩

@[simp] theorem not_mem_empty (r : R) : ¬ r ∈ (empty : Table pk) := List.not_mem_nil

section Write

variable [DecidableEq P]

omit [DecidableEq P] in
theorem nodup_append_row {rows : List R} {r : R} (hnd : (rows.map pk).Nodup)
    (hr : pk r ∉ rows.map pk) : ((rows ++ [r]).map pk).Nodup := by
  rw [List.map_append, List.map_singleton]
  exact hnd.append (List.nodup_singleton _) (by simpa using hr)

theorem map_pk_replace (rows : List R) (r : R) :
    (rows.map fun x => if pk x = pk r then r else x).map pk = rows.map pk := by
  rw [List.map_map]
  apply List.map_congr_left
  intro x _
  show pk (if pk x = pk r then r else x) = pk x
  split
  · rename_i h; exact h.symm
  · rfl

/-- `INSERT`: it fails when the primary key is taken. -/
def insert (t : Table pk) (r : R) : Option (Table pk) :=
  if h : pk r ∈ t.rows.map pk then none
  else some ⟨t.rows ++ [r], nodup_append_row t.nodup h⟩

/-- `INSERT … ON CONFLICT (pk) DO UPDATE`: the row with the same primary key is replaced. -/
def upsert (t : Table pk) (r : R) : Table pk :=
  if h : pk r ∈ t.rows.map pk then
    ⟨t.rows.map fun x => if pk x = pk r then r else x, by rw [map_pk_replace]; exact t.nodup⟩
  else ⟨t.rows ++ [r], nodup_append_row t.nodup h⟩

theorem mem_upsert {t : Table pk} {r x : R} :
    x ∈ t.upsert r ↔ x = r ∨ x ∈ t ∧ pk x ≠ pk r := by
  unfold upsert
  split
  · rename_i h
    obtain ⟨r₀, hr₀, hpk⟩ := List.mem_map.1 h
    show x ∈ t.rows.map (fun y => if pk y = pk r then r else y) ↔ _
    rw [List.mem_map]
    constructor
    · rintro ⟨y, hy, rfl⟩
      by_cases hyr : pk y = pk r
      · rw [if_pos hyr]; exact .inl rfl
      · rw [if_neg hyr]; exact .inr ⟨hy, hyr⟩
    · rintro (rfl | ⟨hx, hne⟩)
      · exact ⟨r₀, hr₀, if_pos hpk⟩
      · exact ⟨x, hx, if_neg hne⟩
  · rename_i h
    show x ∈ t.rows ++ [r] ↔ _
    rw [List.mem_append, List.mem_singleton]
    constructor
    · rintro (hx | rfl)
      · exact .inr ⟨hx, fun he => h (he ▸ List.mem_map_of_mem hx)⟩
      · exact .inl rfl
    · rintro (rfl | ⟨hx, -⟩)
      · exact .inr rfl
      · exact .inl hx

theorem mem_upsert_self (t : Table pk) (r : R) : r ∈ t.upsert r := mem_upsert.2 (.inl rfl)

/-- A batch of upserts: a row is the last of the batch with its key, or has a key that the batch
does not have. -/
theorem mem_foldl_upsert {rows : List R} {t : Table pk} {x : R} :
    x ∈ rows.foldl upsert t ↔
      x ∈ rows.foldl upsert (empty : Table pk) ∨ x ∈ t ∧ pk x ∉ rows.map pk := by
  induction rows using List.reverseRecOn generalizing t with
  | nil => simp
  | append_singleton rows r ih =>
    rw [List.foldl_append, List.foldl_append, List.map_append]
    show x ∈ (rows.foldl upsert t).upsert r ↔
      x ∈ (rows.foldl upsert (empty : Table pk)).upsert r ∨ _
    rw [mem_upsert, mem_upsert, ih, List.mem_append, List.map_singleton, List.mem_singleton, not_or]
    constructor
    · rintro (rfl | ⟨h | ⟨ht, hk⟩, hne⟩)
      · exact .inl (.inl rfl)
      · exact .inl (.inr ⟨h, hne⟩)
      · exact .inr ⟨ht, hk, hne⟩
    · rintro ((rfl | ⟨h, hne⟩) | ⟨ht, hk, hne⟩)
      · exact .inl rfl
      · exact .inr ⟨.inl h, hne⟩
      · exact .inr ⟨.inr ⟨ht, hk⟩, hne⟩

theorem mem_of_mem_foldl_upsert {rows : List R} {x : R}
    (h : x ∈ rows.foldl upsert (empty : Table pk)) : x ∈ rows := by
  induction rows using List.reverseRecOn with
  | nil => exact absurd h (not_mem_empty x)
  | append_singleton rows r ih =>
    rw [List.foldl_append] at h
    rcases mem_upsert.1 (show x ∈ (rows.foldl upsert (empty : Table pk)).upsert r from h) with
      rfl | ⟨h, -⟩
    · exact List.mem_append_right _ List.mem_cons_self
    · exact List.mem_append_left _ (ih h)

/-- With distinct keys a batch of upserts writes all of its rows. -/
theorem mem_foldl_upsert_of_nodup {rows : List R} (hnd : (rows.map pk).Nodup) {x : R} :
    x ∈ rows.foldl upsert (empty : Table pk) ↔ x ∈ rows := by
  refine ⟨mem_of_mem_foldl_upsert, ?_⟩
  induction rows using List.reverseRecOn with
  | nil => exact fun h => absurd h List.not_mem_nil
  | append_singleton rows r ih =>
    rw [List.map_append, List.nodup_append] at hnd
    intro h
    rw [List.foldl_append]
    show x ∈ (rows.foldl upsert (empty : Table pk)).upsert r
    rw [mem_upsert]
    rcases List.mem_append.1 h with hx | hx
    · refine .inr ⟨ih hnd.1 hx, ?_⟩
      exact hnd.2.2 _ (List.mem_map_of_mem hx) _ List.mem_cons_self
    · exact .inl (List.mem_singleton.1 hx)

/-- The rows of some keys are upserted on their own as in the whole batch. -/
theorem mem_foldl_upsert_filter {p : R → Bool} (hp : ∀ r r', pk r = pk r' → p r = p r')
    {rows : List R} {x : R} :
    x ∈ (rows.filter p).foldl upsert (empty : Table pk) ↔
      x ∈ rows.foldl upsert (empty : Table pk) ∧ p x := by
  induction rows using List.reverseRecOn with
  | nil => simp
  | append_singleton rows r ih =>
    rw [List.filter_append, List.foldl_append, List.foldl_append]
    show x ∈ ([r].filter p).foldl upsert _ ↔
      x ∈ (rows.foldl upsert (empty : Table pk)).upsert r ∧ p x
    rw [mem_upsert]
    by_cases hr : p r
    · rw [List.filter_cons_of_pos hr]
      show x ∈ ((rows.filter p).foldl upsert (empty : Table pk)).upsert r ↔ _
      rw [mem_upsert, ih]
      constructor
      · rintro (rfl | ⟨⟨h, hx⟩, hne⟩)
        · exact ⟨.inl rfl, hr⟩
        · exact ⟨.inr ⟨h, hne⟩, hx⟩
      · rintro ⟨rfl | ⟨h, hne⟩, hx⟩
        · exact .inl rfl
        · exact .inr ⟨⟨h, hx⟩, hne⟩
    · rw [List.filter_cons_of_neg hr]
      show x ∈ (rows.filter p).foldl upsert (empty : Table pk) ↔ _
      rw [ih]
      constructor
      · rintro ⟨h, hx⟩
        exact ⟨.inr ⟨h, fun he => hr (hp x r he ▸ hx)⟩, hx⟩
      · rintro ⟨rfl | ⟨h, -⟩, hx⟩
        · exact absurd hx hr
        · exact ⟨h, hx⟩

/-- Where versions do not go back along a batch, the row of a key has its greatest version. -/
theorem version_le_of_mem_foldl_upsert {version : R → ℕ} {rows : List R}
    (hrows : rows.Pairwise fun r r' => pk r = pk r' → version r ≤ version r') {x : R}
    (hx : x ∈ rows.foldl upsert (empty : Table pk)) :
    ∀ r ∈ rows, pk r = pk x → version r ≤ version x := by
  induction rows using List.reverseRecOn with
  | nil => exact absurd hx (not_mem_empty x)
  | append_singleton rows y ih =>
    rw [List.pairwise_append] at hrows
    obtain ⟨hrows, -, hlast⟩ := hrows
    rw [List.foldl_append] at hx
    intro r hr he
    rcases mem_upsert.1 (show x ∈ (rows.foldl upsert (empty : Table pk)).upsert y from hx) with
      rfl | ⟨hx, hne⟩
    · rcases List.mem_append.1 hr with hr | hr
      · exact hlast r hr x List.mem_cons_self he
      · rw [List.mem_singleton.1 hr]
    · rcases List.mem_append.1 hr with hr | hr
      · exact ih hrows hx r hr he
      · exact absurd (List.mem_singleton.1 hr ▸ he) (Ne.symm hne)

/-- Every key of a batch of upserts is there. -/
theorem exists_mem_foldl_upsert (t : Table pk) {rows : List R} {r : R} (hr : r ∈ rows) :
    ∃ x ∈ rows.foldl upsert t, pk x = pk r := by
  induction rows using List.reverseRecOn with
  | nil => exact absurd hr List.not_mem_nil
  | append_singleton rows y ih =>
    rw [List.foldl_append]
    show ∃ x ∈ (rows.foldl upsert t).upsert y, pk x = pk r
    by_cases hy : pk r = pk y
    · exact ⟨y, mem_upsert_self _ y, hy.symm⟩
    · rcases List.mem_append.1 hr with hr | hr
      · obtain ⟨x, hx, he⟩ := ih hr
        exact ⟨x, mem_upsert.2 (.inr ⟨hx, he ▸ hy⟩), he⟩
      · exact absurd (congrArg pk (List.mem_singleton.1 hr)) hy

theorem mem_insert {t t' : Table pk} {r x : R} (h : t.insert r = some t') :
    x ∈ t' ↔ x = r ∨ x ∈ t := by
  unfold insert at h
  split at h
  · cases h
  · cases h
    show x ∈ t.rows ++ [r] ↔ _
    rw [List.mem_append, List.mem_singleton, or_comm]
    rfl

theorem insert_eq_none {t : Table pk} {r : R} : t.insert r = none ↔ ∃ x ∈ t, pk x = pk r := by
  unfold insert
  split
  · rename_i h
    simpa [mem_def] using h
  · rename_i h
    simpa [mem_def] using h

end Write

/-- `DELETE … WHERE p`. -/
def deleteWhere (t : Table pk) (p : R → Bool) : Table pk :=
  ⟨t.rows.filter fun r => !p r, t.nodup.sublist (List.filter_sublist.map pk)⟩

theorem deleteWhere_eq_self {t : Table pk} {p : R → Bool} (h : ∀ r ∈ t, p r = false) :
    t.deleteWhere p = t := by
  obtain ⟨rows, hnd⟩ := t
  unfold deleteWhere
  congr 1
  rw [List.filter_eq_self]
  intro r hr
  rw [h r hr]
  rfl

end Table

/-- `a JOIN b USING (key)`: the pairs of rows with the same key. -/
def joinUsing {A B K : Type} [DecidableEq K] (f : A → K) (g : B → K) (as : List A) (bs : List B) :
    List (A × B) :=
  as.flatMap fun a => (bs.filter fun b => g b = f a).map fun b => (a, b)

theorem mem_joinUsing {A B K : Type} [DecidableEq K] {f : A → K} {g : B → K} {as : List A}
    {bs : List B} {p : A × B} :
    p ∈ joinUsing f g as bs ↔ p.1 ∈ as ∧ p.2 ∈ bs ∧ g p.2 = f p.1 := by
  obtain ⟨a, b⟩ := p
  simp only [joinUsing, List.mem_flatMap, List.mem_map, List.mem_filter, decide_eq_true_eq,
    Prod.mk.injEq]
  constructor
  · rintro ⟨_, ha, _, ⟨hb, he⟩, rfl, rfl⟩
    exact ⟨ha, hb, he⟩
  · rintro ⟨ha, hb, he⟩
    exact ⟨a, ha, b, ⟨hb, he⟩, rfl, rfl⟩

theorem joinUsing_map_fst {A B K : Type} [DecidableEq K] {f : A → K} {g : B → K} {as : List A}
    {bs : List B} (hnd : (bs.map g).Nodup) :
    (joinUsing f g as bs).map Prod.fst = as.filter fun a => f a ∈ bs.map g := by
  induction as with
  | nil => rfl
  | cons a as ih =>
    have hcons : joinUsing f g (a :: as) bs =
        ((bs.filter fun b => g b = f a).map fun b => (a, b)) ++ joinUsing f g as bs := by
      simp only [joinUsing, List.flatMap_cons]
    rw [hcons, List.map_append, ih, List.filter_cons, List.map_map]
    by_cases h : f a ∈ bs.map g
    · obtain ⟨b, hb, hba⟩ := List.mem_map.1 h
      have hone : bs.filter (fun b => g b = f a) = [b] := by
        refine List.perm_singleton.1
          ((List.perm_ext_iff_of_nodup (hnd.of_map.filter _) (List.nodup_singleton b)).2 ?_)
        intro b'
        rw [List.mem_filter, decide_eq_true_eq, List.mem_singleton]
        constructor
        · rintro ⟨hb', he⟩
          exact List.inj_on_of_nodup_map hnd hb' hb (he.trans hba.symm)
        · rintro rfl
          exact ⟨hb, hba⟩
      rw [if_pos (by simpa using h), hone]
      rfl
    · have hnone : bs.filter (fun b => g b = f a) = [] := by
        rw [List.filter_eq_nil_iff]
        intro b hb he
        exact h (List.mem_map.2 ⟨b, hb, of_decide_eq_true he⟩)
      rw [if_neg (by simpa using h), hnone]
      rfl

section GroupBy

variable {R G : Type} [DecidableEq G] (group : R → G) (version : R → ℕ)

/-- `SELECT group, MAX(version) … GROUP BY group`. -/
def groupMax (rows : List R) : List (G × ℕ) :=
  (rows.map group).dedup.filterMap fun g =>
    (((rows.filter fun r => group r = g).map version).max?).map fun v => (g, v)

/-- The rows that hold the greatest version below `before` of their group: the maxima of the
rows below `before`, joined with the table on group and version. -/
def latestRows (before : ℕ) (rows : List R) : List R :=
  (joinUsing (fun r => (group r, version r)) id rows
    (groupMax group version (rows.filter fun r => version r < before))).map Prod.fst

/-- `r` has the greatest version below `before` of its group. -/
def IsLatest (before : ℕ) (rows : List R) (r : R) : Prop :=
  r ∈ rows ∧ version r < before ∧
    ∀ r' ∈ rows, group r' = group r → version r' < before → version r' ≤ version r

variable {group version}

theorem max?_versions {rows : List R} {g : G} {v : ℕ} :
    ((rows.filter fun r => group r = g).map version).max? = some v ↔
      (∃ r ∈ rows, group r = g ∧ version r = v) ∧
        ∀ r ∈ rows, group r = g → version r ≤ v := by
  rw [List.max?_eq_some_iff]
  simp only [List.mem_map, List.mem_filter, decide_eq_true_eq]
  constructor
  · rintro ⟨⟨r, ⟨hr, hg⟩, hv⟩, hmax⟩
    exact ⟨⟨r, hr, hg, hv⟩, fun r' hr' hg' => hmax _ ⟨r', ⟨hr', hg'⟩, rfl⟩⟩
  · rintro ⟨⟨r, hr, hg, hv⟩, hmax⟩
    refine ⟨⟨r, ⟨hr, hg⟩, hv⟩, ?_⟩
    rintro _ ⟨r', ⟨hr', hg'⟩, rfl⟩
    exact hmax r' hr' hg'

theorem mem_groupMax {rows : List R} {g : G} {v : ℕ} :
    (g, v) ∈ groupMax group version rows ↔
      (∃ r ∈ rows, group r = g ∧ version r = v) ∧
        ∀ r ∈ rows, group r = g → version r ≤ v := by
  unfold groupMax
  simp only [List.mem_filterMap, List.mem_dedup, List.mem_map, Option.map_eq_some_iff,
    Prod.mk.injEq]
  constructor
  · rintro ⟨_, -, _, hv, rfl, rfl⟩
    exact max?_versions.1 hv
  · rintro ⟨⟨r, hr, hg, hv⟩, hmax⟩
    exact ⟨g, ⟨r, hr, hg⟩, v, max?_versions.2 ⟨⟨r, hr, hg, hv⟩, hmax⟩, rfl, rfl⟩

theorem nodup_groupMax (rows : List R) : ((groupMax group version rows).map Prod.fst).Nodup := by
  unfold groupMax
  rw [List.map_filterMap]
  refine (List.nodup_dedup _).filterMap ?_
  intro g g' x hx hx'
  obtain ⟨_, h, rfl⟩ := Option.map_eq_some_iff.1 hx
  obtain ⟨_, -, rfl⟩ := Option.map_eq_some_iff.1 h
  obtain ⟨_, h', he⟩ := Option.map_eq_some_iff.1 hx'
  obtain ⟨_, -, rfl⟩ := Option.map_eq_some_iff.1 h'
  exact he.symm

theorem exists_mem_groupMax {rows : List R} {r : R} (hr : r ∈ rows) :
    ∃ v, (group r, v) ∈ groupMax group version rows := by
  cases hmax : ((rows.filter fun x => group x = group r).map version).max? with
  | none =>
    rw [List.max?_eq_none_iff, List.map_eq_nil_iff, List.filter_eq_nil_iff] at hmax
    exact absurd (decide_eq_true rfl) (hmax r hr)
  | some v => exact ⟨v, mem_groupMax.2 (max?_versions.1 hmax)⟩

theorem mem_latestRows {before : ℕ} {rows : List R} {r : R} :
    r ∈ latestRows group version before rows ↔ IsLatest group version before rows r := by
  unfold latestRows
  rw [List.mem_map]
  constructor
  · rintro ⟨⟨a, g, v⟩, hp, rfl⟩
    obtain ⟨ha, hmax, he⟩ := mem_joinUsing.1 hp
    simp only at ha hmax he
    obtain ⟨rfl, rfl⟩ : g = group a ∧ v = version a := Prod.mk.inj he
    obtain ⟨⟨m, hm, -, hv⟩, hle⟩ := mem_groupMax.1 hmax
    obtain ⟨-, hlt⟩ := List.mem_filter.1 hm
    refine ⟨ha, ?_, fun r' hr' hg hlt' => ?_⟩
    · show version a < before
      rw [← hv]; exact of_decide_eq_true hlt
    · exact hle r' (List.mem_filter.2 ⟨hr', decide_eq_true hlt'⟩) hg
  · rintro ⟨hr, hlt, hmax⟩
    refine ⟨(r, group r, version r), mem_joinUsing.2 ⟨hr, mem_groupMax.2 ⟨?_, ?_⟩, rfl⟩, rfl⟩
    · exact ⟨r, List.mem_filter.2 ⟨hr, decide_eq_true hlt⟩, rfl, rfl⟩
    · intro r' hr' hg
      obtain ⟨hr', hlt'⟩ := List.mem_filter.1 hr'
      exact hmax r' hr' hg (of_decide_eq_true hlt')

theorem exists_isLatest {before : ℕ} {rows : List R} {r : R} (hr : r ∈ rows)
    (hlt : version r < before) :
    ∃ m, IsLatest group version before rows m ∧ group m = group r := by
  have hbelow : r ∈ rows.filter fun r => version r < before :=
    List.mem_filter.2 ⟨hr, decide_eq_true hlt⟩
  obtain ⟨v, hv⟩ : ∃ v, (group r, v) ∈ groupMax group version _ := exists_mem_groupMax hbelow
  obtain ⟨⟨m, hm, hg, hmv⟩, hmax⟩ := mem_groupMax.1 hv
  obtain ⟨hm, hmlt⟩ := List.mem_filter.1 hm
  refine ⟨m, ⟨hm, of_decide_eq_true hmlt, fun r' hr' hg' hlt' => ?_⟩, hg⟩
  rw [hmv]
  exact hmax r' (List.mem_filter.2 ⟨hr', decide_eq_true hlt'⟩) (hg'.trans hg)

/-- One row a group, when group and version are the primary key. -/
theorem nodup_latestRows {before : ℕ} {rows : List R}
    (hnd : (rows.map fun r => (group r, version r)).Nodup) :
    ((latestRows group version before rows).map group).Nodup := by
  have hrows : (latestRows group version before rows).Nodup := by
    unfold latestRows
    rw [joinUsing_map_fst (by rw [List.map_id]; exact (nodup_groupMax _).of_map)]
    exact hnd.of_map.filter _
  refine hrows.map_on ?_
  intro r hr r' hr' hg
  have hr := mem_latestRows.1 hr
  have hr' := mem_latestRows.1 hr'
  have hv : version r = version r' :=
    le_antisymm (hr'.2.2 r hr.1 hg hr.2.1) (hr.2.2 r' hr'.1 hg.symm hr'.2.1)
  exact List.inj_on_of_nodup_map hnd hr.1 hr'.1 (by rw [hg, hv])

end GroupBy

section Collect

variable {R G : Type} {group : R → G} {version : R → ℕ} {e e' before : ℕ}

/-- A collection up to `e`: only rows went that a later row of the group, still there, hides
from every query below `e` or more. -/
structure CollectedUpTo (group : R → G) (version : R → ℕ) (e : ℕ) (rows rows' : List R) :
    Prop where
  subset : ∀ r ∈ rows', r ∈ rows
  hidden : ∀ r ∈ rows, r ∈ rows' ∨
    ∃ r' ∈ rows', group r' = group r ∧ version r < version r' ∧ version r' < e

namespace CollectedUpTo

theorem refl (e : ℕ) (rows : List R) : CollectedUpTo group version e rows rows :=
  ⟨fun _ h => h, fun _ h => .inl h⟩

theorem mono {rows rows' : List R} (h : CollectedUpTo group version e rows rows')
    (he : e ≤ e') : CollectedUpTo group version e' rows rows' := by
  refine ⟨h.subset, fun r hr => ?_⟩
  rcases h.hidden r hr with hr' | ⟨r', hr', hg, hlt, hlt'⟩
  · exact .inl hr'
  · exact .inr ⟨r', hr', hg, hlt, by omega⟩

theorem trans {rows rows' rows'' : List R} (h : CollectedUpTo group version e rows rows')
    (h' : CollectedUpTo group version e rows' rows'') :
    CollectedUpTo group version e rows rows'' := by
  refine ⟨fun r hr => h.subset r (h'.subset r hr), fun r hr => ?_⟩
  rcases h.hidden r hr with hr' | ⟨r', hr', hg, hlt, hlt'⟩
  · exact h'.hidden r hr'
  · rcases h'.hidden r' hr' with hr'' | ⟨r'', hr'', hg', hlt'', he⟩
    · exact .inr ⟨r', hr'', hg, hlt, hlt'⟩
    · exact .inr ⟨r'', hr'', hg'.trans hg, by omega, he⟩

/-- A later write keeps what a collection may do: it replaces a row of both tables, or a row
that was already gone comes back. -/
theorem upsert [DecidableEq G] {t t' : Table fun r : R => (group r, version r)} (x : R)
    (h : CollectedUpTo group version e t.rows t'.rows) :
    CollectedUpTo group version e (t.upsert x).rows (t'.upsert x).rows := by
  constructor
  · intro r hr
    rcases Table.mem_upsert.1 (Table.mem_def.2 hr) with rfl | ⟨hr, hne⟩
    · exact Table.mem_upsert_self t r
    · exact Table.mem_upsert.2 (.inr ⟨h.subset r hr, hne⟩)
  · intro r hr
    rcases Table.mem_upsert.1 (Table.mem_def.2 hr) with rfl | ⟨hr, hne⟩
    · exact .inl (Table.mem_upsert_self t' r)
    · rcases h.hidden r hr with hr' | ⟨r', hr', hg, hlt, hlt'⟩
      · exact .inl (Table.mem_upsert.2 (.inr ⟨hr', hne⟩))
      · right
        by_cases hx : (group r', version r') = (group x, version x)
        · obtain ⟨hgx, hvx⟩ := Prod.mk.inj hx
          exact ⟨x, Table.mem_upsert_self t' x, hgx.symm.trans hg, by omega, by omega⟩
        · exact ⟨r', Table.mem_upsert.2 (.inr ⟨hr', hx⟩), hg, hlt, hlt'⟩

/-- A collection up to `e` is invisible to the queries below `e` or more. -/
theorem isLatest_iff {rows rows' : List R} (h : CollectedUpTo group version e rows rows')
    (he : e ≤ before) {r : R} :
    IsLatest group version before rows' r ↔ IsLatest group version before rows r := by
  constructor
  · rintro ⟨hr, hlt, hmax⟩
    refine ⟨h.subset r hr, hlt, fun x hx hg hxlt => ?_⟩
    rcases h.hidden x hx with hx' | ⟨x', hx', hg', hltx, hx'lt⟩
    · exact hmax x hx' hg hxlt
    · exact le_trans hltx.le (hmax x' hx' (hg'.trans hg) (by omega))
  · rintro ⟨hr, hlt, hmax⟩
    have hr' : r ∈ rows' := by
      rcases h.hidden r hr with hr' | ⟨x, hx, hg, hltx, hxlt⟩
      · exact hr'
      · have := hmax x (h.subset x hx) hg (by omega)
        omega
    exact ⟨hr', hlt, fun x hx => hmax x (h.subset x hx)⟩

end CollectedUpTo

end Collect

end Sql
