import Bytewax.Recovery.ResumePoint

/-!
# Bytewax.Recovery.Progress — the progress data of the partitions

The rows of `parts`, `exs`, `fronts` and `commits`: rows that no two partitions share can be written
into a database in any order, and `resume_from` depends on the database only through which rows it
has.
-/

namespace Bytewax

namespace Recovery

open Sql

variable {S K D : Type}

/-! ### Rows -/

/-- The tables that are read to calculate where to resume. -/
inductive ProgressTable
  | parts
  | exs
  | fronts
  | commits
  deriving DecidableEq, Repr

/-- A row of one of these tables. -/
inductive ProgressRow
  | part (r : PartitionMeta)
  | ex (r : ExecutionMeta)
  | front (r : FrontierMeta)
  | commit (r : CommitMeta)
  deriving DecidableEq, Repr

/-- A primary key of one of the tables. -/
inductive ProgressKey
  | part (partIndex : ℕ)
  | ex (exNum : ℕ)
  | front (exNum workerIndex : ℕ)
  | commit (partIndex : ℕ)
  deriving DecidableEq, Repr

namespace ProgressRow

def key : ProgressRow → ProgressKey
  | .part r => .part r.partIndex
  | .ex r => .ex r.exNum
  | .front r => .front r.exNum r.workerIndex
  | .commit r => .commit r.partIndex

/-- The `CHECK`s of the table, and that its integers are SQLite's. -/
def Fits : ProgressRow → Prop
  | .part r => r.partIndex < r.partCount ∧ r.partCount ≤ i64Max
  | .ex r => 0 < r.workerCount ∧ r.exNum ≤ i64Max ∧ r.workerCount ≤ i64Max ∧ r.resumeEpoch ≤ i64Max
  | .front r => r.exNum ≤ i64Max ∧ r.workerIndex ≤ i64Max ∧ r.workerFrontier ≤ i64Max
  | .commit r => r.partIndex ≤ i64Max ∧ r.commitEpoch ≤ i64Max

/-- Write a row with the writer of its table. -/
def write (db : RecoveryPart S K D) : ProgressRow → Option (RecoveryPart S K D)
  | .part r => writePart db r
  | .ex r => writeEx db r
  | .front r => writeFront db r
  | .commit r => writeCommit db r

end ProgressRow

/-- The rows of a table. -/
def progressRows (db : RecoveryPart S K D) : ProgressTable → List ProgressRow
  | .parts => db.parts.rows.map .part
  | .exs => db.exs.rows.map .ex
  | .fronts => db.fronts.rows.map .front
  | .commits => db.commits.rows.map .commit

/-- All rows. -/
def allProgress (db : RecoveryPart S K D) : List ProgressRow :=
  [ProgressTable.parts, .exs, .fronts, .commits].flatMap (progressRows db)

@[simp] theorem mem_allProgress_part {db : RecoveryPart S K D} {r : PartitionMeta} :
    .part r ∈ allProgress db ↔ r ∈ db.parts := by
  simp [allProgress, progressRows, Table.mem_def]

@[simp] theorem mem_allProgress_ex {db : RecoveryPart S K D} {r : ExecutionMeta} :
    .ex r ∈ allProgress db ↔ r ∈ db.exs := by
  simp [allProgress, progressRows, Table.mem_def]

@[simp] theorem mem_allProgress_front {db : RecoveryPart S K D} {r : FrontierMeta} :
    .front r ∈ allProgress db ↔ r ∈ db.fronts := by
  simp [allProgress, progressRows, Table.mem_def]

@[simp] theorem mem_allProgress_commit {db : RecoveryPart S K D} {r : CommitMeta} :
    .commit r ∈ allProgress db ↔ r ∈ db.commits := by
  simp [allProgress, progressRows, Table.mem_def]

/-- Rows that can all be written into one database. -/
structure Writable (rows : List ProgressRow) : Prop where
  keys : (rows.map ProgressRow.key).Nodup
  fits : ∀ row ∈ rows, row.Fits

theorem Writable.perm {rows rows' : List ProgressRow} (h : Writable rows) (hp : rows.Perm rows') :
    Writable rows' where
  keys := ((hp.map _).nodup_iff).mp h.keys
  fits row hrow := h.fits row (hp.mem_iff.mpr hrow)

theorem Writable.sublist {rows rows' : List ProgressRow} (h : Writable rows)
    (hs : rows'.Sublist rows) : Writable rows' where
  keys := h.keys.sublist (hs.map _)
  fits row hrow := h.fits row (hs.subset hrow)

/-- The database has these rows. -/
def HasRows (db : RecoveryPart S K D) (rows : List ProgressRow) : Prop :=
  ∀ row, row ∈ allProgress db ↔ row ∈ rows

theorem HasRows.empty : HasRows (.empty : RecoveryPart S K D) [] := by
  intro row
  cases row <;> simp [RecoveryPart.empty]

theorem toSql_of_le {n : ℕ} (h : n ≤ i64Max) : toSql n = some n := if_pos h

/-- An insert that is not in conflict. -/
theorem exists_insert {P R : Type} [DecidableEq P] {pk : R → P} {t : Table pk} {r : R}
    (h : ∀ x ∈ t, pk x ≠ pk r) : ∃ t', t.insert r = some t' ∧ ∀ x, x ∈ t' ↔ x = r ∨ x ∈ t := by
  cases hinsert : t.insert r with
  | none =>
    obtain ⟨x, hx, heq⟩ := Table.insert_eq_none.mp hinsert
    exact absurd heq (h x hx)
  | some t' => exact ⟨t', rfl, fun x => Table.mem_insert hinsert⟩

/-- A row with a new key is added to its table. -/
theorem ProgressRow.write_new {db : RecoveryPart S K D} {row : ProgressRow} (hfits : row.Fits)
    (hnew : ∀ other ∈ allProgress db, other.key ≠ row.key) :
    ∃ db', row.write db = some db' ∧
      ∀ other, other ∈ allProgress db' ↔ other = row ∨ other ∈ allProgress db := by
  cases row with
  | part r =>
    obtain ⟨hlt, hcount⟩ := hfits
    have hindex : r.partIndex ≤ i64Max := (Nat.le_of_lt hlt).trans hcount
    obtain ⟨parts, hinsert, hmem⟩ := exists_insert (t := db.parts) (r := r) fun x hx heq =>
      hnew (.part x) (mem_allProgress_part.mpr hx) (congrArg ProgressKey.part heq)
    refine ⟨{ db with parts }, ?_, fun other => ?_⟩
    · simp [write, writePart, toSql_of_le hindex, toSql_of_le hcount, Nat.zero_lt_of_lt hlt, hlt,
        hinsert]
    · cases other <;> simp [hmem]
  | ex r =>
    obtain ⟨hpos, hnum, hcount, hepoch⟩ := hfits
    obtain ⟨exs, hinsert, hmem⟩ := exists_insert (t := db.exs) (r := r) fun x hx heq =>
      hnew (.ex x) (mem_allProgress_ex.mpr hx) (congrArg ProgressKey.ex heq)
    refine ⟨{ db with exs }, ?_, fun other => ?_⟩
    · simp [write, writeEx, toSql_of_le hnum, toSql_of_le hcount, toSql_of_le hepoch, hpos, hinsert]
    · cases other <;> simp [hmem]
  | front r =>
    obtain ⟨hnum, hworker, hfrontier⟩ := hfits
    refine ⟨{ db with fronts := db.fronts.upsert r }, ?_, fun other => ?_⟩
    · simp [write, writeFront, toSql_of_le hnum, toSql_of_le hworker, toSql_of_le hfrontier]
    · cases other with
      | front x =>
        have hother : x ∈ db.fronts → x.key ≠ r.key := by
          intro hx heq
          refine hnew (.front x) (mem_allProgress_front.mpr hx) ?_
          obtain ⟨hnum, hworker⟩ := Prod.mk.inj heq
          rw [key, key, hnum, hworker]
        simp only [mem_allProgress_front, Table.mem_upsert, ProgressRow.front.injEq]
        exact or_congr_right (and_iff_left_of_imp hother)
      | _ => simp
  | commit r =>
    obtain ⟨hindex, hepoch⟩ := hfits
    obtain ⟨commits, hinsert, hmem⟩ := exists_insert (t := db.commits) (r := r) fun x hx heq =>
      hnew (.commit x) (mem_allProgress_commit.mpr hx) (congrArg ProgressKey.commit heq)
    refine ⟨{ db with commits }, ?_, fun other => ?_⟩
    · simp [write, writeCommit, toSql_of_le hindex, toSql_of_le hepoch, hinsert]
    · cases other <;> simp [hmem]

theorem HasRows.write {db : RecoveryPart S K D} {rows : List ProgressRow} {row : ProgressRow}
    (h : HasRows db rows) (hw : Writable (rows ++ [row])) :
    ∃ db', row.write db = some db' ∧ HasRows db' (rows ++ [row]) := by
  have hkeys := hw.keys
  rw [List.map_append, List.nodup_append] at hkeys
  have hnew : ∀ other ∈ allProgress db, other.key ≠ row.key := fun other hin =>
    hkeys.2.2 _ (List.mem_map_of_mem ((h other).mp hin)) _
      (List.mem_map_of_mem (List.mem_singleton_self row))
  obtain ⟨db', hwrite, hmem⟩ := ProgressRow.write_new
    (hw.fits row (List.mem_append_right _ (List.mem_singleton_self _))) hnew
  refine ⟨db', hwrite, fun other => ?_⟩
  rw [hmem, h, List.mem_append, List.mem_singleton, or_comm]

/-- Rows can be written one after the other. -/
theorem HasRows.foldlM {db : RecoveryPart S K D} {rows rows' : List ProgressRow}
    (h : HasRows db rows) (hw : Writable (rows ++ rows')) :
    ∃ db', rows'.foldlM ProgressRow.write db = some db' ∧ HasRows db' (rows ++ rows') := by
  induction rows' generalizing db rows with
  | nil => exact ⟨db, rfl, by rwa [List.append_nil]⟩
  | cons row rows' ih =>
    rw [List.append_cons] at hw ⊢
    obtain ⟨db₁, hwrite, h₁⟩ := h.write (hw.sublist (List.sublist_append_left _ _))
    obtain ⟨db', hrest, h'⟩ := ih h₁ hw
    exact ⟨db', by rw [List.foldlM_cons, hwrite]; exact hrest, h'⟩

/-! ### `resume_from` -/

/-- The same progress in both databases. -/
def SameProgress (db db' : RecoveryPart S K D) : Prop :=
  ∀ row, row ∈ allProgress db ↔ row ∈ allProgress db'

theorem max?_congr {l l' : List ℕ} (h : ∀ n, n ∈ l ↔ n ∈ l') : l.max? = l'.max? := by
  ext n
  simp only [List.max?_eq_some_iff, h]

theorem min?_congr {l l' : List ℕ} (h : ∀ n, n ∈ l ↔ n ∈ l') : l.min? = l'.min? := by
  ext n
  simp only [List.min?_eq_some_iff, h]

theorem mem_map_congr {α β : Type} {l l' : List α} (f : α → β) (h : ∀ x, x ∈ l ↔ x ∈ l') (y : β) :
    y ∈ l.map f ↔ y ∈ l'.map f := by
  simp only [List.mem_map, h]

theorem filter_notMem_congr {l l' : List ℕ} (h : ∀ n, n ∈ l ↔ n ∈ l') (expected : List ℕ) :
    (expected.filter fun n => n ∉ l) = expected.filter fun n => n ∉ l' := by
  refine List.filter_congr fun n _ => ?_
  rw [decide_eq_decide, h]

theorem eq_nil_congr {l l' : List ℕ} (h : ∀ n, n ∈ l ↔ n ∈ l') : l = [] ↔ l' = [] := by
  simp only [List.eq_nil_iff_forall_not_mem, h]

section Same

variable {db db' : RecoveryPart S K D}

theorem SameProgress.parts (h : SameProgress db db') (r : PartitionMeta) :
    r ∈ db.parts ↔ r ∈ db'.parts := by
  simpa using h (.part r)

theorem SameProgress.exs (h : SameProgress db db') (r : ExecutionMeta) :
    r ∈ db.exs ↔ r ∈ db'.exs := by
  simpa using h (.ex r)

theorem SameProgress.fronts (h : SameProgress db db') (r : FrontierMeta) :
    r ∈ db.fronts ↔ r ∈ db'.fronts := by
  simpa using h (.front r)

theorem SameProgress.commits (h : SameProgress db db') (r : CommitMeta) :
    r ∈ db.commits ↔ r ∈ db'.commits := by
  simpa using h (.commit r)

theorem SameProgress.maxExNum (h : SameProgress db db') : maxExNum db = maxExNum db' :=
  max?_congr (mem_map_congr _ h.exs)

/-- There is only one row of the last execution. -/
theorem SameProgress.maxEx (h : SameProgress db db') : maxEx db = maxEx db' := by
  by_cases hnone : ∀ m, m ∉ db.exs
  · have hrows : db.exs.rows = [] := List.eq_nil_iff_forall_not_mem.mpr hnone
    have hrows' : db'.exs.rows = [] :=
      List.eq_nil_iff_forall_not_mem.mpr fun m hm => hnone m ((h.exs m).mpr hm)
    rw [Recovery.maxEx, Recovery.maxEx, hrows, hrows']
    rfl
  · push Not at hnone
    obtain ⟨m₀, hm₀⟩ := hnone
    obtain ⟨m, hm⟩ := exists_isLastEx hm₀
    have hm' : IsLastEx (· ∈ db'.exs) m :=
      ⟨(h.exs m).mp hm.1, fun m' hin => hm.2 m' ((h.exs m').mpr hin)⟩
    rw [hm.maxEx_eq, hm'.maxEx_eq]

theorem SameProgress.defaultProgress (h : SameProgress db db') :
    defaultProgress db = defaultProgress db' := by
  rw [Recovery.defaultProgress, Recovery.defaultProgress, h.maxEx]

theorem SameProgress.mem_maxProgress (h : SameProgress db db') (p : (ℕ × ℕ) × ℕ) :
    p ∈ maxProgress db ↔ p ∈ maxProgress db' := by
  have hrows : ∀ r, r ∈ (explicitProgress db ++ Recovery.defaultProgress db).dedup ↔
      r ∈ (explicitProgress db' ++ Recovery.defaultProgress db').dedup := by
    intro r
    have hfront : r ∈ db.fronts.rows ↔ r ∈ db'.fronts.rows := h.fronts r
    simp only [List.mem_dedup, List.mem_append, explicitProgress, List.mem_filter, h.maxExNum,
      h.defaultProgress, hfront]
  obtain ⟨g, v⟩ := p
  simp only [maxProgress, mem_groupMax, hrows]

/-- All rows of the query are of the last execution. -/
theorem exNum_of_mem_maxProgress {p : (ℕ × ℕ) × ℕ} (hp : p ∈ maxProgress db) :
    maxExNum db = some p.1.1 := by
  obtain ⟨⟨n, w⟩, e⟩ := p
  obtain ⟨⟨r, hr, hkey, -⟩, -⟩ := mem_groupMax.mp hp
  obtain ⟨rfl, -⟩ : r.exNum = n ∧ r.workerIndex = w := Prod.mk.inj hkey
  rcases List.mem_append.mp (List.mem_dedup.mp hr) with hr | hr
  · exact (of_decide_eq_true (List.mem_filter.mp hr).2).symm
  · obtain ⟨w, -, hr⟩ := List.mem_flatMap.mp hr
    obtain ⟨m, hm, rfl⟩ := List.mem_map.mp hr
    exact (of_decide_eq_true (List.mem_filter.mp hm).2).symm

/-- The row of the query, of whichever worker it is. -/
theorem nextResume_of_min? {e : ℕ} (hmin : ((maxProgress db).map Prod.snd).min? = some e) :
    nextResume db = (Recovery.maxExNum db).bind fun n =>
      (toSql (n + 1)).map fun exNum => ⟨exNum, e⟩ := by
  obtain ⟨p, hp, hpe⟩ := List.mem_map.mp (List.min?_eq_some_iff.mp hmin).1
  have hsome : ((maxProgress db).find? fun p => p.2 = e).isSome := by
    rw [List.find?_isSome]
    exact ⟨p, hp, decide_eq_true hpe⟩
  obtain ⟨q, hq⟩ := Option.isSome_iff_exists.mp hsome
  have hnum := exNum_of_mem_maxProgress (List.mem_of_find?_eq_some hq)
  unfold nextResume
  rw [hmin, hnum]
  show Option.bind ((maxProgress db).find? _) _ = _
  rw [hq]
  show Option.bind (toSql (q.1.1 + 1)) _ = (toSql (q.1.1 + 1)).map _
  cases toSql (q.1.1 + 1) <;> rfl

theorem SameProgress.nextResume (h : SameProgress db db') : nextResume db = nextResume db' := by
  have hmin := min?_congr (mem_map_congr Prod.snd h.mem_maxProgress)
  cases hdb : ((maxProgress db).map Prod.snd).min? with
  | none =>
    have hdb' := hmin.symm.trans hdb
    rw [Recovery.nextResume, Recovery.nextResume, hdb, hdb']
  | some e => rw [nextResume_of_min? hdb, nextResume_of_min? (hmin.symm.trans hdb), h.maxExNum]

/-- The partition counts are the same but for their order. -/
theorem SameProgress.partCounts (h : SameProgress db db') :
    (db.parts.rows.map PartitionMeta.partCount).dedup.Perm
      (db'.parts.rows.map PartitionMeta.partCount).dedup := by
  refine (List.perm_ext_iff_of_nodup (List.nodup_dedup _) (List.nodup_dedup _)).mpr fun c => ?_
  rw [List.mem_dedup, List.mem_dedup]
  exact mem_map_congr _ h.parts c

/-- The partitions that have been committed past an epoch. -/
theorem SameProgress.mem_stateMissing (h : SameProgress db db') (e i : ℕ) :
    i ∈ (db.commits.rows.filter fun r => e < r.commitEpoch).map CommitMeta.partIndex ↔
      i ∈ (db'.commits.rows.filter fun r => e < r.commitEpoch).map CommitMeta.partIndex := by
  refine mem_map_congr _ (fun r => ?_) i
  rw [List.mem_filter, List.mem_filter]
  exact and_congr_left' (h.commits r)

/-- **`resume_from` depends only on which rows there are**, not on the order in which they have been
written. -/
theorem SameProgress.resumeFrom (h : SameProgress db db') : resumeFrom db = resumeFrom db' := by
  have hcounts := h.partCounts
  have hmissing := filter_notMem_congr (mem_map_congr PartitionMeta.partIndex h.parts)
  unfold Recovery.resumeFrom
  rw [h.nextResume]
  rcases hdb : (db.parts.rows.map PartitionMeta.partCount).dedup with _ | ⟨c, _ | ⟨c', rest⟩⟩
  · rw [hdb] at hcounts
    rw [List.nil_perm.mp hcounts]
  · rw [hdb] at hcounts
    rw [← List.singleton_perm.mp hcounts]
    show (if ((List.range c).filter fun i => i ∉ db.parts.rows.map PartitionMeta.partIndex) ≠ []
        then _ else (Recovery.nextResume db').bind _) =
      (if ((List.range c).filter fun i => i ∉ db'.parts.rows.map PartitionMeta.partIndex) ≠ []
        then _ else (Recovery.nextResume db').bind _)
    rw [hmissing]
    refine if_congr Iff.rfl rfl (Option.bind_congr fun rf _ => ?_)
    have hlate := h.mem_stateMissing rf.resumeEpoch
    refine if_congr (not_congr (eq_nil_congr hlate)) ?_ rfl
    exact congrArg (fun delayed => some (Except.error (ResumeError.inconsistentPartitions delayed c)))
      (filter_notMem_congr hlate (List.range c))
  -- the order matters to neither of two databases with several partition counts
  · rw [hdb] at hcounts
    rcases hdb' : (db'.parts.rows.map PartitionMeta.partCount).dedup with _ | ⟨d, _ | ⟨d', rest'⟩⟩
    · rw [hdb', List.perm_nil] at hcounts
      cases hcounts
    · rw [hdb', List.perm_singleton] at hcounts
      cases hcounts
    · rfl

end Same

end Recovery
end Bytewax
