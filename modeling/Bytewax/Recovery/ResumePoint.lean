import Bytewax.Recovery.Resume
import Mathlib.Data.List.MinMax

/-!
# Bytewax.Recovery.ResumePoint — what `resume_from` answers

For all contents of the progress tables: which error is raised when, the resume point in terms of
the last execution and what its workers recorded, and what this means for executions that resume
one after the other on tables that are kept.
-/

namespace Bytewax

namespace Recovery

open Sql

variable {S K D : Type}

/-! ### The resume point -/

/-- What the `CHECK`s of the schema admit. -/
structure Admitted (db : RecoveryPart S K D) : Prop where
  parts : ∀ r ∈ db.parts, 0 < r.partCount ∧ r.partIndex < r.partCount
  exs : ∀ r ∈ db.exs, 0 < r.workerCount

/-- The workers that the last execution has frontiers of are workers of it. -/
def FrontsInRange (db : RecoveryPart S K D) : Prop :=
  ∀ m, IsLastEx (· ∈ db.exs) m → ∀ r ∈ db.fronts, r.exNum = m.exNum → r.workerIndex < m.workerCount

/-- The frontier that a worker of an execution recorded, if any. -/
def recordedFrontier (db : RecoveryPart S K D) (exNum workerIndex : ℕ) : Option ℕ :=
  (db.fronts.rows.find? fun r => r.key = (exNum, workerIndex)).map FrontierMeta.workerFrontier

/-- Where a worker of an execution got to. -/
def progressOf (db : RecoveryPart S K D) (m : ExecutionMeta) (workerIndex : ℕ) : ℕ :=
  max m.resumeEpoch ((recordedFrontier db m.exNum workerIndex).getD m.resumeEpoch)

/-- The resume point: the execution after the last one, at the epoch of its slowest worker. -/
structure IsResumePoint (db : RecoveryPart S K D) (resumeFrom : ResumeFrom) : Prop where
  start : (∀ m, m ∉ db.exs) → resumeFrom = ⟨0, 1⟩
  next : ∀ m, IsLastEx (· ∈ db.exs) m → resumeFrom.exNum = m.exNum + 1 ∧
    ((List.range m.workerCount).map (progressOf db m)).min? = some resumeFrom.resumeEpoch

/-- No partition has been found. -/
def NoParts (db : RecoveryPart S K D) : Prop := ∀ r, r ∉ db.parts

/-- The partitions name two different counts. -/
def TwoCounts (db : RecoveryPart S K D) : Prop :=
  ∃ r ∈ db.parts, ∃ r' ∈ db.parts, r.partCount ≠ r'.partCount

/-- An index below the count is not there. -/
def Lacks (db : RecoveryPart S K D) (index : ℕ) : Prop :=
  (∃ r ∈ db.parts, index < r.partCount) ∧ ∀ r ∈ db.parts, r.partIndex ≠ index

/-- A partition has committed past an epoch. -/
def CommittedPast (db : RecoveryPart S K D) (epoch : ℕ) : Prop :=
  ∃ r ∈ db.commits, epoch < r.commitEpoch

section Point

variable {db : RecoveryPart S K D} {m : ExecutionMeta}

theorem recordedFrontier_eq_some {n w e : ℕ} :
    recordedFrontier db n w = some e ↔
      ∃ r ∈ db.fronts, r.key = (n, w) ∧ r.workerFrontier = e := by
  unfold recordedFrontier
  rw [Option.map_eq_some_iff]
  constructor
  · rintro ⟨r, hr, rfl⟩
    exact ⟨r, List.mem_of_find?_eq_some hr, by simpa using List.find?_some hr, rfl⟩
  · rintro ⟨r, hr, hkey, rfl⟩
    have hsome : (db.fronts.rows.find? fun r => r.key = (n, w)).isSome := by
      rw [List.find?_isSome]
      exact ⟨r, hr, decide_eq_true hkey⟩
    obtain ⟨r', hr'⟩ := Option.isSome_iff_exists.1 hsome
    have hkey' : r'.key = (n, w) := by simpa using List.find?_some hr'
    rw [Table.eq_of_pk_eq (List.mem_of_find?_eq_some hr') hr (hkey'.trans hkey.symm)] at hr'
    exact ⟨r, hr', rfl⟩

theorem resumeEpoch_le_progressOf (db : RecoveryPart S K D) (m : ExecutionMeta) (w : ℕ) :
    m.resumeEpoch ≤ progressOf db m w := le_max_left _ _

/-- A worker got to its recorded frontier, if that is past the epoch it resumed from. -/
theorem workerAt_progressOf (db : RecoveryPart S K D) (m : ExecutionMeta) (w : ℕ) :
    WorkerAt (· ∈ db.fronts) m w (progressOf db m w) := by
  refine ⟨?_, resumeEpoch_le_progressOf db m w, fun r hr hkey => ?_⟩
  · unfold progressOf
    cases hf : recordedFrontier db m.exNum w with
    | none => exact .inl (max_self _)
    | some e =>
      rcases le_total e m.resumeEpoch with hle | hle
      · exact .inl (max_eq_left hle)
      · obtain ⟨r, hr, hkey, he⟩ := recordedFrontier_eq_some.1 hf
        exact .inr ⟨r, hr, hkey, he.trans (max_eq_right hle).symm⟩
  · unfold progressOf
    rw [recordedFrontier_eq_some.2 ⟨r, hr, hkey, rfl⟩]
    exact le_max_right _ _

theorem WorkerAt.eq {fronts : FrontierMeta → Prop} {w e e' : ℕ} (h : WorkerAt fronts m w e)
    (h' : WorkerAt fronts m w e') : e ≤ e' := by
  rcases h.attained with rfl | ⟨r, hr, hkey, rfl⟩
  · exact h'.resumeEpoch_le
  · exact h'.front_le r hr hkey

/-- The least of the workers' progress is where all of them got to. -/
theorem allAt_of_min? {e : ℕ}
    (h : ((List.range m.workerCount).map (progressOf db m)).min? = some e) :
    AllAt (· ∈ db.fronts) m e := by
  rw [List.min?_eq_some_iff] at h
  obtain ⟨hmem, hle⟩ := h
  obtain ⟨w, hw, rfl⟩ := List.mem_map.1 hmem
  refine ⟨⟨w, List.mem_range.1 hw, workerAt_progressOf db m w⟩, fun w' hw' e' hat => ?_⟩
  refine (hle _ (List.mem_map_of_mem (List.mem_range.2 hw'))).trans ?_
  exact (workerAt_progressOf db m w').eq hat

theorem exists_min?_progressOf (db : RecoveryPart S K D) (h : 0 < m.workerCount) :
    ∃ e, ((List.range m.workerCount).map (progressOf db m)).min? = some e := by
  refine Option.isSome_iff_exists.1 (List.isSome_min?_of_ne_nil ?_)
  rw [Ne, List.map_eq_nil_iff, List.range_eq_nil]
  omega

theorem resumeEpoch_le_of_min? {e : ℕ}
    (h : ((List.range m.workerCount).map (progressOf db m)).min? = some e) :
    m.resumeEpoch ≤ e := by
  rw [List.min?_eq_some_iff] at h
  obtain ⟨w, -, rfl⟩ := List.mem_map.1 h.1
  exact resumeEpoch_le_progressOf db m w

theorem IsLastEx.unique {m' : ExecutionMeta} (h : IsLastEx (· ∈ db.exs) m)
    (h' : IsLastEx (· ∈ db.exs) m') : m = m' :=
  Table.eq_of_pk_eq h.1 h'.1 (le_antisymm (h'.2 m h.1) (h.2 m' h'.1))

theorem exists_isLastEx {m₀ : ExecutionMeta} (h : m₀ ∈ db.exs) :
    ∃ m, IsLastEx (· ∈ db.exs) m := by
  obtain ⟨n, hn⟩ := Option.isSome_iff_exists.1 (List.isSome_max?_of_mem
    (List.mem_map_of_mem (f := ExecutionMeta.exNum) h))
  rw [List.max?_eq_some_iff] at hn
  obtain ⟨m, hm, rfl⟩ := List.mem_map.1 hn.1
  exact ⟨m, hm, fun m' hm' => hn.2 _ (List.mem_map_of_mem hm')⟩

/-- There is one resume point. -/
theorem exists_isResumePoint (hdb : Admitted db) : ∃ rf, IsResumePoint db rf := by
  by_cases hexs : ∀ m, m ∉ db.exs
  · exact ⟨⟨0, 1⟩, fun _ => rfl, fun m hm => absurd hm.1 (hexs m)⟩
  · push Not at hexs
    obtain ⟨m₀, hm₀⟩ := hexs
    obtain ⟨m, hm⟩ := exists_isLastEx hm₀
    obtain ⟨e, he⟩ := exists_min?_progressOf db (hdb.exs m hm.1)
    refine ⟨⟨m.exNum + 1, e⟩, fun h => absurd hm.1 (h m), fun m' hm' => ?_⟩
    obtain rfl := hm.unique hm'
    exact ⟨rfl, he⟩

/-- **The query** has the resume point in its one row, unless the number of the next execution is
no SQLite integer. -/
theorem IsResumePoint.nextResume_eq {rf : ResumeFrom} (h : IsResumePoint db rf)
    (hfronts : FrontsInRange db) :
    nextResume db = if rf.exNum ≤ i64Max then some rf else none := by
  by_cases hexs : ∀ m, m ∉ db.exs
  · rw [nextResume_of_empty hexs, h.start hexs]
    exact (if_pos (by decide)).symm
  · push Not at hexs
    obtain ⟨m₀, hm₀⟩ := hexs
    obtain ⟨m, hm⟩ := exists_isLastEx hm₀
    obtain ⟨hnum, hmin⟩ := h.next m hm
    rw [hm.nextResume_eq (hfronts m hm) (allAt_of_min? hmin), ← hnum, toSql]
    split_ifs <;> rfl

end Point

/-! ### The errors -/

section Errors

variable {db : RecoveryPart S K D}

theorem mem_partCounts {c : ℕ} :
    c ∈ (db.parts.rows.map PartitionMeta.partCount).dedup ↔ ∃ r ∈ db.parts, r.partCount = c := by
  rw [List.mem_dedup, List.mem_map]
  exact Iff.rfl

theorem partCounts_eq_nil :
    (db.parts.rows.map PartitionMeta.partCount).dedup = [] ↔ NoParts db := by
  rw [List.eq_nil_iff_forall_not_mem]
  constructor
  · intro h r hr
    exact h _ (mem_partCounts.2 ⟨r, hr, rfl⟩)
  · intro h c hc
    obtain ⟨r, hr, -⟩ := mem_partCounts.1 hc
    exact h r hr

/-- The counts differ exactly if there are two of them. -/
theorem twoCounts_iff :
    TwoCounts db ↔
      ∃ c c' cs, (db.parts.rows.map PartitionMeta.partCount).dedup = c :: c' :: cs := by
  constructor
  · rintro ⟨r, hr, r', hr', hne⟩
    have hc := mem_partCounts.2 ⟨r, hr, rfl⟩
    have hc' := mem_partCounts.2 ⟨r', hr', rfl⟩
    generalize (db.parts.rows.map PartitionMeta.partCount).dedup = cs at hc hc' ⊢
    rcases cs with _ | ⟨c, _ | ⟨c', cs⟩⟩
    · simp at hc
    · exact absurd ((List.mem_singleton.1 hc).trans (List.mem_singleton.1 hc').symm) hne
    · exact ⟨c, c', cs, rfl⟩
  · rintro ⟨c, c', cs, h⟩
    obtain ⟨r, hr, rfl⟩ := mem_partCounts.1 (h ▸ List.mem_cons_self : c ∈ _)
    obtain ⟨r', hr', rfl⟩ := mem_partCounts.1
      (h ▸ List.mem_cons_of_mem _ List.mem_cons_self : c' ∈ _)
    refine ⟨r, hr, r', hr', fun he => ?_⟩
    have hnd := List.nodup_dedup (db.parts.rows.map PartitionMeta.partCount)
    rw [h, he] at hnd
    exact (List.nodup_cons.1 hnd).1 List.mem_cons_self

/-- The one count that all partitions name. -/
def IsCount (db : RecoveryPart S K D) (partCount : ℕ) : Prop :=
  (∃ r, r ∈ db.parts) ∧ ∀ r ∈ db.parts, r.partCount = partCount

theorem exists_isCount (hno : ¬ NoParts db) (htwo : ¬ TwoCounts db) : ∃ c, IsCount db c := by
  unfold NoParts at hno
  push Not at hno
  obtain ⟨r, hr⟩ := hno
  refine ⟨r.partCount, ⟨r, hr⟩, fun r' hr' => ?_⟩
  by_contra hne
  exact htwo ⟨r', hr', r, hr, hne⟩

theorem IsCount.partCounts_eq {c : ℕ} (h : IsCount db c) :
    (db.parts.rows.map PartitionMeta.partCount).dedup = [c] := by
  refine List.perm_singleton.1
    ((List.perm_ext_iff_of_nodup (List.nodup_dedup _) (List.nodup_singleton _)).2 fun c' => ?_)
  rw [mem_partCounts, List.mem_singleton]
  constructor
  · rintro ⟨r, hr, rfl⟩
    exact h.2 r hr
  · rintro rfl
    obtain ⟨r, hr⟩ := h.1
    exact ⟨r, hr, h.2 r hr⟩

/-- The partitions that the error lists are those that are not there. -/
theorem IsCount.mem_missing {c : ℕ} (h : IsCount db c) {i : ℕ} :
    i ∈ (List.range c).filter (fun i => i ∉ db.parts.rows.map PartitionMeta.partIndex) ↔
      Lacks db i := by
  rw [List.mem_filter, List.mem_range, decide_eq_true_eq, List.mem_map]
  constructor
  · rintro ⟨hi, hnot⟩
    obtain ⟨r, hr⟩ := h.1
    exact ⟨⟨r, hr, (h.2 r hr).symm ▸ hi⟩, fun r' hr' he => hnot ⟨r', hr', he⟩⟩
  · rintro ⟨⟨r, hr, hi⟩, hnot⟩
    refine ⟨h.2 r hr ▸ hi, ?_⟩
    rintro ⟨r', hr', he⟩
    exact hnot r' hr' he

theorem resumeFrom_of_noParts (h : NoParts db) : resumeFrom db = some (.error .noPartitions) := by
  unfold resumeFrom
  rw [partCounts_eq_nil.2 h]

theorem resumeFrom_of_twoCounts (h : TwoCounts db) :
    resumeFrom db = some (.error .inconsistentPartCounts) := by
  obtain ⟨c, c', cs, hcounts⟩ := twoCounts_iff.1 h
  unfold resumeFrom
  rw [hcounts]

theorem IsCount.resumeFrom_of_lacks {c i : ℕ} (h : IsCount db c) (hi : Lacks db i) :
    ∃ missing, resumeFrom db = some (.error (.missingPartitions missing c)) ∧
      ∀ i, i ∈ missing ↔ Lacks db i := by
  refine ⟨_, ?_, fun i => h.mem_missing⟩
  unfold resumeFrom
  rw [h.partCounts_eq]
  exact if_pos (List.ne_nil_of_mem (h.mem_missing.2 hi))

/-- With all the partitions there, `resume_from` is the query and a look at the commits. -/
theorem IsCount.resumeFrom_of_all {c : ℕ} (h : IsCount db c) (hall : ∀ i, ¬ Lacks db i) :
    (∀ rf, nextResume db = some rf → ¬ CommittedPast db rf.resumeEpoch →
      resumeFrom db = some (.ok rf)) ∧
    (∀ rf, nextResume db = some rf → CommittedPast db rf.resumeEpoch →
      ∃ delayed, resumeFrom db = some (.error (.inconsistentPartitions delayed c))) ∧
    (nextResume db = none → resumeFrom db = none) := by
  have hmissing : (List.range c).filter
      (fun i => i ∉ db.parts.rows.map PartitionMeta.partIndex) = [] := by
    rw [List.eq_nil_iff_forall_not_mem]
    exact fun i hi => hall i (h.mem_missing.1 hi)
  have hlate : ∀ epoch, (db.commits.rows.filter fun r => epoch < r.commitEpoch) = [] ↔
      ¬ CommittedPast db epoch := by
    intro epoch
    rw [List.filter_eq_nil_iff]
    simp only [decide_eq_true_eq]
    exact ⟨fun hnot ⟨r, hr, hlt⟩ => hnot r hr hlt, fun hnot r hr hlt => hnot ⟨r, hr, hlt⟩⟩
  have heq : resumeFrom db = (nextResume db).bind fun rf =>
      if (db.commits.rows.filter fun r => rf.resumeEpoch < r.commitEpoch).map
        CommitMeta.partIndex ≠ [] then
        some (.error (.inconsistentPartitions ((List.range c).filter fun i =>
          i ∉ (db.commits.rows.filter fun r => rf.resumeEpoch < r.commitEpoch).map
            CommitMeta.partIndex) c))
      else some (.ok rf) := by
    unfold resumeFrom
    rw [h.partCounts_eq]
    exact if_neg (not_not.2 hmissing)
  refine ⟨fun rf hnext hnot => ?_, fun rf hnext hlate' => ?_, fun hnext => ?_⟩
  · rw [heq, hnext]
    refine if_neg (not_not.2 ?_)
    rw [(hlate _).2 hnot]
    rfl
  · rw [heq, hnext]
    refine ⟨_, if_pos ?_⟩
    rw [Ne, List.map_eq_nil_iff, hlate, not_not]
    exact hlate'
  · rw [heq, hnext]
    rfl

/-- With all the partitions there, commits are all that can be wrong. -/
theorem IsCount.error_of_all {c : ℕ} (h : IsCount db c) (hall : ∀ i, ¬ Lacks db i)
    {error : ResumeError} (herror : resumeFrom db = some (.error error)) :
    ∃ delayed, error = .inconsistentPartitions delayed c := by
  obtain ⟨hok, hlate, hnone⟩ := h.resumeFrom_of_all hall
  cases hnext : nextResume db with
  | none =>
    rw [hnone hnext] at herror
    cases herror
  | some rf =>
    by_cases hpast : CommittedPast db rf.resumeEpoch
    · obtain ⟨delayed, hr⟩ := hlate rf hnext hpast
      rw [hr] at herror
      cases herror
      exact ⟨delayed, rfl⟩
    · rw [hok rf hnext hpast] at herror
      cases herror

/-- What `resume_from` comes to: one of the three errors of the partitions, or the query. -/
theorem resumeFrom_cases (db : RecoveryPart S K D) :
    NoParts db ∧ resumeFrom db = some (.error .noPartitions) ∨
    TwoCounts db ∧ resumeFrom db = some (.error .inconsistentPartCounts) ∨
    (¬ TwoCounts db ∧ ∃ i, Lacks db i) ∧
      (∃ missing c, resumeFrom db = some (.error (.missingPartitions missing c))) ∨
    (∃ c, IsCount db c) ∧ (∀ i, ¬ Lacks db i) ∧ ∀ error, resumeFrom db = some (.error error) →
      ∃ delayed c, error = .inconsistentPartitions delayed c := by
  by_cases hno : NoParts db
  · exact .inl ⟨hno, resumeFrom_of_noParts hno⟩
  by_cases htwo : TwoCounts db
  · exact .inr (.inl ⟨htwo, resumeFrom_of_twoCounts htwo⟩)
  obtain ⟨c, hc⟩ := exists_isCount hno htwo
  by_cases hall : ∀ i, ¬ Lacks db i
  · refine .inr (.inr (.inr ⟨⟨c, hc⟩, hall, fun error herror => ?_⟩))
    obtain ⟨delayed, h⟩ := hc.error_of_all hall herror
    exact ⟨delayed, c, h⟩
  · push Not at hall
    obtain ⟨i, hi⟩ := hall
    obtain ⟨missing, hmissing, -⟩ := hc.resumeFrom_of_lacks hi
    exact .inr (.inr (.inl ⟨⟨htwo, i, hi⟩, missing, c, hmissing⟩))

theorem NoParts.not_lacks (h : NoParts db) (i : ℕ) : ¬ Lacks db i := fun ⟨⟨r, hr, _⟩, _⟩ => h r hr

theorem resumeFrom_eq_noPartitions_iff :
    resumeFrom db = some (.error .noPartitions) ↔ NoParts db := by
  refine ⟨fun herror => ?_, resumeFrom_of_noParts⟩
  rcases resumeFrom_cases db with ⟨h, -⟩ | ⟨-, hr⟩ | ⟨-, missing, c, hr⟩ | ⟨-, -, h⟩
  · exact h
  · simp [hr] at herror
  · simp [hr] at herror
  · obtain ⟨delayed, c, he⟩ := h _ herror
    cases he

theorem resumeFrom_eq_inconsistentPartCounts_iff :
    resumeFrom db = some (.error .inconsistentPartCounts) ↔ TwoCounts db := by
  refine ⟨fun herror => ?_, resumeFrom_of_twoCounts⟩
  rcases resumeFrom_cases db with ⟨-, hr⟩ | ⟨h, -⟩ | ⟨-, missing, c, hr⟩ | ⟨-, -, h⟩
  · simp [hr] at herror
  · exact h
  · simp [hr] at herror
  · obtain ⟨delayed, c, he⟩ := h _ herror
    cases he

theorem resumeFrom_eq_missingPartitions_iff :
    (∃ missing c, resumeFrom db = some (.error (.missingPartitions missing c))) ↔
      ¬ TwoCounts db ∧ ∃ i, Lacks db i := by
  constructor
  · rintro ⟨missing, c, herror⟩
    rcases resumeFrom_cases db with ⟨-, hr⟩ | ⟨-, hr⟩ | ⟨h, -⟩ | ⟨-, -, h⟩
    · simp [hr] at herror
    · simp [hr] at herror
    · exact h
    · obtain ⟨delayed, c, he⟩ := h _ herror
      cases he
  · rintro ⟨htwo, i, hi⟩
    obtain ⟨c, hc⟩ := exists_isCount (fun hno => hno.not_lacks i hi) htwo
    obtain ⟨missing, h, -⟩ := hc.resumeFrom_of_lacks hi
    exact ⟨missing, c, h⟩

end Errors

/-! ### Executions on tables that are kept -/

/-- An execution on the progress tables: it resumes and is recorded, next to those before it.  What
it writes to the other tables does not matter here. -/
structure Executes (db : RecoveryPart S K D) (rf : ResumeFrom) (db' : RecoveryPart S K D) :
    Prop where
  inRange : FrontsInRange db
  resume : resumeFrom db = some (.ok rf)
  recorded : ∃ workerCount db₁,
    ExecutionMetaWriter.writeBatch db [⟨rf.exNum, workerCount, rf.resumeEpoch⟩] = some db₁ ∧
    db'.exs = db₁.exs

/-- An execution that stops before it is recorded: it resumes, and leaves at most frontiers under
its own number. -/
structure Stops (db : RecoveryPart S K D) (rf : ResumeFrom) (db' : RecoveryPart S K D) : Prop where
  inRange : FrontsInRange db
  resume : resumeFrom db = some (.ok rf)
  exs : db'.exs = db.exs
  fronts : ∀ r : FrontierMeta, r.exNum ≠ rf.exNum → (r ∈ db'.fronts ↔ r ∈ db.fronts)

/-- An execution that resumed: from where, and whether it got to the point of being recorded. -/
structure Attempt where
  resumed : ResumeFrom
  recorded : Bool

/-- Executions one after the other. -/
inductive Successive : RecoveryPart S K D → List Attempt → RecoveryPart S K D → Prop
  | nil (db : RecoveryPart S K D) : Successive db [] db
  | recorded {db db₁ db' : RecoveryPart S K D} {rf : ResumeFrom} {exs : List Attempt}
    (head : Executes db rf db₁) (tail : Successive db₁ exs db') :
    Successive db (⟨rf, true⟩ :: exs) db'
  | stopped {db db₁ db' : RecoveryPart S K D} {rf : ResumeFrom} {exs : List Attempt}
    (head : Stops db rf db₁) (tail : Successive db₁ exs db') :
    Successive db (⟨rf, false⟩ :: exs) db'

/-- The later of two executions has the greater number if the earlier one was recorded, and no
smaller one in any case, and it resumes no earlier. -/
structure Follows (ex ex' : Attempt) : Prop where
  le : ex.resumed.exNum ≤ ex'.resumed.exNum
  lt : ex.recorded = true → ex.resumed.exNum < ex'.resumed.exNum
  resumeEpoch_le : ex.resumed.resumeEpoch ≤ ex'.resumed.resumeEpoch

theorem Follows.trans {ex ex' ex'' : Attempt} (h : Follows ex ex') (h' : Follows ex' ex'') :
    Follows ex ex'' where
  le := h.le.trans h'.le
  lt hrecorded := (h.lt hrecorded).trans_le h'.le
  resumeEpoch_le := h.resumeEpoch_le.trans h'.resumeEpoch_le

section Executions

variable {db db' : RecoveryPart S K D} {rf rf' : ResumeFrom}

/-- What `resume_from` returns without an error is the resume point. -/
theorem isResumePoint_of_resumeFrom (hexs : ∀ m ∈ db.exs, 0 < m.workerCount)
    (hfronts : FrontsInRange db) (h : resumeFrom db = some (.ok rf)) : IsResumePoint db rf := by
  have hnext : nextResume db = some rf := by
    unfold resumeFrom at h
    split at h
    · cases h
    · dsimp only at h
      split at h
      · cases h
      · obtain ⟨rf', hnext, h⟩ := Option.bind_eq_some_iff.1 h
        split at h
        · cases h
        · cases h
          exact hnext
    · cases h
  by_cases hnone : ∀ m, m ∉ db.exs
  · rw [nextResume_of_empty hnone] at hnext
    cases hnext
    exact ⟨fun _ => rfl, fun m hm => absurd hm.1 (hnone m)⟩
  · refine ⟨fun h => absurd h hnone, fun m hm => ?_⟩
    obtain ⟨e, he⟩ := exists_min?_progressOf db (hexs m hm.1)
    rw [hm.nextResume_eq (hfronts m hm) (allAt_of_min? he)] at hnext
    obtain ⟨n, hn, rfl⟩ := Option.map_eq_some_iff.1 hnext
    exact ⟨(toSql_eq_some.1 hn).2, he⟩

/-- Once it is recorded, an execution is the last one. -/
theorem Executes.spec (hexs : ∀ m ∈ db.exs, 0 < m.workerCount) (h : Executes db rf db') :
    (∀ m ∈ db'.exs, 0 < m.workerCount) ∧
      ∃ m, IsLastEx (· ∈ db'.exs) m ∧ m.exNum = rf.exNum ∧ m.resumeEpoch = rf.resumeEpoch := by
  have hpoint := isResumePoint_of_resumeFrom hexs h.inRange h.resume
  obtain ⟨workerCount, db₁, h₁, hexs'⟩ := h.recorded
  have hpos : 0 < workerCount := by
    rw [ExecutionMetaWriter.writeBatch, List.foldlM_cons] at h₁
    obtain ⟨s, hs, -⟩ := Option.bind_eq_some_iff.1 h₁
    exact (writeEx_eq_some hs).1
  have hmem : ∀ m, m ∈ db'.exs ↔ m = ⟨rf.exNum, workerCount, rf.resumeEpoch⟩ ∨ m ∈ db.exs := by
    intro m
    rw [hexs', exs_writeBatch h₁, List.mem_singleton]
  -- no execution before has this number
  have hlt : ∀ m ∈ db.exs, m.exNum < rf.exNum := by
    intro m hm
    obtain ⟨m', hm'⟩ := exists_isLastEx hm
    rw [(hpoint.next m' hm').1]
    exact Nat.lt_succ_of_le (hm'.2 m hm)
  refine ⟨fun m hm => ?_, ⟨rf.exNum, workerCount, rf.resumeEpoch⟩, ⟨?_, fun m hm => ?_⟩, rfl, rfl⟩
  · rcases (hmem m).1 hm with rfl | hm
    · exact hpos
    · exact hexs m hm
  · exact (hmem _).2 (.inl rfl)
  · rcases (hmem m).1 hm with rfl | hm
    · exact le_rfl
    · exact (hlt m hm).le

/-- An execution that was not recorded leaves the resume point where it was. -/
theorem Stops.isResumePoint (hexs : ∀ m ∈ db.exs, 0 < m.workerCount) (h : Stops db rf db')
    (hpoint : IsResumePoint db' rf') : rf' = rf := by
  have hfirst := isResumePoint_of_resumeFrom hexs h.inRange h.resume
  by_cases hnone : ∀ m, m ∉ db.exs
  · rw [hfirst.start hnone, hpoint.start (h.exs ▸ hnone)]
  · push Not at hnone
    obtain ⟨m₀, hm₀⟩ := hnone
    obtain ⟨m, hm⟩ := exists_isLastEx hm₀
    obtain ⟨hnum, hmin⟩ := hfirst.next m hm
    obtain ⟨hnum', hmin'⟩ := hpoint.next m (h.exs ▸ hm)
    -- it only wrote frontiers of its own number, which is not that of the last execution
    have hrecorded : ∀ w, recordedFrontier db' m.exNum w = recordedFrontier db m.exNum w := by
      intro w
      ext e
      rw [recordedFrontier_eq_some, recordedFrontier_eq_some]
      refine exists_congr fun r => and_congr_left fun ⟨hkey, _⟩ => h.fronts r ?_
      rw [(Prod.mk.inj hkey).1, hnum]
      exact Nat.ne_of_lt m.exNum.lt_succ_self
    have hprogress : progressOf db' m = progressOf db m := by
      funext w
      rw [progressOf, progressOf, hrecorded]
    rw [hprogress, hmin] at hmin'
    obtain ⟨exNum, resumeEpoch⟩ := rf
    obtain ⟨exNum', resumeEpoch'⟩ := rf'
    rw [ResumeFrom.mk.injEq]
    exact ⟨hnum'.trans hnum.symm, (Option.some.inj hmin').symm⟩

/-- The first of the executions resumes from what `resume_from` answers. -/
theorem Successive.head {ex : Attempt} {exs : List Attempt}
    (h : Successive db (ex :: exs) db') :
    FrontsInRange db ∧ resumeFrom db = some (.ok ex.resumed) := by
  cases h with
  | recorded head _ => exact ⟨head.inRange, head.resume⟩
  | stopped head _ => exact ⟨head.inRange, head.resume⟩

theorem Successive.isChain {exs : List Attempt} (hexs : ∀ m ∈ db.exs, 0 < m.workerCount)
    (h : Successive db exs db') : exs.IsChain Follows := by
  induction h with
  | nil => exact .nil
  | @recorded db db₁ db' rf exs head tail ih =>
    obtain ⟨hexs₁, m, hm, hnum, hepoch⟩ := head.spec hexs
    have hchain := ih hexs₁
    cases exs with
    | nil => exact .singleton _
    | cons next rest =>
      obtain ⟨hrange, hresume⟩ := tail.head
      obtain ⟨hnum', hmin⟩ := (isResumePoint_of_resumeFrom hexs₁ hrange hresume).next m hm
      have hlt : rf.exNum < next.resumed.exNum := by omega
      exact .cons_cons ⟨hlt.le, fun _ => hlt, hepoch ▸ resumeEpoch_le_of_min? hmin⟩ hchain
  | @stopped db db₁ db' rf exs head tail ih =>
    have hexs₁ : ∀ m ∈ db₁.exs, 0 < m.workerCount := by rwa [head.exs]
    have hchain := ih hexs₁
    cases exs with
    | nil => exact .singleton _
    | cons next rest =>
      obtain ⟨hrange, hresume⟩ := tail.head
      have hsame := head.isResumePoint hexs (isResumePoint_of_resumeFrom hexs₁ hrange hresume)
      refine .cons_cons ⟨?_, ?_, ?_⟩ hchain
      · rw [hsame]
      · rintro ⟨⟩
      · rw [hsame]

/-- Of any two executions the later one follows the earlier one. -/
theorem Successive.pairwise {exs : List Attempt} (hexs : ∀ m ∈ db.exs, 0 < m.workerCount)
    (h : Successive db exs db') : exs.Pairwise Follows := by
  have : IsTrans Attempt Follows := ⟨fun _ _ _ => Follows.trans⟩
  exact List.isChain_iff_pairwise.1 (h.isChain hexs)

end Executions

/-- **The resume point.**  `resume_from` raises an error for the partitions exactly as they are
none, of two counts, or one is missing; otherwise it answers with the resume point, or with an
error if a commit is past it.  The numbers of executions on tables that are kept do not decrease, and
increase after one that was recorded; their resume epochs do not decrease.  A last execution whose
successor's number is no SQLite integer is left out: there the query's row cannot be unpacked. -/
theorem resumeFrom_exact (db : RecoveryPart S K D) (hdb : Admitted db) (hrange : FrontsInRange db)
    (hnum : ∀ m ∈ db.exs, m.exNum < i64Max) :
    (resumeFrom db = some (.error .noPartitions) ↔ NoParts db) ∧
    (resumeFrom db = some (.error .inconsistentPartCounts) ↔ TwoCounts db) ∧
    ((∃ missing c, resumeFrom db = some (.error (.missingPartitions missing c))) ↔
      ¬ TwoCounts db ∧ ∃ i, Lacks db i) ∧
    (∃ rf, IsResumePoint db rf ∧
      (¬ NoParts db → ¬ TwoCounts db → (∀ i, ¬ Lacks db i) →
        (¬ CommittedPast db rf.resumeEpoch → resumeFrom db = some (.ok rf)) ∧
        (CommittedPast db rf.resumeEpoch →
          ∃ delayed c, resumeFrom db = some (.error (.inconsistentPartitions delayed c))))) ∧
    ∀ exs db', Successive db exs db' → exs.Pairwise Follows := by
  obtain ⟨rf, hpoint⟩ := exists_isResumePoint hdb
  have hfits : rf.exNum ≤ i64Max := by
    by_cases hexs : ∀ m, m ∉ db.exs
    · rw [hpoint.start hexs]
      decide
    · push Not at hexs
      obtain ⟨m₀, hm₀⟩ := hexs
      obtain ⟨m, hm⟩ := exists_isLastEx hm₀
      rw [(hpoint.next m hm).1]
      exact hnum m hm.1
  have hnext : nextResume db = some rf := (hpoint.nextResume_eq hrange).trans (if_pos hfits)
  refine ⟨resumeFrom_eq_noPartitions_iff, resumeFrom_eq_inconsistentPartCounts_iff,
    resumeFrom_eq_missingPartitions_iff, ⟨rf, hpoint, fun hno htwo hall => ?_⟩,
    fun exs db' h => h.pairwise hdb.exs⟩
  obtain ⟨c, hc⟩ := exists_isCount hno htwo
  obtain ⟨hok, hlate, -⟩ := hc.resumeFrom_of_all hall
  refine ⟨hok rf hnext, fun hpast => ?_⟩
  obtain ⟨delayed, h⟩ := hlate rf hnext hpast
  exact ⟨delayed, c, h⟩

/-- Three partitions of two executions; worker 1 of the last one never reported. -/
def twoExecutions : RecoveryPart ℕ ℕ ℕ where
  parts := ⟨[⟨0, 3⟩, ⟨1, 3⟩, ⟨2, 3⟩], by decide⟩
  exs := ⟨[⟨0, 2, 1⟩, ⟨1, 3, 11⟩], by decide⟩
  fronts := ⟨[⟨0, 0, 20⟩, ⟨0, 1, 11⟩, ⟨1, 2, 12⟩, ⟨1, 0, 10⟩], by decide⟩
  commits := ⟨[⟨0, 10⟩, ⟨1, 11⟩], by decide⟩
  snaps := Table.empty

/-- After one more, of two workers. -/
def thirdExecution : RecoveryPart ℕ ℕ ℕ :=
  { twoExecutions with
    exs := ⟨[⟨0, 2, 1⟩, ⟨1, 3, 11⟩, ⟨2, 2, 11⟩], by decide⟩
    fronts := ⟨[⟨0, 0, 20⟩, ⟨0, 1, 11⟩, ⟨1, 2, 12⟩, ⟨1, 0, 10⟩, ⟨2, 0, 13⟩, ⟨2, 1, 12⟩],
      by decide⟩ }

def fourthExecution : RecoveryPart ℕ ℕ ℕ :=
  { thirdExecution with exs := ⟨[⟨0, 2, 1⟩, ⟨1, 3, 11⟩, ⟨2, 2, 11⟩, ⟨3, 2, 12⟩], by decide⟩ }

theorem frontsInRange_of_last {db : RecoveryPart ℕ ℕ ℕ} {m : ExecutionMeta}
    (hm : m ∈ db.exs.rows ∧ ∀ m' ∈ db.exs.rows, m'.exNum ≤ m.exNum)
    (hfronts : ∀ r ∈ db.fronts.rows, r.exNum = m.exNum → r.workerIndex < m.workerCount) :
    FrontsInRange db := by
  intro m' hm' r hr
  have hlast : IsLastEx (· ∈ db.exs) m := hm
  rw [hm'.unique hlast]
  exact hfronts r hr

theorem admitted_twoExecutions : Admitted twoExecutions where
  parts := by
    show ∀ r ∈ twoExecutions.parts.rows, _
    decide
  exs := by
    show ∀ r ∈ twoExecutions.exs.rows, _
    decide

theorem frontsInRange_twoExecutions : FrontsInRange twoExecutions :=
  frontsInRange_of_last (m := ⟨1, 3, 11⟩) (by decide) (by decide)

theorem successive_twoExecutions :
    Successive twoExecutions [⟨⟨2, 11⟩, false⟩, ⟨⟨2, 11⟩, true⟩, ⟨⟨3, 12⟩, true⟩] fourthExecution := by
  have hstopped : Stops twoExecutions ⟨2, 11⟩ twoExecutions :=
    ⟨frontsInRange_twoExecutions, by decide, rfl, fun _ _ => Iff.rfl⟩
  have hthird : Executes twoExecutions ⟨2, 11⟩ thirdExecution :=
    ⟨frontsInRange_twoExecutions, by decide, 2, _, rfl, rfl⟩
  have hfourth : Executes thirdExecution ⟨3, 12⟩ fourthExecution :=
    ⟨frontsInRange_of_last (m := ⟨2, 2, 11⟩) (by decide) (by decide), by decide, 2, _, rfl, rfl⟩
  exact .stopped hstopped (.recorded hthird (.recorded hfourth (.nil _)))

/-- Three more executions: one that stopped before it was recorded, and two that were recorded. -/
theorem resumeFrom_exact_twoExecutions :
    (∃ rf, IsResumePoint twoExecutions rf ∧
      (¬ NoParts twoExecutions → ¬ TwoCounts twoExecutions → (∀ i, ¬ Lacks twoExecutions i) →
        (¬ CommittedPast twoExecutions rf.resumeEpoch →
          resumeFrom twoExecutions = some (.ok rf)) ∧
        (CommittedPast twoExecutions rf.resumeEpoch → ∃ delayed c,
          resumeFrom twoExecutions = some (.error (.inconsistentPartitions delayed c))))) ∧
    Successive twoExecutions [⟨⟨2, 11⟩, false⟩, ⟨⟨2, 11⟩, true⟩, ⟨⟨3, 12⟩, true⟩] fourthExecution ∧
    ([⟨⟨2, 11⟩, false⟩, ⟨⟨2, 11⟩, true⟩, ⟨⟨3, 12⟩, true⟩] : List Attempt).Pairwise Follows := by
  have hnum : ∀ m ∈ twoExecutions.exs, m.exNum < i64Max := by
    show ∀ m ∈ twoExecutions.exs.rows, _
    decide
  obtain ⟨-, -, -, hpoint, hfollows⟩ :=
    resumeFrom_exact twoExecutions admitted_twoExecutions frontsInRange_twoExecutions hnum
  exact ⟨hpoint, successive_twoExecutions, hfollows _ _ successive_twoExecutions⟩

example : resumeFrom twoExecutions = some (.ok ⟨2, 11⟩) := by decide

/-- The last execution that there can be. -/
def lastExecution : RecoveryPart ℕ ℕ ℕ where
  parts := ⟨[⟨0, 1⟩], by decide⟩
  exs := ⟨[⟨i64Max, 1, 1⟩], by decide⟩
  fronts := Table.empty
  commits := Table.empty
  snaps := Table.empty

theorem resumeFrom_lastExecution :
    Admitted lastExecution ∧ FrontsInRange lastExecution ∧ ¬ NoParts lastExecution ∧
      ¬ TwoCounts lastExecution ∧ (∀ i, ¬ Lacks lastExecution i) ∧
      (∀ epoch, ¬ CommittedPast lastExecution epoch) ∧ resumeFrom lastExecution = none := by
  have hpart : ∀ r, r ∈ lastExecution.parts → r = ⟨0, 1⟩ := fun r hr => List.mem_singleton.1 hr
  have hex : ∀ r, r ∈ lastExecution.exs → r = ⟨i64Max, 1, 1⟩ := fun r hr => List.mem_singleton.1 hr
  refine ⟨⟨fun r hr => ?_, fun r hr => ?_⟩, fun m hm r hr => ?_, fun h => ?_, ?_, ?_, ?_, by decide⟩
  · rw [hpart r hr]
    decide
  · rw [hex r hr]
    decide
  · exact absurd hr (Table.not_mem_empty r)
  · exact h ⟨0, 1⟩ (List.mem_singleton_self _)
  · rintro ⟨r, hr, r', hr', hne⟩
    exact hne (by rw [hpart r hr, hpart r' hr'])
  · rintro i ⟨⟨r, hr, hi⟩, hnot⟩
    rw [hpart r hr] at hi
    exact hnot ⟨0, 1⟩ (List.mem_singleton_self _) (by dsimp only at hi ⊢; omega)
  · rintro epoch ⟨r, hr, -⟩
    exact absurd hr (Table.not_mem_empty r)

/-- The number of an execution after the last one is no SQLite integer, so there is neither a resume
point nor an error; and the number of an execution that stopped before it was recorded is used
again. -/
theorem not_resumeFrom_exact :
    (Admitted lastExecution ∧ FrontsInRange lastExecution ∧ ¬ NoParts lastExecution ∧
      ¬ TwoCounts lastExecution ∧ (∀ i, ¬ Lacks lastExecution i) ∧
      (∀ epoch, ¬ CommittedPast lastExecution epoch) ∧ resumeFrom lastExecution = none) ∧
    Admitted twoExecutions ∧ ∃ exs db', Successive twoExecutions exs db' ∧
      ¬ exs.Pairwise fun ex ex' => ex.resumed.exNum < ex'.resumed.exNum := by
  refine ⟨resumeFrom_lastExecution, admitted_twoExecutions, _, _, successive_twoExecutions, fun h => ?_⟩
  exact Nat.lt_irrefl 2 (List.rel_of_pairwise_cons h List.mem_cons_self)

end Recovery

end Bytewax
