import Bytewax.Recovery.Executions
import Mathlib.Data.List.OfFn

/-!
# Bytewax.Recovery.ConsistentCut — when a resume loads a consistent cut

A row of an epoch that its execution did not close stays in its partition, and is loaded once a
later execution has closed that epoch without rewriting it.  Each resume loads a consistent cut
exactly when no execution leaves such a row behind.
-/

namespace Bytewax

namespace Recovery

open Sql SerializedSnapshotLoader

variable {S K D : Type} {partCount : ℕ}

/-! ### The rows of all partitions -/

section

variable (store : Store S K D partCount)

def Store.exs (m : ExecutionMeta) : Prop := ∃ i, m ∈ (store i).exs

def Store.fronts (r : FrontierMeta) : Prop := ∃ i, r ∈ (store i).fronts

end

/-- What holds of the partitions and the logical run between two executions. -/
structure History.Inv (route : Routing S K partCount) (h : History S K D partCount) : Prop where
  parts : ∀ i, (h.store i).parts.rows = [⟨i, partCount⟩]
  commits : ∀ i x, x ∉ (h.store i).commits
  exs_route : ∀ i, ∀ m ∈ (h.store i).exs, route.ex m.exNum = i
  fronts_route : ∀ i, ∀ r ∈ (h.store i).fronts, route.front r.key = i
  fronts_ex : ∀ r, h.store.fronts r →
    ∃ m, h.store.exs m ∧ m.exNum = r.exNum ∧ r.workerIndex < m.workerCount
  snaps_route : ∀ i, ∀ r ∈ (h.store i).snaps, route.snap r.pair = i
  progress : (∀ m, ¬ h.store.exs m) ∧ h.epoch = 1 ∨
    ∃ m, IsLastEx h.store.exs m ∧ AllAt h.store.fronts m h.epoch
  epoch_le : h.epoch ≤ i64Max
  log_lt : ∀ r ∈ h.log, r.snapEpoch < h.epoch
  log_stored : ∀ r ∈ h.log, r ∈ (h.store (route.snap r.pair)).snaps

section Resume

variable {route : Routing S K partCount} {h : History S K D partCount}

theorem mem_ofFn_store {P : RecoveryPart S K D → Prop} :
    (∃ p ∈ List.ofFn h.store, P p) ↔ ∃ i, P (h.store i) := by
  simp only [List.mem_ofFn, exists_exists_eq_and]

theorem History.Inv.nodup_fronts (hinv : h.Inv route) :
    (((List.ofFn h.store).flatMap fun p => p.fronts.rows).map FrontierMeta.key).Nodup := by
  rw [List.map_flatMap, List.nodup_flatMap]
  constructor
  · intro p hp
    exact p.fronts.nodup
  · rw [List.pairwise_ofFn]
    intro i j hij k hk hk'
    obtain ⟨r, hr, rfl⟩ := List.mem_map.1 hk
    obtain ⟨r', hr', he⟩ := List.mem_map.1 hk'
    have hi := hinv.fronts_route i r hr
    have hj := hinv.fronts_route j r' hr'
    rw [he, hi] at hj
    exact absurd hj (ne_of_lt hij)

theorem History.Inv.unique_ex (hinv : h.Inv route) {m m' : ExecutionMeta} (hm : h.store.exs m)
    (hm' : h.store.exs m') (he : m.exNum = m'.exNum) : m = m' := by
  obtain ⟨i, hi⟩ := hm
  obtain ⟨j, hj⟩ := hm'
  obtain rfl : i = j := by
    rw [← hinv.exs_route i m hi, ← hinv.exs_route j m' hj, he]
  exact Table.eq_of_pk_eq hi hj he

/-- **What the next execution resumes from**: the epoch up to which the last one was closed, under
a number that is new. -/
theorem History.Inv.resume_spec (hinv : h.Inv route) {rf : ResumeFrom}
    (hr : h.resume = some rf) :
    rf.resumeEpoch = h.epoch ∧ ∀ m, h.store.exs m → m.exNum < rf.exNum := by
  obtain ⟨db, hload, hr⟩ := Option.bind_eq_some_iff.1 hr
  obtain ⟨res, hres, hr⟩ := Option.bind_eq_some_iff.1 hr
  have hl := load_spec hload hinv.nodup_fronts
  have hexs : (· ∈ db.exs) = h.store.exs := by
    funext m
    exact propext ((hl.exs m).trans mem_ofFn_store)
  have hfronts : (· ∈ db.fronts) = h.store.fronts := by
    funext r
    exact propext ((hl.fronts r).trans mem_ofFn_store)
  have hcommits : ∀ x, x ∉ db.commits := by
    intro x hx
    obtain ⟨i, hi⟩ := mem_ofFn_store.1 ((hl.commits x).1 hx)
    exact hinv.commits i x hi
  have hpart : ∀ x, x ∈ db.parts ↔ ∃ i : Fin partCount, x = ⟨i, partCount⟩ := by
    intro x
    rw [hl.parts, mem_ofFn_store]
    simp only [Table.mem_def, hinv.parts, List.mem_singleton]
  have hall : HasAllParts db partCount := by
    refine ⟨Fin.pos (route.ex 0), fun r hr => ?_, fun i hi => ?_⟩
    · obtain ⟨i, rfl⟩ := (hpart r).1 hr
      rfl
    · exact ⟨⟨i, partCount⟩, (hpart _).2 ⟨⟨i, hi⟩, rfl⟩, rfl⟩
  rw [resumeFrom_eq hall fun rf _ r hr => absurd hr (hcommits r)] at hres
  obtain ⟨rf', hnext, rfl⟩ := Option.map_eq_some_iff.1 hres
  obtain rfl := Option.some.inj hr
  rcases hinv.progress with ⟨hnone, hepoch⟩ | ⟨m, hlast, hat⟩
  · rw [nextResume_of_empty fun m hm => hnone m (hexs ▸ hm)] at hnext
    obtain rfl := Option.some.inj hnext
    exact ⟨hepoch.symm, fun m hm => absurd hm (hnone m)⟩
  · have hlastdb : IsLastEx (· ∈ db.exs) m := hexs ▸ hlast
    have hwork : ∀ r ∈ db.fronts, r.exNum = m.exNum → r.workerIndex < m.workerCount := by
      intro r hr he
      have hfr : h.store.fronts r := hfronts ▸ hr
      obtain ⟨m', hm', hn, hw⟩ := hinv.fronts_ex r hfr
      rw [← hinv.unique_ex hm' hlast.1 (hn.trans he)]
      exact hw
    rw [hlastdb.nextResume_eq hwork (hfronts ▸ hat)] at hnext
    obtain ⟨n, hn, rfl⟩ := Option.map_eq_some_iff.1 hnext
    obtain ⟨-, rfl⟩ := toSql_eq_some.1 hn
    refine ⟨rfl, fun m' hm' => ?_⟩
    exact Nat.lt_succ_of_le (hlast.2 m' hm')

end Resume

/-! ### What an execution closes -/

theorem le_foldr_max {l : List ℕ} {n : ℕ} (h : n ∈ l) : n ≤ l.foldr max 0 := by
  induction l with
  | nil => cases h
  | cons a l ih =>
    rw [List.foldr_cons]
    rcases List.mem_cons.1 h with rfl | h
    · exact le_max_left _ _
    · exact (ih h).trans (le_max_right _ _)

theorem foldr_max_mem (l : List ℕ) : l.foldr max 0 = 0 ∨ l.foldr max 0 ∈ l := by
  induction l with
  | nil => exact .inl rfl
  | cons a l ih =>
    rw [List.foldr_cons]
    rcases max_choice a (l.foldr max 0) with he | he
    · rw [he]
      exact .inr List.mem_cons_self
    · rw [he]
      exact ih.imp id (List.mem_cons_of_mem _)

namespace Execution

variable {exec : Execution S K D} {w n : ℕ}

theorem mem_closed? : n ∈ exec.writes.filterMap (DurableWrite.closed? w) ↔
    .front w n ∈ exec.writes := by
  rw [List.mem_filterMap]
  constructor
  · rintro ⟨x, hx, he⟩
    cases x with
    | front w' m =>
      by_cases hw : w' = w
      · rw [DurableWrite.closed?, if_pos hw, Option.some.injEq] at he
        rwa [← hw, ← he]
      · rw [DurableWrite.closed?, if_neg hw] at he
        cases he
    | ex => cases he
    | snap _ _ _ _ => cases he
  · intro h
    exact ⟨_, h, if_pos rfl⟩

theorem le_closedBy (h : .front w n ∈ exec.writes) : n ≤ exec.closedBy w :=
  le_foldr_max (mem_closed?.2 h)

theorem closedBy_cases (w : ℕ) :
    exec.closedBy w = 0 ∨ .front w (exec.closedBy w) ∈ exec.writes :=
  (foldr_max_mem _).imp id mem_closed?.1

/-- The epochs that all workers closed are those of the slowest one. -/
theorem closed_spec (h : 0 < exec.workerCount) :
    (∃ w < exec.workerCount, exec.closedBy w = exec.closed) ∧
      ∀ w < exec.workerCount, exec.closed ≤ exec.closedBy w := by
  unfold closed
  cases hmin : ((List.range exec.workerCount).map exec.closedBy).min? with
  | none =>
    rw [List.min?_eq_none_iff, List.map_eq_nil_iff, List.range_eq_nil] at hmin
    omega
  | some c =>
    obtain ⟨hmem, hle⟩ := List.min?_eq_some_iff.1 hmin
    obtain ⟨w, hw, he⟩ := List.mem_map.1 hmem
    refine ⟨⟨w, List.mem_range.1 hw, he⟩, fun w' hw' => ?_⟩
    exact hle _ (List.mem_map.2 ⟨w', List.mem_range.2 hw', rfl⟩)

theorem closed_cases : exec.closed = 0 ∨ ∃ w, .front w exec.closed ∈ exec.writes := by
  rcases Nat.eq_zero_or_pos exec.workerCount with h | h
  · left
    unfold closed
    rw [h]
    rfl
  · obtain ⟨⟨w, -, he⟩, -⟩ := closed_spec h
    rw [← he]
    exact (closedBy_cases w).imp id fun hw => ⟨w, hw⟩

/-- An execution that is not recorded closes nothing. -/
theorem closed_eq_zero (h : .ex ∉ exec.writes) : exec.closed = 0 :=
  closed_cases.resolve_right fun ⟨w, hw⟩ => h (exec.workers w _ hw).2

/-- The snapshots are of the resume epoch or later. -/
theorem le_of_mem_snaps {resumeEpoch : ℕ} {r : SerializedSnapshot S K D}
    (h : r ∈ exec.snaps resumeEpoch) : resumeEpoch ≤ r.snapEpoch := by
  obtain ⟨x, -, he⟩ := List.mem_filterMap.1 h
  cases x with
  | snap stepId stateKey since serChange =>
    cases he
    exact Nat.le_add_right _ _
  | ex => cases he
  | front _ _ => cases he

end Execution

theorem mem_front? {writes : List (DurableWrite S K D)} {rf : ResumeFrom} {r : FrontierMeta} :
    r ∈ writes.filterMap (DurableWrite.front? rf) ↔
      ∃ w n, .front w n ∈ writes ∧ r = ⟨rf.exNum, w, rf.resumeEpoch + n⟩ := by
  rw [List.mem_filterMap]
  constructor
  · rintro ⟨x, hx, he⟩
    cases x with
    | front w n => exact ⟨w, n, hx, (Option.some.inj he).symm⟩
    | ex => cases he
    | snap _ _ _ _ => cases he
  · rintro ⟨w, n, hx, rfl⟩
    exact ⟨_, hx, rfl⟩

theorem WorkerAt.unique {fronts : FrontierMeta → Prop} {m : ExecutionMeta} {w e e' : ℕ}
    (h : WorkerAt fronts m w e) (h' : WorkerAt fronts m w e') : e = e' := by
  have hle : ∀ {a b}, WorkerAt fronts m w a → WorkerAt fronts m w b → a ≤ b := by
    intro a b ha hb
    rcases ha.attained with rfl | ⟨r, hr, hk, rfl⟩
    · exact hb.resumeEpoch_le
    · exact hb.front_le r hr hk
  exact le_antisymm (hle h h') (hle h' h)

/-! ### One execution -/

section Step

variable [LinearOrder S] [LinearOrder K] {route : Routing S K partCount}
  {h h' : History S K D partCount} {exec : Execution S K D} {rf : ResumeFrom}
  {store' : Store S K D partCount}

omit [LinearOrder S] [LinearOrder K] in
/-- The frontiers of a worker do not go back. -/
theorem pairwise_front? {writes : List (DurableWrite S K D)}
    (hord : writes.Pairwise DurableWrite.MayPrecede) (rf : ResumeFrom) :
    (writes.filterMap (DurableWrite.front? rf)).Pairwise
      fun r r' => r.key = r'.key → r.workerFrontier ≤ r'.workerFrontier := by
  rw [List.pairwise_filterMap]
  refine hord.imp fun {a b} hab r hr r' hr' hk => ?_
  cases a with
  | front w n =>
    cases b with
    | front w' m =>
      cases hr
      cases hr'
      exact Nat.add_le_add_left (hab (congrArg Prod.snd hk)) _
    | ex => cases hr'
    | snap _ _ _ _ => cases hr'
  | ex => cases hr
  | snap _ _ _ _ => cases hr

/-- What an execution recorded of its own progress. -/
theorem workerAt_new (happ : Applied route rf exec.workerCount exec.writes h.store store')
    (hnew : ∀ r, h.store.fronts r → r.exNum < rf.exNum) (w : ℕ) :
    WorkerAt store'.fronts ⟨rf.exNum, exec.workerCount, rf.resumeEpoch⟩ w
      (rf.resumeEpoch + exec.closedBy w) := by
  -- a row under the new number is one that the execution wrote
  have hrow : ∀ r, store'.fronts r → r.key = (rf.exNum, w) →
      ∃ n, .front w n ∈ exec.writes ∧ r.workerFrontier = rf.resumeEpoch + n := by
    rintro r ⟨i, hi⟩ hk
    rw [happ.fronts, Table.mem_foldl_upsert] at hi
    rcases hi with hi | ⟨hi, -⟩
    · have hmem := (List.mem_filter.1 (Table.mem_of_mem_foldl_upsert hi)).1
      obtain ⟨w', n, hw, rfl⟩ := mem_front?.1 hmem
      obtain rfl : w' = w := congrArg Prod.snd hk
      exact ⟨n, hw, rfl⟩
    · have hlt := hnew r ⟨i, hi⟩
      have he : r.exNum = rf.exNum := congrArg Prod.fst hk
      omega
  refine ⟨?_, Nat.le_add_right _ _, fun r hr hk => ?_⟩
  · rcases exec.closedBy_cases w with hz | hw
    · exact .inl (by rw [hz]; rfl)
    · -- the last row of a worker has its greatest frontier
      right
      have hmem : (⟨rf.exNum, w, rf.resumeEpoch + exec.closedBy w⟩ : FrontierMeta) ∈
          (exec.writes.filterMap (DurableWrite.front? rf)).filter
            fun r => route.front r.key = route.front (rf.exNum, w) :=
        List.mem_filter.2 ⟨mem_front?.2 ⟨w, _, hw, rfl⟩, decide_eq_true rfl⟩
      obtain ⟨r, hr, hk⟩ := Table.exists_mem_foldl_upsert
        (h.store (route.front (rf.exNum, w))).fronts hmem
      have hr' : store'.fronts r := ⟨route.front (rf.exNum, w), by rw [happ.fronts]; exact hr⟩
      refine ⟨r, hr', hk, ?_⟩
      obtain ⟨n, hn, he⟩ := hrow r hr' hk
      have hle := exec.le_closedBy hn
      have hbatch := (Table.mem_foldl_upsert.1 hr).resolve_right fun hold =>
        hold.2 (hk ▸ List.mem_map_of_mem hmem)
      have hge := Table.version_le_of_mem_foldl_upsert
        ((pairwise_front? exec.ordered rf).filter _) hbatch _ hmem hk.symm
      dsimp only at hge
      omega
  · obtain ⟨n, hn, he⟩ := hrow r hr hk
    have hle := exec.le_closedBy hn
    rw [he]
    exact Nat.add_le_add_left hle _

/-- The last snapshot of each step, key and epoch that an execution wrote. -/
def Execution.written (exec : Execution S K D) (resumeEpoch : ℕ) :
    Table (SerializedSnapshot.key (S := S) (K := K) (D := D)) :=
  (exec.snaps resumeEpoch).foldl Table.upsert Table.empty

theorem mem_snaps_written {r : SerializedSnapshot S K D} (hr : r ∈ exec.written h.epoch) :
    r ∈ exec.snaps h.epoch :=
  Table.mem_of_mem_foldl_upsert hr

omit [LinearOrder S] [LinearOrder K] in
theorem pair_eq_of_key_eq {r r' : SerializedSnapshot S K D} (h : r.key = r'.key) :
    r.pair = r'.pair ∧ r.snapEpoch = r'.snapEpoch := Prod.mk.inj h

theorem History.execute_eq_some {o : List ResumeFrom}
    (hs : h.execute route exec = some (h', o)) :
    ∃ rf, h.resume = some rf ∧ Applied route rf exec.workerCount exec.writes h.store h'.store ∧
      h'.epoch = rf.resumeEpoch + exec.closed ∧
      h'.log = ((exec.snaps rf.resumeEpoch).filter fun r =>
        r.snapEpoch < rf.resumeEpoch + exec.closed).foldl Table.upsert
          (h.log.deleteWhere fun r => rf.resumeEpoch ≤ r.snapEpoch) := by
  obtain ⟨rf, hr, hs⟩ := Option.bind_eq_some_iff.1 hs
  obtain ⟨store, hstore, hs⟩ := Option.bind_eq_some_iff.1 hs
  cases hs
  exact ⟨rf, hr, applied hstore, rfl, rfl⟩

/-- The snapshots in the partitions after an execution. -/
theorem History.Inv.mem_snaps (hinv : h.Inv route)
    (happ : Applied route rf exec.workerCount exec.writes h.store store')
    (hrf : rf.resumeEpoch = h.epoch) {i : Fin partCount} {r : SerializedSnapshot S K D} :
    r ∈ (store' i).snaps ↔ route.snap r.pair = i ∧ r ∈ exec.written h.epoch ∨
      r ∈ (h.store i).snaps ∧ r.key ∉ (exec.snaps h.epoch).map SerializedSnapshot.key := by
  have hfilter : ∀ x y : SerializedSnapshot S K D, x.key = y.key →
      (decide (route.snap x.pair = i)) = decide (route.snap y.pair = i) := by
    intro x y hk
    rw [(pair_eq_of_key_eq hk).1]
  rw [happ.snaps, hrf, Table.mem_foldl_upsert, Table.mem_foldl_upsert_filter hfilter,
    decide_eq_true_eq, and_comm (a := r ∈ _)]
  refine or_congr Iff.rfl (and_congr_right fun hr => not_congr ?_)
  have hroute := hinv.snaps_route i r hr
  constructor
  · intro hk
    obtain ⟨x, hx, he⟩ := List.mem_map.1 hk
    exact List.mem_map.2 ⟨x, (List.mem_filter.1 hx).1, he⟩
  · intro hk
    obtain ⟨x, hx, he⟩ := List.mem_map.1 hk
    refine List.mem_map.2 ⟨x, List.mem_filter.2 ⟨hx, decide_eq_true ?_⟩, he⟩
    rw [(pair_eq_of_key_eq he).1, hroute]

/-- The logical run after an execution: as it was, and what the execution wrote in the epochs that
it closed. -/
theorem History.Inv.mem_log (hinv : h.Inv route) (hrf : rf.resumeEpoch = h.epoch)
    {r : SerializedSnapshot S K D} :
    r ∈ ((exec.snaps rf.resumeEpoch).filter fun r =>
        r.snapEpoch < rf.resumeEpoch + exec.closed).foldl Table.upsert
          (h.log.deleteWhere fun r => rf.resumeEpoch ≤ r.snapEpoch) ↔
      r ∈ exec.written h.epoch ∧ r.snapEpoch < h.epoch + exec.closed ∨ r ∈ h.log := by
  have hfilter : ∀ x y : SerializedSnapshot S K D, x.key = y.key →
      (decide (x.snapEpoch < h.epoch + exec.closed)) =
        decide (y.snapEpoch < h.epoch + exec.closed) := by
    intro x y hk
    rw [(pair_eq_of_key_eq hk).2]
  have hkeep : h.log.deleteWhere (fun r => h.epoch ≤ r.snapEpoch) = h.log :=
    Table.deleteWhere_eq_self fun r hr => decide_eq_false (not_le.2 (hinv.log_lt r hr))
  rw [hrf, hkeep, Table.mem_foldl_upsert, Table.mem_foldl_upsert_filter hfilter, decide_eq_true_eq]
  refine or_congr Iff.rfl (and_iff_left_of_imp fun hr hk => ?_)
  obtain ⟨x, hx, he⟩ := List.mem_map.1 hk
  have hge := Execution.le_of_mem_snaps (List.mem_filter.1 hx).1
  have hlt := hinv.log_lt r hr
  rw [← (pair_eq_of_key_eq he).2] at hlt
  omega

/-- **Step lemma**: an execution keeps the invariant. -/
theorem History.Inv.execute (hinv : h.Inv route) {o : List ResumeFrom}
    (hs : h.execute route exec = some (h', o)) : h'.Inv route := by
  obtain ⟨rf, hr, happ, hepoch, hlog⟩ := History.execute_eq_some hs
  obtain ⟨hrf, hnew⟩ := hinv.resume_spec hr
  have hfrontNew : ∀ r, h.store.fronts r → r.exNum < rf.exNum := by
    intro r hr
    obtain ⟨m, hm, he, -⟩ := hinv.fronts_ex r hr
    exact he ▸ hnew m hm
  have hexs : ∀ m, h'.store.exs m ↔ h.store.exs m ∨
      .ex ∈ exec.writes ∧ m = ⟨rf.exNum, exec.workerCount, rf.resumeEpoch⟩ := by
    intro m
    simp only [Store.exs, happ.exs, exists_or, exists_and_left, exists_eq, and_true]
  refine ⟨fun i => ?_, fun i x => ?_, fun i m hm => ?_, fun i r hr => ?_, ?_, fun i r hr => ?_, ?_,
    ?_, fun r hr => ?_, fun r hr => ?_⟩
  · rw [happ.parts]
    exact hinv.parts i
  · rw [happ.commits]
    exact hinv.commits i x
  · rcases (happ.exs i m).1 hm with hm | ⟨-, rfl, rfl⟩
    · exact hinv.exs_route i m hm
    · rfl
  · rw [happ.fronts, Table.mem_foldl_upsert] at hr
    rcases hr with hr | ⟨hr, -⟩
    · exact of_decide_eq_true (List.mem_filter.1 (Table.mem_of_mem_foldl_upsert hr)).2
    · exact hinv.fronts_route i r hr
  · rintro r ⟨i, hi⟩
    rw [happ.fronts, Table.mem_foldl_upsert] at hi
    rcases hi with hi | ⟨hi, -⟩
    · have hmem := (List.mem_filter.1 (Table.mem_of_mem_foldl_upsert hi)).1
      obtain ⟨w, n, hw, rfl⟩ := mem_front?.1 hmem
      obtain ⟨hlt, hex⟩ := exec.workers w n hw
      exact ⟨_, (hexs _).2 (.inr ⟨hex, rfl⟩), rfl, hlt⟩
    · obtain ⟨m, hm, hrest⟩ := hinv.fronts_ex r ⟨i, hi⟩
      exact ⟨m, (hexs m).2 (.inl hm), hrest⟩
  · rcases (hinv.mem_snaps happ hrf).1 hr with ⟨he, -⟩ | ⟨hr, -⟩
    · exact he
    · exact hinv.snaps_route i r hr
  · by_cases hex : .ex ∈ exec.writes
    · -- the new execution is the last one
      obtain ⟨⟨w, hw, hwc⟩, hleast⟩ := Execution.closed_spec (happ.workers_pos hex)
      refine .inr ⟨_, ⟨(hexs _).2 (.inr ⟨hex, rfl⟩), fun m hm => ?_⟩, ⟨w, hw, ?_⟩, ?_⟩
      · rcases (hexs m).1 hm with hm | ⟨-, rfl⟩
        · exact (hnew m hm).le
        · exact le_rfl
      · rw [hepoch, ← hwc]
        exact workerAt_new happ hfrontNew w
      · intro w' hw' e' hat
        rw [hepoch, WorkerAt.unique hat (workerAt_new happ hfrontNew w')]
        exact Nat.add_le_add_left (hleast w' hw') _
    · -- nothing was recorded
      have hnone : exec.writes.filterMap (DurableWrite.front? rf) = [] := by
        rw [List.eq_nil_iff_forall_not_mem]
        intro r hr
        obtain ⟨w, n, hw, -⟩ := mem_front?.1 hr
        exact hex (exec.workers w n hw).2
      have hexs' : h'.store.exs = h.store.exs := by
        funext m
        exact propext ((hexs m).trans (or_iff_left fun hm => hex hm.1))
      have hfronts' : h'.store.fronts = h.store.fronts := by
        funext r
        simp only [Store.fronts, happ.fronts, hnone, List.filter_nil, List.foldl_nil]
      rw [hexs', hfronts', hepoch, Execution.closed_eq_zero hex, hrf, Nat.add_zero]
      exact hinv.progress
  · rw [hepoch, hrf]
    rcases exec.closed_cases with hz | ⟨w, hw⟩
    · rw [hz]
      exact hinv.epoch_le
    · rw [← hrf]
      exact happ.fronts_le w _ hw
  · rw [hlog, hinv.mem_log hrf] at hr
    rw [hepoch, hrf]
    rcases hr with ⟨-, hlt⟩ | hr
    · exact hlt
    · exact lt_of_lt_of_le (hinv.log_lt r hr) (Nat.le_add_right _ _)
  · rw [hlog, hinv.mem_log hrf] at hr
    rw [hinv.mem_snaps happ hrf]
    rcases hr with ⟨hw, -⟩ | hr
    · exact .inl ⟨rfl, hw⟩
    · refine .inr ⟨hinv.log_stored r hr, fun hk => ?_⟩
      obtain ⟨x, hx, he⟩ := List.mem_map.1 hk
      have hge := Execution.le_of_mem_snaps hx
      have hlt := hinv.log_lt r hr
      rw [← (pair_eq_of_key_eq he).2] at hlt
      omega

omit [LinearOrder S] [LinearOrder K] in
theorem History.Inv.init : (History.init : History S K D partCount).Inv route where
  parts _ := rfl
  commits _ _ h := absurd h (Table.not_mem_empty _)
  exs_route _ _ h := absurd h (Table.not_mem_empty _)
  fronts_route _ _ h := absurd h (Table.not_mem_empty _)
  fronts_ex r h := absurd h.choose_spec (Table.not_mem_empty _)
  snaps_route _ _ h := absurd h (Table.not_mem_empty _)
  progress := .inl ⟨fun m hm => absurd hm.choose_spec (Table.not_mem_empty _), rfl⟩
  epoch_le := show 1 ≤ i64Max by decide
  log_lt _ h := absurd h (Table.not_mem_empty _)
  log_stored _ h := absurd h (Table.not_mem_empty _)

/-! ### What a resume loads -/

/-- Every row below the epoch is one of the logical run, or a later row of the logical run hides
it. -/
def History.LeftHidden (h : History S K D partCount) : Prop :=
  ∀ i, ∀ r ∈ (h.store i).snaps, r.snapEpoch < h.epoch →
    r ∈ h.log ∨ ∃ r' ∈ h.log, r'.pair = r.pair ∧ r.snapEpoch < r'.snapEpoch

/-- What an execution leaves is hidden afterwards just when it rewrote it. -/
theorem History.Inv.leftHidden_iff (hinv : h.Inv route) (hleft : h.LeftHidden)
    {o : List ResumeFrom} (hs : h.execute route exec = some (h', o)) :
    h'.LeftHidden ↔ RewritesLeft h exec := by
  obtain ⟨rf, hr, happ, hepoch, hlog⟩ := History.execute_eq_some hs
  obtain ⟨hrf, -⟩ := hinv.resume_spec hr
  have hmemlog : ∀ r, r ∈ h'.log ↔
      r ∈ exec.written h.epoch ∧ r.snapEpoch < h.epoch + exec.closed ∨ r ∈ h.log := by
    intro r
    rw [hlog, hinv.mem_log hrf]
  rw [hrf] at hepoch
  constructor
  · intro hhid i r hr hle hlt
    by_cases hk : r.key ∈ (exec.snaps h.epoch).map SerializedSnapshot.key
    · obtain ⟨x, hx, he⟩ := List.mem_map.1 hk
      obtain ⟨hp, hv⟩ := pair_eq_of_key_eq he
      exact ⟨x, hx, hp, hv.ge, hv ▸ hlt⟩
    · rcases hhid i r ((hinv.mem_snaps happ hrf).2 (.inr ⟨hr, hk⟩)) (hepoch ▸ hlt) with
        hr' | ⟨r', hr', hp, hlt'⟩
      · rcases (hmemlog r).1 hr' with ⟨hw, -⟩ | hr'
        · exact absurd (List.mem_map_of_mem (mem_snaps_written hw)) hk
        · exact absurd (hinv.log_lt r hr') (not_lt.2 hle)
      · rcases (hmemlog r').1 hr' with ⟨hw, hlt''⟩ | hr'
        · exact ⟨r', mem_snaps_written hw, hp, hlt'.le, hlt''⟩
        · exact absurd (hinv.log_lt r' hr') (not_lt.2 (hle.trans hlt'.le))
  · intro hrew i r hr hlt
    rw [hepoch] at hlt
    rcases (hinv.mem_snaps happ hrf).1 hr with ⟨-, hw⟩ | ⟨hr, hk⟩
    · exact .inl ((hmemlog r).2 (.inl ⟨hw, hlt⟩))
    · rcases lt_or_ge r.snapEpoch h.epoch with hold | hge
      · rcases hleft i r hr hold with hr' | ⟨r', hr', hp, hlt'⟩
        · exact .inl ((hmemlog r).2 (.inr hr'))
        · exact .inr ⟨r', (hmemlog r').2 (.inr hr'), hp, hlt'⟩
      · -- a row that was left: the execution wrote a later one
        obtain ⟨x, hx, hp, hle, hxlt⟩ := hrew i r hr hge hlt
        obtain ⟨y, hy, he⟩ := Table.exists_mem_foldl_upsert
          (Table.empty : Table SerializedSnapshot.key) hx
        obtain ⟨hyp, hyv⟩ := pair_eq_of_key_eq he
        have hne : r.snapEpoch ≠ x.snapEpoch := by
          intro hv
          exact hk (List.mem_map.2 ⟨x, hx, Prod.ext hp hv.symm⟩)
        refine .inr ⟨y, (hmemlog y).2 (.inl ⟨hy, ?_⟩), hyp.trans hp, ?_⟩
        · rw [hyv]
          exact hxlt
        · rw [hyv]
          exact lt_of_le_of_ne hle hne

/-- What the loaders read when all of them return. -/
theorem loadAll_eq (store : Store S K D partCount) {before : ℕ} (hb : before ≤ i64Max) :
    loadAll store before =
      some ((List.finRange partCount).map fun i => latestSnaps (store i) before).flatten := by
  have hmap : (fun i => loadSnaps (store i) before) =
      fun i => some (latestSnaps (store i) before) := by
    funext i
    exact loadSnaps_eq hb
  unfold loadAll
  rw [hmap, show ((List.finRange partCount).mapM fun i => some (latestSnaps (store i) before)) =
    some ((List.finRange partCount).map fun i => latestSnaps (store i) before) from
      List.mapM_pure]
  rfl

theorem mem_loaded {store : Store S K D partCount} {before : ℕ} {r : SerializedSnapshot S K D} :
    r ∈ ((List.finRange partCount).map fun i => latestSnaps (store i) before).flatten ↔
      ∃ i, IsLatest SerializedSnapshot.pair SerializedSnapshot.snapEpoch before
        (store i).snaps.rows r := by
  simp only [List.mem_flatten, List.mem_map, List.mem_finRange, true_and, exists_exists_eq_and,
    mem_latestSnaps]

/-- The loaded rows are rows of the logical run just when all others are hidden. -/
theorem History.Inv.loaded_iff (hinv : h.Inv route) :
    (∀ r ∈ ((List.finRange partCount).map fun i => latestSnaps (h.store i) h.epoch).flatten,
      r ∈ h.log) ↔ h.LeftHidden := by
  constructor
  · intro hall i r hr hlt
    obtain ⟨m, hm, hp⟩ : ∃ m, IsLatest SerializedSnapshot.pair SerializedSnapshot.snapEpoch h.epoch
        (h.store i).snaps.rows m ∧ m.pair = r.pair := exists_isLatest hr hlt
    have hlog := hall m (mem_loaded.2 ⟨i, hm⟩)
    rcases lt_or_eq_of_le (hm.2.2 r hr hp.symm hlt) with hlt' | he
    · exact .inr ⟨m, hlog, hp, hlt'⟩
    · left
      have : r = m := Table.eq_of_pk_eq (t := (h.store i).snaps) hr hm.1 (Prod.ext hp.symm he)
      rwa [this]
  · intro hhid r hr
    obtain ⟨i, hr⟩ := mem_loaded.1 hr
    rcases hhid i r hr.1 hr.2.1 with hlog | ⟨x, hx, hp, hlt⟩
    · exact hlog
    · have hstored := hinv.log_stored x hx
      rw [hp, hinv.snaps_route i r hr.1] at hstored
      exact absurd (hr.2.2 x hstored hp (hinv.log_lt x hx)) (not_le.2 hlt)

section State

variable {log : Table (SerializedSnapshot.key (S := S) (K := K) (D := D))} {key : S × K} {e : ℕ}

theorem find?_key {r : SerializedSnapshot S K D} (hr : r ∈ log) (hk : r.key = (key, e)) :
    log.rows.find? (fun r => r.key = (key, e)) = some r := by
  have hsome : (log.rows.find? fun r => r.key = (key, e)).isSome := by
    rw [List.find?_isSome]
    exact ⟨r, hr, decide_eq_true hk⟩
  obtain ⟨x, hx⟩ := Option.isSome_iff_exists.1 hsome
  have hxk : x.key = (key, e) := by simpa using List.find?_some hx
  rw [hx, Table.eq_of_pk_eq (List.mem_of_find?_eq_some hx) hr (hxk.trans hk.symm)]

/-- The state of a key is that of its last snapshot. -/
theorem stateBefore_of_isLatest {r : SerializedSnapshot S K D} (hp : r.pair = key)
    (h : IsLatest SerializedSnapshot.pair SerializedSnapshot.snapEpoch e log.rows r) :
    stateBefore log key e = r.serChange := by
  induction e with
  | zero => exact absurd h.2.1 (Nat.not_lt_zero _)
  | succ e ih =>
    rcases Nat.lt_succ_iff_lt_or_eq.1 h.2.1 with hlt | he
    · have hnone : log.rows.find? (fun r => r.key = (key, e)) = none := by
        rw [List.find?_eq_none]
        intro x hx hk
        obtain ⟨hxp, hxe⟩ : x.pair = key ∧ x.snapEpoch = e :=
          Prod.mk.inj (of_decide_eq_true hk)
        have hle := h.2.2 x hx (hxp.trans hp.symm) (by omega)
        omega
      rw [stateBefore, hnone]
      exact ih ⟨h.1, hlt, fun x hx hxp hxlt => h.2.2 x hx hxp (by omega)⟩
    · rw [stateBefore, find?_key h.1 (Prod.ext hp he)]

/-- A key without a snapshot has no state. -/
theorem stateBefore_of_forall_not (h : ∀ r ∈ log, r.pair = key → ¬ r.snapEpoch < e) :
    stateBefore log key e = none := by
  induction e with
  | zero => rfl
  | succ e ih =>
    have hnone : log.rows.find? (fun r => r.key = (key, e)) = none := by
      rw [List.find?_eq_none]
      intro x hx hk
      obtain ⟨hxp, hxe⟩ : x.pair = key ∧ x.snapEpoch = e := Prod.mk.inj (of_decide_eq_true hk)
      exact h x hx hxp (by omega)
    rw [stateBefore, hnone]
    exact ih fun r hr hp hlt => h r hr hp (by omega)

end State

/-- What is loaded for a key is its state in the logical run. -/
theorem History.Inv.loadedState_eq (hinv : h.Inv route) (hhid : h.LeftHidden) (key : S × K) :
    loadedState ((List.finRange partCount).map fun i =>
      latestSnaps (h.store i) h.epoch).flatten key = stateBefore h.log key h.epoch := by
  have hlog := hinv.loaded_iff.2 hhid
  unfold loadedState
  cases hfind : (((List.finRange partCount).map fun i =>
      latestSnaps (h.store i) h.epoch).flatten).find? fun r => r.pair = key with
  | none =>
    rw [List.find?_eq_none] at hfind
    refine (stateBefore_of_forall_not fun r hr hp hlt => ?_).symm
    obtain ⟨m, hm, hmp⟩ : ∃ m, IsLatest SerializedSnapshot.pair SerializedSnapshot.snapEpoch
        h.epoch (h.store (route.snap r.pair)).snaps.rows m ∧ m.pair = r.pair :=
      exists_isLatest (hinv.log_stored r hr) hlt
    exact hfind m (mem_loaded.2 ⟨_, hm⟩) (decide_eq_true (hmp.trans hp))
  | some r =>
    have hr := List.mem_of_find?_eq_some hfind
    have hp : r.pair = key := by simpa using List.find?_some hfind
    obtain ⟨i, hlatest⟩ := mem_loaded.1 hr
    refine (stateBefore_of_isLatest hp ⟨hlog r hr, hlatest.2.1, fun x hx hxp hxlt => ?_⟩).symm
    have hstored := hinv.log_stored x hx
    rw [hxp, hinv.snaps_route i r hlatest.1] at hstored
    exact hlatest.2.2 x hstored hxp hxlt

/-- A resume that returns is consistent just when everything that was left is hidden. -/
theorem History.Inv.consistent_iff (hinv : h.Inv route) {rf : ResumeFrom}
    (hr : h.resume = some rf) : ResumesConsistently h ↔ h.LeftHidden := by
  have hrf := (hinv.resume_spec hr).1
  have hload := loadAll_eq h.store hinv.epoch_le
  constructor
  · rintro ⟨rf', rows, hr', hrf', hrows, -, hall⟩
    rw [hrf', hload] at hrows
    obtain rfl := Option.some.inj hrows
    exact hinv.loaded_iff.1 hall
  · intro hhid
    refine ⟨rf, _, hr, hrf, hrf ▸ hload, fun key => ?_, hinv.loaded_iff.2 hhid⟩
    rw [hrf]
    exact hinv.loadedState_eq hhid key

end Step

/-! ### Runs -/

section Runs

variable [LinearOrder S] [LinearOrder K]

/-- From a state that resumes consistently, all further resumes are consistent just when no
execution leaves a row behind. -/
theorem along_resumesConsistently_iff (route : Routing S K partCount)
    {h h' : History S K D partCount} {o : List ResumeFrom} (hinv : h.Inv route)
    (hhid : h.LeftHidden) {execs : List (Execution S K D)} {next : Execution S K D}
    (hrun : Runs.run (History.execute route) h (execs ++ [next]) = some (h', o)) :
    Runs.Along (History.execute route) (fun h _ => ResumesConsistently h) h (execs ++ [next]) ↔
      Runs.Along (History.execute route) RewritesLeft h execs := by
  induction execs generalizing h o with
  | nil =>
    obtain ⟨h₁, o₁, o₂, hs, -, -⟩ := Runs.exists_of_run_cons hrun
    obtain ⟨rf, hr, -⟩ := History.execute_eq_some hs
    exact ⟨fun _ => trivial, fun _ =>
      ⟨(hinv.consistent_iff hr).2 hhid, fun _ _ _ => trivial⟩⟩
  | cons exec execs ih =>
    obtain ⟨h₁, o₁, o₂, hs, hrest, -⟩ := Runs.exists_of_run_cons hrun
    obtain ⟨rf, hr, -⟩ := History.execute_eq_some hs
    have hinv₁ := hinv.execute hs
    have hiff := hinv.leftHidden_iff hhid hs
    constructor
    · rintro ⟨-, hall⟩
      have hall₁ := hall h₁ o₁ hs
      -- the next execution resumes too
      have hcons : ResumesConsistently h₁ := by
        cases execs with
        | nil => exact hall₁.1
        | cons _ _ => exact hall₁.1
      obtain ⟨rf₁, -, hr₁, -⟩ := id hcons
      have hhid₁ := (hinv₁.consistent_iff hr₁).1 hcons
      refine ⟨hiff.1 hhid₁, fun h₂ o₃ hs' => ?_⟩
      rw [hs] at hs'
      cases hs'
      exact (ih hinv₁ hhid₁ hrest).1 hall₁
    · rintro ⟨hrew, hall⟩
      refine ⟨(hinv.consistent_iff hr).2 hhid, fun h₂ o₃ hs' => ?_⟩
      rw [hs] at hs'
      cases hs'
      exact (ih hinv₁ (hiff.2 hrew) hrest).2 (hall h₁ o₁ hs)

/-- **When every resume loads a consistent cut**: exactly when each execution rewrites, in the
epochs that it closes, what earlier executions left there. -/
theorem resumesConsistently_iff (route : Routing S K partCount) {execs : List (Execution S K D)}
    {next : Execution S K D} {h : History S K D partCount} {o : List ResumeFrom}
    (hrun : Runs.run (History.execute route) .init (execs ++ [next]) = some (h, o)) :
    Runs.Along (History.execute route) (fun h _ => ResumesConsistently h) .init
        (execs ++ [next]) ↔
      Runs.Along (History.execute route) RewritesLeft .init execs :=
  along_resumesConsistently_iff route .init (fun _ _ hr => absurd hr (Table.not_mem_empty _)) hrun

end Runs

/-! ### A row that is left behind -/

/-- The only partition. -/
def onePart : Routing ℕ ℕ 1 := ⟨fun _ => 0, fun _ => 0, fun _ => 0⟩

/-- One worker closes epoch 1, snapshots keys 0 and 1 in epoch 2 and crashes before it closes
it. -/
def crashesInEpoch2 : Execution ℕ ℕ ℕ where
  workerCount := 1
  writes := [.ex, .snap 0 0 0 (some 10), .front 0 1, .snap 0 0 1 (some 11), .snap 0 1 1 (some 20)]
  ordered := by decide
  workers := by simp

/-- The item of key 1 is in a later epoch now: epoch 2 has key 0 alone, and is closed. -/
def closesEpoch2 : Execution ℕ ℕ ℕ where
  workerCount := 1
  writes := [.ex, .snap 0 0 0 (some 11), .front 0 1]
  ordered := by decide
  workers := by simp

theorem resumesConsistently_iff_crash :
    ∃ h o, Runs.run (History.execute onePart) .init ([crashesInEpoch2] ++ [closesEpoch2]) =
        some (h, o) ∧
      (Runs.Along (History.execute onePart) (fun h _ => ResumesConsistently h) .init
          ([crashesInEpoch2] ++ [closesEpoch2]) ↔
        Runs.Along (History.execute onePart) RewritesLeft .init [crashesInEpoch2]) :=
  ⟨_, _, rfl, resumesConsistently_iff onePart rfl⟩

/-- The third execution loads for key 1 the row of epoch 2 that the first one left, and replays the
item on top of it: in the logical run key 1 has no state yet. -/
theorem not_resumesConsistently_crash :
    ∃ h o, Runs.run (History.execute onePart) .init [crashesInEpoch2, closesEpoch2] =
        some (h, o) ∧
      h.resume = some ⟨2, 3⟩ ∧
      loadAll h.store 3 = some [⟨0, 0, 2, some 11⟩, ⟨0, 1, 2, some 20⟩] ∧
      stateBefore h.log (0, 1) 3 = none ∧ ¬ ResumesConsistently h := by
  refine ⟨_, _, rfl, rfl, rfl, rfl, ?_⟩
  rintro ⟨rf, rows, hr, -, hrows, hstate, -⟩
  obtain rfl := Option.some.inj (show some (ResumeFrom.mk 2 3) = some rf from hr)
  obtain rfl := Option.some.inj (show some [⟨0, 0, 2, some 11⟩, ⟨0, 1, 2, some 20⟩] =
    some rows from hrows)
  exact absurd (hstate (0, 1)) (by decide)

end Recovery

end Bytewax
