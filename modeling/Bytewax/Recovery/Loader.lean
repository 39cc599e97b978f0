import Bytewax.Recovery.Part

/-!
# Bytewax.Recovery.Loader — what the snapshot loader reads

The batches of a loader, put together, are the latest snapshots below its epoch, one for each step
and key, in the order of their steps and keys.  They depend on the table only through which rows
are the latest ones.
-/

namespace Bytewax

namespace Recovery

open Sql

namespace SerializedSnapshotLoader

variable {S K D : Type} [LinearOrder S] [LinearOrder K]

instance : Std.Total (pairLe (S := S) (K := K) (D := D)) := ⟨fun _ _ => le_total _ _⟩

instance : IsTrans (SerializedSnapshot S K D) pairLe := ⟨fun _ _ _ => le_trans⟩

/-- The latest snapshots before an epoch, in the order the loader reads them. -/
def latestSnaps (db : RecoveryPart S K D) (before : ℕ) : List (SerializedSnapshot S K D) :=
  (latestRows SerializedSnapshot.pair SerializedSnapshot.snapEpoch before
    db.snaps.rows).insertionSort pairLe

theorem mem_latestSnaps {db : RecoveryPart S K D} {before : ℕ} {r : SerializedSnapshot S K D} :
    r ∈ latestSnaps db before ↔
      IsLatest SerializedSnapshot.pair SerializedSnapshot.snapEpoch before db.snaps.rows r := by
  rw [latestSnaps, List.mem_insertionSort, mem_latestRows]

theorem nodup_latestSnaps (db : RecoveryPart S K D) (before : ℕ) :
    ((latestSnaps db before).map SerializedSnapshot.pair).Nodup :=
  ((List.perm_insertionSort pairLe _).map _).nodup_iff.2 (nodup_latestRows db.snaps.nodup)

/-- Rows of different steps or keys have only one order. -/
theorem eq_of_sorted {l l' : List (SerializedSnapshot S K D)} (hp : l.Perm l')
    (hnd : (l.map SerializedSnapshot.pair).Nodup) (hs : l.Pairwise pairLe)
    (hs' : l'.Pairwise pairLe) : l = l' := by
  refine hp.eq_of_pairwise ?_ hs hs'
  intro r r' hr hr' hle hle'
  have he : r.pair = r'.pair := toLex.injective (le_antisymm hle hle')
  exact List.inj_on_of_nodup_map hnd hr (hp.mem_iff.2 hr') he

theorem insertionSort_filter (p : SerializedSnapshot S K D → Bool)
    {l : List (SerializedSnapshot S K D)} (hnd : (l.map SerializedSnapshot.pair).Nodup) :
    (l.filter p).insertionSort pairLe = (l.insertionSort pairLe).filter p := by
  have hsort := List.perm_insertionSort pairLe (l.filter p)
  refine eq_of_sorted ?_ ?_ (List.pairwise_insertionSort pairLe _)
    ((List.pairwise_insertionSort pairLe _).filter p)
  · exact hsort.trans ((List.perm_insertionSort pairLe l).filter p).symm
  · exact (hsort.map _).nodup_iff.2 (hnd.sublist (List.filter_sublist.map _))

/-- What a loader still has to read from a position on. -/
def restFrom (db : RecoveryPart S K D) (before : ℕ) (cursor : Option (S × K)) :
    List (SerializedSnapshot S K D) :=
  (latestSnaps db before).filter (isPast cursor)

theorem select_eq {db : RecoveryPart S K D} {l : SerializedSnapshotLoader S K}
    {cursor : Option (S × K)} (hb : l.before ≤ i64Max) :
    l.select db cursor = some ((restFrom db l.before cursor).take l.batchSize,
      nextCursor ((restFrom db l.before cursor).take l.batchSize)) := by
  have hrows : (((joinUsing SerializedSnapshot.key id db.snaps.rows
      (maxEpochSnaps l.before db.snaps.rows)).map Prod.fst).filter (isPast cursor)).insertionSort
        pairLe = restFrom db l.before cursor :=
    insertionSort_filter (isPast cursor) (nodup_latestRows db.snaps.nodup)
  unfold select
  rw [toSql_eq_some.2 ⟨hb, rfl⟩]
  show some ((List.insertionSort pairLe _).take l.batchSize,
    nextCursor ((List.insertionSort pairLe _).take l.batchSize)) = _
  rw [hrows]

theorem select_eq_none {db : RecoveryPart S K D} {l : SerializedSnapshotLoader S K}
    {cursor : Option (S × K)} (hb : ¬ l.before ≤ i64Max) : l.select db cursor = none := by
  unfold select
  rw [show toSql l.before = none from if_neg hb]
  rfl

/-- The rows are strictly ordered, so the rows past one of them are those that follow it. -/
theorem filter_isPast {pre post : List (SerializedSnapshot S K D)} {r : SerializedSnapshot S K D}
    (hs : (pre ++ r :: post).Pairwise pairLe)
    (hnd : ((pre ++ r :: post).map SerializedSnapshot.pair).Nodup) :
    (pre ++ r :: post).filter (isPast (some r.pair)) = post := by
  rw [List.pairwise_append] at hs
  obtain ⟨-, hpost, hpre⟩ := hs
  rw [List.map_append, List.map_cons, List.nodup_append] at hnd
  obtain ⟨-, hnd, -⟩ := hnd
  have hr : r.pair ∉ post.map SerializedSnapshot.pair := (List.nodup_cons.1 hnd).1
  have hle := (List.pairwise_cons.1 hpost).1
  have hdrop : pre.filter (isPast (some r.pair)) = [] := by
    rw [List.filter_eq_nil_iff]
    intro x hx hpast
    exact absurd (of_decide_eq_true hpast) (not_lt.2 (hpre x hx r List.mem_cons_self))
  have hself : isPast (some r.pair) r = false := decide_eq_false (lt_irrefl _)
  have hkeep : post.filter (isPast (some r.pair)) = post := by
    rw [List.filter_eq_self]
    intro x hx
    refine decide_eq_true (lt_of_le_of_ne (hle x hx) ?_)
    intro he
    exact hr (List.mem_map.2 ⟨x, hx, (toLex.injective he).symm⟩)
  rw [List.filter_append, hdrop, List.nil_append, List.filter_cons, hself]
  exact hkeep

theorem pairwise_latestSnaps (db : RecoveryPart S K D) (before : ℕ) :
    (latestSnaps db before).Pairwise pairLe :=
  List.pairwise_insertionSort pairLe _

theorem restFrom_none (db : RecoveryPart S K D) (before : ℕ) :
    restFrom db before none = latestSnaps db before := List.filter_true _

theorem restFrom_some {db : RecoveryPart S K D} {before : ℕ}
    {pre post : List (SerializedSnapshot S K D)} {r : SerializedSnapshot S K D}
    (h : latestSnaps db before = pre ++ r :: post) :
    restFrom db before (some r.pair) = post := by
  have hs := pairwise_latestSnaps db before
  have hnd := nodup_latestSnaps db before
  unfold restFrom
  rw [h] at hs hnd ⊢
  exact filter_isPast hs hnd

/-- A loader that stands after the row of a step and key, or at the start. -/
def standing (before n : ℕ) : Option (S × K) → SerializedSnapshotLoader S K
  | none => ⟨before, n, .uninit⟩
  | some c => ⟨before, n, .inProgress c⟩

theorem nextBatch_standing {db : RecoveryPart S K D} {before n : ℕ} (hb : before ≤ i64Max)
    (c : Option (S × K)) :
    (standing before n c).nextBatch db = some (some ((restFrom db before c).take n),
      ⟨before, n, nextCursor ((restFrom db before c).take n)⟩) := by
  cases c with
  | none =>
    show Option.bind (select db ⟨before, n, .uninit⟩ none) _ = _
    rw [select_eq (l := ⟨before, n, .uninit⟩) hb]
    rfl
  | some c =>
    show Option.bind (select db ⟨before, n, .inProgress c⟩ (some c)) _ = _
    rw [select_eq (l := ⟨before, n, .inProgress c⟩) hb]
    rfl

theorem readAll_standing {db : RecoveryPart S K D} {before n : ℕ} (hb : before ≤ i64Max)
    (hn : 0 < n) {fuel : ℕ} {c : Option (S × K)} (hfuel : (restFrom db before c).length + 2 ≤ fuel)
    (hc : ∃ pre, latestSnaps db before = pre ++ restFrom db before c) :
    readAll db fuel (standing before n c) = some (restFrom db before c) := by
  induction fuel using Nat.strong_induction_on generalizing c with
  | _ fuel ih =>
    obtain ⟨fuel, rfl⟩ : ∃ m, fuel = m + 2 := ⟨fuel - 2, by omega⟩
    unfold readAll
    rw [nextBatch_standing hb]
    show Option.map _ (readAll db (fuel + 1) ⟨before, n, nextCursor _⟩) = _
    rcases List.eq_nil_or_concat ((restFrom db before c).take n) with hnil | ⟨batch, r, hbatch⟩
    · have hrest : restFrom db before c = [] := by
        rcases List.take_eq_nil_iff.1 hnil with h | h
        · omega
        · exact h
      rw [hrest, List.take_nil]
      rfl
    · -- the loader now stands after the last row of the batch
      obtain ⟨pre, hpre⟩ := hc
      have hsplit : restFrom db before c = batch ++ r :: (restFrom db before c).drop n := by
        conv_lhs => rw [← List.take_append_drop n (restFrom db before c), hbatch]
        simp
      have hsnaps : latestSnaps db before =
          (pre ++ batch) ++ r :: (restFrom db before c).drop n := by
        rw [hpre, List.append_assoc]
        conv_lhs => rw [hsplit]
      have hnext := restFrom_some hsnaps
      have hcur : nextCursor ((restFrom db before c).take n) = .inProgress r.pair := by
        rw [hbatch]
        unfold nextCursor
        rw [List.concat_eq_append, List.getLast?_concat]
      have hlen : (restFrom db before (some r.pair)).length < (restFrom db before c).length := by
        rw [hnext]
        conv_rhs => rw [hsplit]
        simp
        omega
      rw [hcur]
      have hrec := ih (fuel + 1) (by omega) (c := some r.pair) (by omega)
        ⟨(pre ++ batch) ++ [r], by rw [hnext, hsnaps, List.append_assoc _ [r]]; rfl⟩
      show Option.map _ (readAll db (fuel + 1) (standing before n (some r.pair))) = _
      rw [hrec, hnext]
      show some ((restFrom db before c).take n ++ (restFrom db before c).drop n) = _
      rw [List.take_append_drop]

/-- The loader reads the latest snapshots, and stops. -/
theorem readAll_eq {db : RecoveryPart S K D} {before n fuel : ℕ} (hb : before ≤ i64Max)
    (hn : 0 < n) (hfuel : (latestSnaps db before).length + 2 ≤ fuel) :
    readAll db fuel (new before n) = some (latestSnaps db before) := by
  have hrest := restFrom_none db before
  have h := readAll_standing hb hn (c := none) (hrest ▸ hfuel) ⟨[], hrest.symm⟩
  rw [hrest] at h
  exact h

/-- **Loading is complete and has no duplicates.**  Whatever the table holds and wherever the batches
end, the loader stops, and what it has read is, for each step and key with a row below the resume
epoch, the latest such row, in the order of the steps and keys.  A resume epoch has been read from
an SQLite integer. -/
theorem readAll_complete (db : RecoveryPart S K D) {before n : ℕ} (hb : before ≤ i64Max)
    (hn : 1 ≤ n) :
    ∃ snaps, (∃ calls, ∀ fuel, calls ≤ fuel → readAll db fuel (new before n) = some snaps) ∧
      (snaps.Pairwise fun r r' => toLex r.pair < toLex r'.pair) ∧
      (∀ r, r ∈ snaps ↔ r ∈ db.snaps ∧ r.snapEpoch < before ∧
        ∀ r' ∈ db.snaps, r'.pair = r.pair → r'.snapEpoch < before →
          r'.snapEpoch ≤ r.snapEpoch) ∧
      ∀ r ∈ db.snaps, r.snapEpoch < before → ∃ r' ∈ snaps, r'.pair = r.pair := by
  refine ⟨latestSnaps db before, ⟨_, fun fuel hfuel => readAll_eq hb hn hfuel⟩, ?_, ?_, ?_⟩
  · have hnd : (latestSnaps db before).Pairwise fun r r' => r.pair ≠ r'.pair :=
      List.pairwise_map.1 (nodup_latestSnaps db before)
    refine ((pairwise_latestSnaps db before).and hnd).imp ?_
    rintro r r' ⟨hle, hne⟩
    exact lt_of_le_of_ne hle fun he => hne (toLex.injective he)
  · intro r
    rw [mem_latestSnaps]
    exact Iff.rfl
  · intro r hr hlt
    have hlatest : ∃ m, IsLatest SerializedSnapshot.pair SerializedSnapshot.snapEpoch before
        db.snaps.rows m ∧ m.pair = r.pair := exists_isLatest hr hlt
    obtain ⟨m, hm, hpair⟩ := hlatest
    exact ⟨m, mem_latestSnaps.2 hm, hpair⟩

/-- Snapshots of two steps, some of them of the resume epoch and later. -/
def snapsOfTwoSteps : RecoveryPart ℕ ℕ ℕ :=
  { (RecoveryPart.empty : RecoveryPart ℕ ℕ ℕ) with
    snaps := ⟨[⟨1, 0, 2, some 7⟩, ⟨0, 1, 1, some 5⟩, ⟨0, 1, 3, none⟩, ⟨1, 0, 1, some 6⟩,
      ⟨0, 0, 4, some 9⟩, ⟨0, 2, 0, some 8⟩], by decide⟩ }

theorem readAll_complete_twoSteps :
    ∃ snaps, (∃ calls, ∀ fuel, calls ≤ fuel →
        readAll snapsOfTwoSteps fuel (new 4 1) = some snaps) ∧
      (snaps.Pairwise fun r r' => toLex r.pair < toLex r'.pair) ∧
      (∀ r, r ∈ snaps ↔ r ∈ snapsOfTwoSteps.snaps ∧ r.snapEpoch < 4 ∧
        ∀ r' ∈ snapsOfTwoSteps.snaps, r'.pair = r.pair → r'.snapEpoch < 4 →
          r'.snapEpoch ≤ r.snapEpoch) ∧
      ∀ r ∈ snapsOfTwoSteps.snaps, r.snapEpoch < 4 → ∃ r' ∈ snaps, r'.pair = r.pair :=
  readAll_complete snapsOfTwoSteps (by decide) (by decide)

example : readAll snapsOfTwoSteps 5 (new 4 1) =
    some [⟨0, 1, 3, none⟩, ⟨0, 2, 0, some 8⟩, ⟨1, 0, 2, some 7⟩] := by
  decide +kernel

/-- An epoch that is no SQLite integer is a panic. -/
theorem readAll_new_eq_none {db : RecoveryPart S K D} {before n : ℕ} (hb : ¬ before ≤ i64Max)
    (fuel : ℕ) : readAll db (fuel + 1) (new before n) = none := by
  have hnext : (new before n).nextBatch db = none := by
    show Option.bind (select db ⟨before, n, .uninit⟩ none) _ = none
    rw [select_eq_none (l := ⟨before, n, .uninit⟩) hb]
    rfl
  unfold readAll
  rw [hnext]

/-- Tables with the same latest rows are read alike. -/
theorem latestSnaps_congr {db db' : RecoveryPart S K D} {before : ℕ}
    (h : ∀ r, IsLatest SerializedSnapshot.pair SerializedSnapshot.snapEpoch before db.snaps.rows r ↔
      IsLatest SerializedSnapshot.pair SerializedSnapshot.snapEpoch before db'.snaps.rows r) :
    latestSnaps db before = latestSnaps db' before := by
  refine eq_of_sorted ?_ (nodup_latestSnaps db before) (pairwise_latestSnaps db before)
    (pairwise_latestSnaps db' before)
  refine (List.perm_ext_iff_of_nodup (nodup_latestSnaps db before).of_map
    (nodup_latestSnaps db' before).of_map).2 ?_
  intro r
  rw [mem_latestSnaps, mem_latestSnaps, h]

end SerializedSnapshotLoader

end Recovery

end Bytewax
