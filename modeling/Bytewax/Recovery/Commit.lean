import Bytewax.Lib.Runs
import Bytewax.Recovery.Loader

/-!
# Bytewax.Recovery.Commit — writes and commits of a recovery partition

What the `DELETE` of a commit takes away, over runs of snapshot writes and commits: nothing that a
later resume can see, and in fact nothing at all.
-/

namespace Bytewax

namespace Recovery

open Sql SerializedSnapshotLoader

variable {S K D : Type}

/-- A call on a recovery partition. -/
inductive PartOp (S K D : Type) where
  | writeBatch (items : List (SerializedSnapshot S K D))
  | commit (epoch : ℕ)

namespace PartOp

/-- The rows that a call writes. -/
def rows : PartOp S K D → List (SerializedSnapshot S K D)
  | .writeBatch items => items
  | .commit _ => []

/-- The epoch that a call commits. -/
def epoch? : PartOp S K D → Option ℕ
  | .writeBatch _ => none
  | .commit epoch => some epoch

end PartOp

variable [LinearOrder S] [LinearOrder K]

/-- A call on the partition. -/
def apply (partKey : ℕ) (db : RecoveryPart S K D) : PartOp S K D → Option (RecoveryPart S K D)
  | .writeBatch items => SerializedSnapshotWriter.writeBatch db items
  | .commit epoch => RecoveryCommitter.commit partKey db epoch

/-- The calls one after the other. -/
def applyAll (partKey : ℕ) (db : RecoveryPart S K D) (ops : List (PartOp S K D)) :
    Option (RecoveryPart S K D) :=
  ops.foldlM (apply partKey) db

/-- A commit that records its epoch and deletes no row. -/
def commitKeeping (partKey : ℕ) (db : RecoveryPart S K D) (epoch : ℕ) :
    Option (RecoveryPart S K D) := do
  let partKey ← toSql partKey
  let epoch ← toSql epoch
  some { db with commits := db.commits.upsert ⟨partKey, epoch⟩ }

def applyKeeping (partKey : ℕ) (db : RecoveryPart S K D) :
    PartOp S K D → Option (RecoveryPart S K D)
  | .writeBatch items => SerializedSnapshotWriter.writeBatch db items
  | .commit epoch => commitKeeping partKey db epoch

def applyAllKeeping (partKey : ℕ) (db : RecoveryPart S K D) (ops : List (PartOp S K D)) :
    Option (RecoveryPart S K D) :=
  ops.foldlM (applyKeeping partKey) db

/-- `RecoveryPart::snap_loader` -/
def snapLoader (before : ℕ) : SerializedSnapshotLoader S K := new before 1000

/-- The snapshots that the loader of a partition reads, with calls enough for all its rows. -/
def loadSnaps (db : RecoveryPart S K D) (before : ℕ) : Option (List (SerializedSnapshot S K D)) :=
  readAll db (db.snaps.rows.length + 2) (snapLoader before)

theorem length_latestSnaps_le (db : RecoveryPart S K D) (before : ℕ) :
    (latestSnaps db before).length ≤ db.snaps.rows.length := by
  refine (List.subperm_of_subset (nodup_latestSnaps db before).of_map ?_).length_le
  exact fun r hr => (mem_latestSnaps.1 hr).1

theorem loadSnaps_eq {db : RecoveryPart S K D} {before : ℕ} (hb : before ≤ i64Max) :
    loadSnaps db before = some (latestSnaps db before) :=
  readAll_eq hb (by decide) (Nat.add_le_add_right (length_latestSnaps_le db before) 2)

/-- Loading depends on the latest snapshots only. -/
theorem loadSnaps_congr {db db' : RecoveryPart S K D} {before : ℕ}
    (h : latestSnaps db before = latestSnaps db' before) :
    loadSnaps db before = loadSnaps db' before := by
  by_cases hb : before ≤ i64Max
  · rw [loadSnaps_eq hb, loadSnaps_eq hb, h]
  · exact (readAll_new_eq_none hb _).trans (readAll_new_eq_none hb _).symm

section Commit

variable {partKey epoch : ℕ} {db db' : RecoveryPart S K D}

/-- Every row below the epoch has a latest row of its step and key, which the subquery finds. -/
theorem found_ne_nil {r : SerializedSnapshot S K D} (hr : r ∈ db.snaps.rows)
    (hlt : r.snapEpoch < epoch) :
    joinUsing SerializedSnapshot.key id db.snaps.rows (maxEpochSnaps epoch db.snaps.rows) ≠ [] := by
  obtain ⟨m, hm, -⟩ : ∃ m, IsLatest SerializedSnapshot.pair SerializedSnapshot.snapEpoch epoch
      db.snaps.rows m ∧ m.pair = r.pair := exists_isLatest hr hlt
  have hmem : m ∈ (joinUsing SerializedSnapshot.key id db.snaps.rows
      (maxEpochSnaps epoch db.snaps.rows)).map Prod.fst := mem_latestRows.2 hm
  intro hnil
  rw [hnil] at hmem
  exact List.not_mem_nil hmem

/-- The `DELETE` takes no row: for a row below the epoch the subquery is not empty. -/
theorem commit_eq_some (h : RecoveryCommitter.commit partKey db epoch = some db') :
    epoch ≤ i64Max ∧ db' = { db with commits := db.commits.upsert ⟨partKey, epoch⟩ } := by
  unfold RecoveryCommitter.commit at h
  obtain ⟨p, hpart, h₁⟩ := Option.bind_eq_some_iff.1 h
  obtain ⟨e, hepoch, h₂⟩ := Option.bind_eq_some_iff.1 h₁
  obtain ⟨-, hp⟩ := toSql_eq_some.1 hpart
  obtain ⟨hlt, he⟩ := toSql_eq_some.1 hepoch
  refine ⟨hlt, ?_⟩
  rw [← Option.some.inj h₂, ← hp, ← he]
  congr 1
  rw [Table.deleteWhere_eq_self]
  · intro r hr
    rw [he]
    by_cases hr' : r.snapEpoch < epoch
    · rw [Bool.and_eq_false_iff]
      exact .inr (List.isEmpty_eq_false_iff.2 (found_ne_nil hr hr'))
    · rw [decide_eq_false hr', Bool.false_and]

/-- A commit only takes rows that a later row of the same step and key hides. -/
theorem commit_collectedUpTo (h : RecoveryCommitter.commit partKey db epoch = some db') :
    CollectedUpTo SerializedSnapshot.pair SerializedSnapshot.snapEpoch epoch db.snaps.rows
      db'.snaps.rows := by
  obtain ⟨-, rfl⟩ := commit_eq_some h
  exact .refl _ _

/-- Both commits fail on the same arguments. -/
theorem isSome_commit (partKey epoch : ℕ) (db db' : RecoveryPart S K D) :
    (RecoveryCommitter.commit partKey db' epoch).isSome =
      (commitKeeping partKey db epoch).isSome := by
  unfold RecoveryCommitter.commit commitKeeping
  cases toSql partKey with
  | none => rfl
  | some _ =>
    cases toSql epoch with
    | none => rfl
    | some _ => rfl

omit [LinearOrder S] [LinearOrder K] in
theorem commitKeeping_snaps (h : commitKeeping partKey db epoch = some db') :
    db'.snaps = db.snaps := by
  obtain ⟨_, -, h⟩ := Option.bind_eq_some_iff.1 h
  obtain ⟨_, -, h⟩ := Option.bind_eq_some_iff.1 h
  cases h
  rfl

end Commit

section Hides

variable {partKey before : ℕ} {db db' : RecoveryPart S K D}

/-- `db'` is `db` without rows that no load from `before` on can see. -/
def Hides (before : ℕ) (db db' : RecoveryPart S K D) : Prop :=
  CollectedUpTo SerializedSnapshot.pair SerializedSnapshot.snapEpoch before db.snaps.rows
    db'.snaps.rows

theorem writeSnap_hides (h : Hides before db db') (r : SerializedSnapshot S K D) :
    Option.Rel (Hides before) (writeSnap db r) (writeSnap db' r) := by
  unfold writeSnap
  cases toSql r.snapEpoch with
  | none => exact .none
  | some e => exact .some (CollectedUpTo.upsert _ h)

theorem commit_hides {epoch : ℕ} (he : epoch ≤ before) (h : Hides before db db') :
    Option.Rel (Hides before) (commitKeeping partKey db epoch)
      (RecoveryCommitter.commit partKey db' epoch) := by
  have hsome := isSome_commit partKey epoch db db'
  cases hk : commitKeeping partKey db epoch with
  | none =>
    cases hc : RecoveryCommitter.commit partKey db' epoch with
    | none => exact .none
    | some d' => rw [hk, hc] at hsome; cases hsome
  | some d =>
    cases hc : RecoveryCommitter.commit partKey db' epoch with
    | none => rw [hk, hc] at hsome; cases hsome
    | some d' =>
      refine .some ?_
      unfold Hides at h ⊢
      rw [commitKeeping_snaps hk]
      exact h.trans ((commit_collectedUpTo hc).mono he)

theorem apply_hides {op : PartOp S K D} (hop : ∀ e, op.epoch? = some e → e ≤ before)
    (h : Hides before db db') :
    Option.Rel (Hides before) (applyKeeping partKey db op) (apply partKey db' op) := by
  cases op with
  | writeBatch items => exact Runs.foldlM_rel h fun r _ _ _ h => writeSnap_hides h r
  | commit e => exact commit_hides (hop e rfl) h

theorem Hides.loadSnaps_eq (h : Hides before db db') :
    loadSnaps db' before = loadSnaps db before :=
  loadSnaps_congr (latestSnaps_congr fun _ => h.isLatest_iff le_rfl)

/-- Garbage collection is invisible to a resume from an epoch that is at or after all committed
ones. -/
theorem loadSnaps_applyAll (ops : List (PartOp S K D))
    (hops : ∀ op ∈ ops, ∀ e, op.epoch? = some e → e ≤ before) :
    (applyAll partKey db ops).map (loadSnaps · before) =
      (applyAllKeeping partKey db ops).map (loadSnaps · before) := by
  have hrel : Option.Rel (Hides before) (applyAllKeeping partKey db ops)
      (applyAll partKey db ops) :=
    Runs.foldlM_rel (CollectedUpTo.refl _ _) fun op hop _ _ h => apply_hides (hops op hop) h
  cases hk : applyAllKeeping partKey db ops with
  | none =>
    cases ha : applyAll partKey db ops with
    | none => rfl
    | some _ => rw [hk, ha] at hrel; cases hrel
  | some d =>
    cases ha : applyAll partKey db ops with
    | none => rw [hk, ha] at hrel; cases hrel
    | some d' =>
      rw [hk, ha] at hrel
      cases hrel with
      | some h =>
        show some (loadSnaps d' before) = some (loadSnaps d before)
        rw [h.loadSnaps_eq]

end Hides

/-- Two snapshots of one state and one of another, and commits of two backup delays. -/
def twoCommits : List (PartOp ℕ ℕ ℕ) :=
  [.writeBatch [⟨0, 0, 1, some 10⟩, ⟨0, 1, 1, some 20⟩], .commit 1,
    .writeBatch [⟨0, 0, 2, some 11⟩], .commit 3, .writeBatch [⟨0, 1, 3, none⟩], .commit 2]

theorem loadSnaps_applyAll_twoCommits :
    (applyAll 0 RecoveryPart.empty twoCommits).map (loadSnaps · 3) =
      (applyAllKeeping 0 RecoveryPart.empty twoCommits).map (loadSnaps · 3) :=
  loadSnaps_applyAll twoCommits (by decide)

section Collects

/-- The rows there are at the start and those that the calls write. -/
def seen (db : RecoveryPart S K D) (ops : List (PartOp S K D)) : List (SerializedSnapshot S K D) :=
  db.snaps.rows ++ ops.flatMap PartOp.rows

/-- The epoch of the last commit. -/
def lastCommit (ops : List (PartOp S K D)) : Option ℕ := (ops.filterMap PartOp.epoch?).getLast?

/-- The rows below an epoch are not more than the steps and keys of a table. -/
def BoundedBelow (epoch : ℕ) (rows : List (SerializedSnapshot S K D)) : Prop :=
  (rows.filter fun r => r.snapEpoch < epoch).length ≤
    (rows.map SerializedSnapshot.pair).dedup.length

/-- Garbage is collected along a run: after a commit a row below its epoch is the latest one of
its step and key before the commit, and the rows below the last committed epoch are never more
than the steps and keys. -/
structure CollectsAlong (partKey : ℕ) (db : RecoveryPart S K D) (ops : List (PartOp S K D)) :
    Prop where
  collects : ∀ pre epoch post, ops = pre ++ .commit epoch :: post →
    ∀ db₁ db₂, applyAll partKey db pre = some db₁ →
      RecoveryCommitter.commit partKey db₁ epoch = some db₂ →
      ∀ r ∈ db₂.snaps, r.snapEpoch < epoch →
        IsLatest SerializedSnapshot.pair SerializedSnapshot.snapEpoch epoch db₁.snaps.rows r
  bounded : ∀ pre post, ops = pre ++ post → ∀ db₁, applyAll partKey db pre = some db₁ →
    ∀ epoch, lastCommit pre = some epoch → BoundedBelow epoch db₁.snaps.rows

/-- There is nothing to collect: the snapshots seen before a commit hold no state in two epochs
below its epoch, and those below the last committed epoch are never more than the steps and
keys. -/
structure NothingToCollect (db : RecoveryPart S K D) (ops : List (PartOp S K D)) : Prop where
  single : ∀ pre epoch post, ops = pre ++ .commit epoch :: post →
    ∀ r ∈ seen db pre, ∀ r' ∈ seen db pre, r.pair = r'.pair → r.snapEpoch < epoch →
      r'.snapEpoch < epoch → r.snapEpoch = r'.snapEpoch
  few : ∀ pre post, ops = pre ++ post → ∀ epoch, lastCommit pre = some epoch →
    (((seen db pre).map SerializedSnapshot.key).dedup.filter fun k => k.2 < epoch).length ≤
      ((seen db pre).map SerializedSnapshot.pair).dedup.length

variable {partKey : ℕ} {db db' : RecoveryPart S K D} {ops : List (PartOp S K D)}

theorem writeSnap_eq_some {r : SerializedSnapshot S K D} (h : writeSnap db r = some db') :
    db' = { db with snaps := db.snaps.upsert r } := by
  obtain ⟨e, he, h⟩ := Option.bind_eq_some_iff.1 h
  obtain ⟨-, rfl⟩ := toSql_eq_some.1 he
  exact (Option.some.inj h).symm

theorem writeSnap_keys {r : SerializedSnapshot S K D} (h : writeSnap db r = some db')
    (k : (S × K) × ℕ) :
    k ∈ db'.snaps.rows.map SerializedSnapshot.key ↔
      k ∈ db.snaps.rows.map SerializedSnapshot.key ∨ k = r.key := by
  rw [writeSnap_eq_some h]
  simp only [List.mem_map]
  constructor
  · rintro ⟨x, hx, rfl⟩
    rcases Table.mem_upsert.1 hx with rfl | ⟨hx, -⟩
    · exact .inr rfl
    · exact .inl ⟨x, hx, rfl⟩
  · rintro (⟨x, hx, rfl⟩ | rfl)
    · by_cases he : x.key = r.key
      · exact ⟨r, Table.mem_upsert_self _ r, he.symm⟩
      · exact ⟨x, Table.mem_upsert.2 (.inr ⟨hx, he⟩), rfl⟩
    · exact ⟨r, Table.mem_upsert_self _ r, rfl⟩

theorem writeBatch_keys {items : List (SerializedSnapshot S K D)}
    (h : SerializedSnapshotWriter.writeBatch db items = some db') (k : (S × K) × ℕ) :
    k ∈ db'.snaps.rows.map SerializedSnapshot.key ↔
      k ∈ db.snaps.rows.map SerializedSnapshot.key ∨ k ∈ items.map SerializedSnapshot.key := by
  unfold SerializedSnapshotWriter.writeBatch at h
  induction items generalizing db with
  | nil =>
    cases h
    simp
  | cons r items ih =>
    rw [List.foldlM_cons] at h
    obtain ⟨db₁, h₁, h₂⟩ := Option.bind_eq_some_iff.1 h
    rw [ih h₂, writeSnap_keys h₁, List.map_cons, List.mem_cons, or_assoc]

/-- No call takes a row away. -/
theorem applyAll_keys (h : applyAll partKey db ops = some db') (k : (S × K) × ℕ) :
    k ∈ db'.snaps.rows.map SerializedSnapshot.key ↔
      k ∈ (seen db ops).map SerializedSnapshot.key := by
  unfold applyAll at h
  induction ops generalizing db with
  | nil =>
    cases h
    simp [seen]
  | cons op ops ih =>
    rw [List.foldlM_cons] at h
    obtain ⟨db₁, h₁, h₂⟩ := Option.bind_eq_some_iff.1 h
    rw [ih h₂]
    unfold seen
    rw [List.flatMap_cons, List.map_append, List.map_append, List.map_append, List.mem_append,
      List.mem_append, List.mem_append, ← or_assoc]
    refine or_congr ?_ Iff.rfl
    cases op with
    | writeBatch items => exact writeBatch_keys h₁ k
    | commit e =>
      obtain ⟨-, rfl⟩ := commit_eq_some h₁
      simp [PartOp.rows]

theorem applyAll_append_eq_some {ops' : List (PartOp S K D)} :
    applyAll partKey db (ops ++ ops') = some db' ↔
      ∃ db₁, applyAll partKey db ops = some db₁ ∧ applyAll partKey db₁ ops' = some db' := by
  unfold applyAll
  rw [List.foldlM_append]
  exact Option.bind_eq_some_iff

theorem length_filter_rows (h : applyAll partKey db ops = some db') (epoch : ℕ) :
    (db'.snaps.rows.filter fun r => r.snapEpoch < epoch).length =
      (((seen db ops).map SerializedSnapshot.key).dedup.filter fun k => k.2 < epoch).length := by
  have hperm : (db'.snaps.rows.map SerializedSnapshot.key).Perm
      ((seen db ops).map SerializedSnapshot.key).dedup := by
    refine (List.perm_ext_iff_of_nodup db'.snaps.nodup (List.nodup_dedup _)).2 ?_
    intro k
    rw [applyAll_keys h, List.mem_dedup]
  rw [← (hperm.filter _).length_eq, List.filter_map, List.length_map]
  rfl

theorem length_pairs (h : applyAll partKey db ops = some db') :
    (db'.snaps.rows.map SerializedSnapshot.pair).dedup.length =
      ((seen db ops).map SerializedSnapshot.pair).dedup.length := by
  have hpair : ∀ rows : List (SerializedSnapshot S K D), rows.map SerializedSnapshot.pair =
      (rows.map SerializedSnapshot.key).map Prod.fst := by
    intro rows
    rw [List.map_map]
    rfl
  refine List.Perm.length_eq
    ((List.perm_ext_iff_of_nodup (List.nodup_dedup _) (List.nodup_dedup _)).2 ?_)
  intro p
  rw [List.mem_dedup, List.mem_dedup, hpair, hpair, List.mem_map, List.mem_map]
  simp only [applyAll_keys h]

theorem boundedBelow_iff (h : applyAll partKey db ops = some db') (epoch : ℕ) :
    BoundedBelow epoch db'.snaps.rows ↔
      (((seen db ops).map SerializedSnapshot.key).dedup.filter fun k => k.2 < epoch).length ≤
        ((seen db ops).map SerializedSnapshot.pair).dedup.length := by
  unfold BoundedBelow
  rw [length_filter_rows h, length_pairs h]

/-- Every row below the epoch is a latest one just when no state has two of them. -/
theorem isLatest_below_iff (h : applyAll partKey db ops = some db') (epoch : ℕ) :
    (∀ r ∈ db'.snaps.rows, r.snapEpoch < epoch →
      IsLatest SerializedSnapshot.pair SerializedSnapshot.snapEpoch epoch db'.snaps.rows r) ↔
    ∀ r ∈ seen db ops, ∀ r' ∈ seen db ops, r.pair = r'.pair → r.snapEpoch < epoch →
      r'.snapEpoch < epoch → r.snapEpoch = r'.snapEpoch := by
  constructor
  · intro hlatest r hr r' hr' hp hlt hlt'
    obtain ⟨x, hx, hxr⟩ := List.mem_map.1 ((applyAll_keys h r.key).2 (List.mem_map_of_mem hr))
    obtain ⟨x', hx', hxr'⟩ := List.mem_map.1 ((applyAll_keys h r'.key).2 (List.mem_map_of_mem hr'))
    obtain ⟨hpair, hepoch⟩ := Prod.mk.inj hxr
    obtain ⟨hpair', hepoch'⟩ := Prod.mk.inj hxr'
    have hxx' : x.pair = x'.pair := by rw [hpair, hpair', hp]
    rw [← hepoch] at hlt ⊢
    rw [← hepoch'] at hlt' ⊢
    exact le_antisymm ((hlatest x' hx' hlt').2.2 x hx hxx' hlt)
      ((hlatest x hx hlt).2.2 x' hx' hxx'.symm hlt')
  · intro hsingle r hr hlt
    refine ⟨hr, hlt, fun r' hr' hp hlt' => ?_⟩
    obtain ⟨x, hx, hxr⟩ := List.mem_map.1 ((applyAll_keys h r.key).1 (List.mem_map_of_mem hr))
    obtain ⟨x', hx', hxr'⟩ := List.mem_map.1 ((applyAll_keys h r'.key).1 (List.mem_map_of_mem hr'))
    obtain ⟨hpair, hepoch⟩ := Prod.mk.inj hxr
    obtain ⟨hpair', hepoch'⟩ := Prod.mk.inj hxr'
    rw [← hepoch, ← hepoch']
    rw [← hepoch] at hlt
    rw [← hepoch'] at hlt'
    exact (hsingle x' hx' x hx (by rw [hpair, hpair', hp]) hlt' hlt).le

/-- Garbage is collected along a run just when there is none. -/
theorem collectsAlong_iff (h : applyAll partKey db ops = some db') :
    CollectsAlong partKey db ops ↔ NothingToCollect db ops := by
  constructor
  · rintro ⟨hcollects, hbounded⟩
    constructor
    · rintro pre epoch post rfl
      obtain ⟨db₁, h₁, h₂⟩ := applyAll_append_eq_some.1 h
      obtain ⟨db₂, hc, -⟩ := Option.bind_eq_some_iff.1 h₂
      refine (isLatest_below_iff h₁ epoch).1 fun r hr => hcollects pre epoch post rfl db₁ db₂ h₁ hc r ?_
      obtain ⟨-, rfl⟩ := commit_eq_some hc
      exact hr
    · rintro pre post rfl epoch hlast
      obtain ⟨db₁, h₁, -⟩ := applyAll_append_eq_some.1 h
      exact (boundedBelow_iff h₁ epoch).1 (hbounded pre post rfl db₁ h₁ epoch hlast)
  · rintro ⟨hsingle, hfew⟩
    constructor
    · rintro pre epoch post rfl db₁ db₂ h₁ hc r hr
      obtain ⟨-, rfl⟩ := commit_eq_some hc
      exact (isLatest_below_iff h₁ epoch).2 (hsingle pre epoch post rfl) r hr
    · rintro pre post rfl db₁ h₁ epoch hlast
      exact (boundedBelow_iff h₁ epoch).2 (hfew pre post rfl epoch hlast)

/-- One state in two epochs below a commit. -/
def twoSnapshots : List (PartOp ℕ ℕ ℕ) :=
  [.writeBatch [⟨0, 0, 1, some 10⟩], .writeBatch [⟨0, 0, 2, some 11⟩], .commit 3]

theorem collectsAlong_iff_twoSnapshots :
    CollectsAlong 0 RecoveryPart.empty twoSnapshots ↔
      NothingToCollect RecoveryPart.empty twoSnapshots := by
  have h : applyAll 0 RecoveryPart.empty twoSnapshots = some _ := rfl
  exact collectsAlong_iff h

/-- Both rows stay, so there are more rows below the last committed epoch than states. -/
theorem not_collectsAlong_twoSnapshots :
    (applyAll 0 RecoveryPart.empty twoSnapshots).map (fun db => db.snaps.rows) =
        some [⟨0, 0, 1, some 10⟩, ⟨0, 0, 2, some 11⟩] ∧
      ¬ CollectsAlong 0 RecoveryPart.empty twoSnapshots := by
  have hrows : (applyAll 0 RecoveryPart.empty twoSnapshots).map (fun db => db.snaps.rows) =
      some [⟨0, 0, 1, some 10⟩, ⟨0, 0, 2, some 11⟩] := by decide +kernel
  refine ⟨hrows, fun h => ?_⟩
  obtain ⟨db, hdb, hdbrows⟩ := Option.map_eq_some_iff.1 hrows
  have hb := h.bounded twoSnapshots [] (List.append_nil _).symm db hdb 3 rfl
  rw [hdbrows] at hb
  exact absurd hb (by unfold BoundedBelow; decide)

end Collects

end Recovery

end Bytewax
