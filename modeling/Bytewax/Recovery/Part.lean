import Bytewax.Lib.Table
import Mathlib.Data.Prod.Lex

/-!
# Bytewax.Recovery.Part — a recovery partition

A recovery partition is an SQLite database with five tables.  Writers insert or upsert a batch in
one transaction, the snapshot loader reads the latest snapshots below the resume epoch in
batches, the committer records the commit epoch and collects garbage, and `resume_from` computes
the execution and the epoch to resume from out of the progress tables.  A statement that fails is
unwrapped, so it is a panic: `none` here.
-/

namespace Bytewax

namespace Recovery

open Sql

/-- `i64::MAX` -/
def i64Max : ℕ := 9223372036854775807

/-- `ToSql` of an unsigned integer: SQLite integers are signed. -/
def toSql (n : ℕ) : Option ℕ := if n ≤ i64Max then some n else none

theorem toSql_eq_some {n m : ℕ} : toSql n = some m ↔ n ≤ i64Max ∧ m = n := by
  unfold toSql
  by_cases h : n ≤ i64Max
  · rw [if_pos h, Option.some.injEq]
    exact ⟨fun he => ⟨h, he.symm⟩, fun he => he.2.symm⟩
  · rw [if_neg h]
    constructor
    · intro he; cases he
    · intro he; exact absurd he.1 h

/-- A row of `parts`. -/
structure PartitionMeta where
  partIndex : ℕ
  partCount : ℕ
  deriving DecidableEq, Repr

/-- A row of `exs`. -/
structure ExecutionMeta where
  exNum : ℕ
  workerCount : ℕ
  resumeEpoch : ℕ
  deriving DecidableEq, Repr

/-- A row of `fronts`. -/
structure FrontierMeta where
  exNum : ℕ
  workerIndex : ℕ
  workerFrontier : ℕ
  deriving DecidableEq, Repr

def FrontierMeta.key (r : FrontierMeta) : ℕ × ℕ := (r.exNum, r.workerIndex)

/-- A row of `commits`. -/
structure CommitMeta where
  partIndex : ℕ
  commitEpoch : ℕ
  deriving DecidableEq, Repr

/-- A row of `snaps`.  `serChange` is `none` for a discarded state. -/
structure SerializedSnapshot (S K D : Type) where
  stepId : S
  stateKey : K
  snapEpoch : ℕ
  serChange : Option D
  deriving DecidableEq, Repr

namespace SerializedSnapshot

variable {S K D : Type}

def pair (r : SerializedSnapshot S K D) : S × K := (r.stepId, r.stateKey)

def key (r : SerializedSnapshot S K D) : (S × K) × ℕ := (r.pair, r.snapEpoch)

end SerializedSnapshot

/-- The tables of a recovery partition, with their primary keys. -/
structure RecoveryPart (S K D : Type) where
  parts : Table PartitionMeta.partIndex
  exs : Table ExecutionMeta.exNum
  fronts : Table FrontierMeta.key
  commits : Table CommitMeta.partIndex
  snaps : Table (SerializedSnapshot.key (S := S) (K := K) (D := D))

variable {S K D : Type}

def RecoveryPart.empty : RecoveryPart S K D :=
  ⟨Table.empty, Table.empty, Table.empty, Table.empty, Table.empty⟩

section Writers

/-- One row of `PartitionMetaWriter::write_batch`, with the `CHECK`s of the table. -/
def writePart (db : RecoveryPart S K D) (r : PartitionMeta) : Option (RecoveryPart S K D) := do
  let partIndex ← toSql r.partIndex
  let partCount ← toSql r.partCount
  if 0 < partCount ∧ partIndex < partCount then
    let parts ← db.parts.insert ⟨partIndex, partCount⟩
    some { db with parts }
  else none

def PartitionMetaWriter.writeBatch (db : RecoveryPart S K D) (items : List PartitionMeta) :
    Option (RecoveryPart S K D) :=
  items.foldlM writePart db

/-- One row of `ExecutionMetaWriter::write_batch`: no execution is seen twice. -/
def writeEx (db : RecoveryPart S K D) (r : ExecutionMeta) : Option (RecoveryPart S K D) := do
  let exNum ← toSql r.exNum
  let workerCount ← toSql r.workerCount
  let resumeEpoch ← toSql r.resumeEpoch
  if 0 < workerCount then
    let exs ← db.exs.insert ⟨exNum, workerCount, resumeEpoch⟩
    some { db with exs }
  else none

def ExecutionMetaWriter.writeBatch (db : RecoveryPart S K D) (items : List ExecutionMeta) :
    Option (RecoveryPart S K D) :=
  items.foldlM writeEx db

/-- One row of `FrontierWriter::write_batch`. -/
def writeFront (db : RecoveryPart S K D) (r : FrontierMeta) : Option (RecoveryPart S K D) := do
  let exNum ← toSql r.exNum
  let workerIndex ← toSql r.workerIndex
  let workerFrontier ← toSql r.workerFrontier
  some { db with fronts := db.fronts.upsert ⟨exNum, workerIndex, workerFrontier⟩ }

def FrontierWriter.writeBatch (db : RecoveryPart S K D) (items : List FrontierMeta) :
    Option (RecoveryPart S K D) :=
  items.foldlM writeFront db

variable [DecidableEq S] [DecidableEq K]

/-- One row of `SerializedSnapshotWriter::write_batch`. -/
def writeSnap (db : RecoveryPart S K D) (r : SerializedSnapshot S K D) :
    Option (RecoveryPart S K D) := do
  let snapEpoch ← toSql r.snapEpoch
  some { db with snaps := db.snaps.upsert { r with snapEpoch } }

def SerializedSnapshotWriter.writeBatch (db : RecoveryPart S K D)
    (items : List (SerializedSnapshot S K D)) : Option (RecoveryPart S K D) :=
  items.foldlM writeSnap db

/-- One row of `CommitWriter::write_batch`. -/
def writeCommit (db : RecoveryPart S K D) (r : CommitMeta) : Option (RecoveryPart S K D) := do
  let partIndex ← toSql r.partIndex
  let commitEpoch ← toSql r.commitEpoch
  let commits ← db.commits.insert ⟨partIndex, commitEpoch⟩
  some { db with commits }

def CommitWriter.writeBatch (db : RecoveryPart S K D) (items : List CommitMeta) :
    Option (RecoveryPart S K D) :=
  items.foldlM writeCommit db

end Writers

section Committer

variable [DecidableEq S] [DecidableEq K]

/-- The `max_epoch_snapshots` of the committer and `max_epoch_snaps` of the loader. -/
def maxEpochSnaps (before : ℕ) (rows : List (SerializedSnapshot S K D)) : List ((S × K) × ℕ) :=
  groupMax SerializedSnapshot.pair SerializedSnapshot.snapEpoch
    (rows.filter fun r => r.snapEpoch < before)

/-- `RecoveryCommitter::commit`.  The `FROM snaps` of the subquery is a table of its own and not
the row that the `DELETE` looks at, so the subquery has one answer for all rows. -/
def RecoveryCommitter.commit (partKey : ℕ) (db : RecoveryPart S K D) (epoch : ℕ) :
    Option (RecoveryPart S K D) := do
  let partKey ← toSql partKey
  let epoch ← toSql epoch
  let maxEpochSnapshots := maxEpochSnaps epoch db.snaps.rows
  let found := joinUsing SerializedSnapshot.key id db.snaps.rows maxEpochSnapshots
  some { db with
    commits := db.commits.upsert ⟨partKey, epoch⟩
    snaps := db.snaps.deleteWhere fun r => r.snapEpoch < epoch && found.isEmpty }

end Committer

section Loader

variable [LinearOrder S] [LinearOrder K]

inductive Cursor (T : Type) where
  | uninit
  | inProgress (t : T)
  | done
  deriving DecidableEq, Repr

/-- The fields of `SerializedSnapshotLoader` but for its connection. -/
structure SerializedSnapshotLoader (S K : Type) where
  before : ℕ
  batchSize : ℕ
  cursor : Cursor (S × K)

namespace SerializedSnapshotLoader

def new (before batchSize : ℕ) : SerializedSnapshotLoader S K := ⟨before, batchSize, .uninit⟩

/-- `?2 IS NULL OR ?3 IS NULL OR (step_id, state_key) > (?2, ?3)` -/
def isPast (cursor : Option (S × K)) (r : SerializedSnapshot S K D) : Bool :=
  match cursor with
  | none => true
  | some c => toLex c < toLex r.pair

def pairLe (r r' : SerializedSnapshot S K D) : Prop := toLex r.pair ≤ toLex r'.pair

instance : DecidableRel (pairLe (S := S) (K := K) (D := D)) := fun _ _ =>
  inferInstanceAs (Decidable (toLex _ ≤ toLex _))

/-- The cursor that `select` leaves behind. -/
def nextCursor (batch : List (SerializedSnapshot S K D)) : Cursor (S × K) :=
  match batch.getLast? with
  | some r => .inProgress r.pair
  | none => .done

/-- `SerializedSnapshotLoader::select` -/
def select (db : RecoveryPart S K D) (l : SerializedSnapshotLoader S K)
    (cursor : Option (S × K)) : Option (List (SerializedSnapshot S K D) × Cursor (S × K)) := do
  let before ← toSql l.before
  let maxEpochSnaps := maxEpochSnaps before db.snaps.rows
  let rows := (joinUsing SerializedSnapshot.key id db.snaps.rows maxEpochSnaps).map Prod.fst
  -- the batch size is 1000 in the only call of `new`, and always an SQLite integer
  let batch := ((rows.filter (isPast cursor)).insertionSort pairLe).take l.batchSize
  some (batch, nextCursor batch)

/-- `SerializedSnapshotLoader::next_batch` -/
def nextBatch (db : RecoveryPart S K D) (l : SerializedSnapshotLoader S K) :
    Option (Option (List (SerializedSnapshot S K D)) × SerializedSnapshotLoader S K) :=
  match l.cursor with
  | .uninit => do
    let (batch, cursor) ← l.select db none
    some (some batch, { l with cursor })
  | .inProgress c => do
    let (batch, cursor) ← l.select db (some c)
    some (some batch, { l with cursor })
  | .done => some (none, { l with cursor := .done })

/-- What the batches of a loader hold until there is none left, in at most `fuel` calls. -/
def readAll (db : RecoveryPart S K D) : ℕ → SerializedSnapshotLoader S K →
    Option (List (SerializedSnapshot S K D))
  | 0, _ => none
  | fuel + 1, l =>
    match l.nextBatch db with
    | none => none
    | some (none, _) => some []
    | some (some batch, l) => (readAll db fuel l).map (batch ++ ·)

end SerializedSnapshotLoader

end Loader

end Recovery

end Bytewax
