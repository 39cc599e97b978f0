import Bytewax.Lib.Runs

/-!
# Bytewax.Sources.Testing — `TestingSource`

The partition of a testing source reads an iterable in batches, and resumes by skipping as many
entries of it as its snapshot says.  Among the items of the iterable stand sentinels that end the
input or abort the execution.  The flags of the `ABORT` objects are shared by all executions.
-/

namespace Bytewax

/-- An entry of the iterable: an item, an `EOF` or `ABORT` object (number `id`), or one of these
classes itself. -/
inductive TestingEntry (X : Type)
  | item (x : X)
  | eof
  | abort (id : Nat)
  | uninstantiated
  deriving DecidableEq, Repr

/-- What `next_batch` raises. -/
inductive TestingError
  | stopIteration
  | abortExecution
  | valueError
  deriving DecidableEq, Repr

/-- `_IterSourcePartition`; `it` is what is left in the iterator. -/
structure IterSourcePartition (X : Type) where
  startIdx : Nat
  batchSize : Nat
  it : List (TestingEntry X)
  raise : Option TestingError
  deriving DecidableEq, Repr

/-- What the loop over the iterator leaves; `failed` if it raised `ValueError`. -/
structure ReadBatch (X : Type) where
  batch : List X
  startIdx : Nat
  raise : Option TestingError
  it : List (TestingEntry X)
  triggered : List Nat
  failed : Bool

/-- `ffwd_iter`. -/
def ffwdIter {X : Type} (it : List (TestingEntry X)) (n : Nat) : List (TestingEntry X) := it.drop n

namespace IterSourcePartition

variable {X : Type}

/-- `_IterSourcePartition.__init__`. -/
def new (ib : List (TestingEntry X)) (batchSize : Nat) (resumeState : Option Nat) :
    IterSourcePartition X :=
  let startIdx := resumeState.getD 0
  ⟨startIdx, batchSize, ffwdIter ib startIdx, none⟩

/-- The loop over the iterator, with `batch` and `_start_idx`; `triggered` are the `ABORT` objects
that have `_triggered` set. -/
def readBatch (batchSize : Nat) (triggered : List Nat) (startIdx : Nat) :
    List (TestingEntry X) → List X → ReadBatch X
  | [], batch => ⟨batch, startIdx, none, [], triggered, false⟩
  | .uninstantiated :: it, batch => ⟨batch, startIdx, none, it, triggered, true⟩
  | .eof :: it, batch => ⟨batch, startIdx + 1, some .stopIteration, it, triggered, false⟩
  | .abort id :: it, batch =>
    if id ∈ triggered then readBatch batchSize triggered startIdx it batch
    else ⟨batch, startIdx, some .abortExecution, it, id :: triggered, false⟩
  | .item x :: it, batch =>
    let batch := batch ++ [x]
    if batch.length ≥ batchSize then ⟨batch, startIdx, none, it, triggered, false⟩
    else readBatch batchSize triggered startIdx it batch

/-- `next_batch`. -/
def nextBatch (p : IterSourcePartition X) (triggered : List Nat) :
    IterSourcePartition X × List Nat × Except TestingError (List X) :=
  match p.raise with
  | some err => (p, triggered, .error err)
  | none =>
    let r := readBatch p.batchSize triggered p.startIdx p.it []
    let p := { p with startIdx := r.startIdx, it := r.it, raise := r.raise }
    if r.failed then (p, r.triggered, .error .valueError)
    else if r.batch.length > 0 ∨ r.raise.isSome then
      ({ p with startIdx := p.startIdx + r.batch.length }, r.triggered, .ok r.batch)
    else (p, r.triggered, .error .stopIteration)

/-- The items that a call of `next_batch` returns. -/
def returnedBy (result : Except TestingError (List X)) : List X :=
  match result with
  | .ok batch => batch
  | .error _ => []

/-- `snapshot`. -/
def snapshot (p : IterSourcePartition X) : Nat := p.startIdx

end IterSourcePartition

/-! ### Executions -/

variable {X : Type}

/-- The items among the entries of an iterable. -/
def TestingEntry.toItem : TestingEntry X → Option X
  | .item x => some x
  | _ => none

def itemsOf (entries : List (TestingEntry X)) : List X := entries.filterMap TestingEntry.toItem

/-- A snapshot that was taken, with what the partition had read since it was built and what had been
returned in the executions that led to it. -/
structure TakenSnapshot (X : Type) where
  snapshot : Nat
  read : List (TestingEntry X)
  returned : List X

/-- A testing source over several executions. -/
structure TestingRun (X : Type) where
  triggered : List Nat
  part : IterSourcePartition X
  read : List (TestingEntry X)
  returned : List X
  taken : List (TakenSnapshot X)

/-- What is done with a testing source: call `next_batch`, take a snapshot, or rebuild the partition
from a snapshot taken before. -/
inductive TestingAction
  | nextBatch
  | snapshot
  | rebuild (number : Nat)
  deriving DecidableEq, Repr

namespace TestingRun

/-- The first execution. -/
def init (ib : List (TestingEntry X)) (batchSize : Nat) : TestingRun X :=
  ⟨[], .new ib batchSize none, [], [], []⟩

/-- One action, with the items that are returned. -/
def step (ib : List (TestingEntry X)) (batchSize : Nat) (s : TestingRun X) :
    TestingAction → Option (TestingRun X × List X)
  | .nextBatch =>
    let (part, triggered, result) := s.part.nextBatch s.triggered
    let batch := IterSourcePartition.returnedBy result
    some ({ s with
      triggered, part
      read := s.read ++ s.part.it.take (s.part.it.length - part.it.length)
      returned := s.returned ++ batch }, batch)
  | .snapshot => some ({ s with taken := s.taken ++ [⟨s.part.snapshot, s.read, s.returned⟩] }, [])
  | .rebuild number => do
    let t ← s.taken[number]?
    return ({ s with
      part := .new ib batchSize (some t.snapshot)
      read := []
      returned := t.returned }, [])

end TestingRun

/-- What has been returned, followed by what is left in the iterator, are the items of the iterable,
and at the end of it everything has been returned. -/
structure ReturnsExactly (ib : List (TestingEntry X)) (s : TestingRun X) : Prop where
  split : itemsOf ib = s.returned ++ itemsOf s.part.it
  ended : s.part.raise = none →
    (s.part.nextBatch s.triggered).2.2 = .error .stopIteration → s.returned = itemsOf ib

/-- The number of entries that are no `ABORT`. -/
def countsOf (entries : List (TestingEntry X)) : Nat :=
  (entries.filter fun e => match e with
    | .abort _ => false
    | _ => true).length

/-- Of the entries that a partition had read since it was built, with `k` aborts among them, none of
the last `k` is an item. -/
def AbortsLast (read : List (TestingEntry X)) : Prop := itemsOf (read.drop (countsOf read)) = []

/-- A snapshot from which the partition is rebuilt was taken behind such entries. -/
def RebuildsRight (s : TestingRun X) : TestingAction → Prop
  | .rebuild number => ∀ t ∈ s.taken[number]?, AbortsLast t.read
  | _ => True

/-- Every state of the run returns exactly the items. -/
def RunReturnsExactly (ib : List (TestingEntry X)) (batchSize : Nat) (s : TestingRun X)
    (actions : List TestingAction) : Prop :=
  ∀ pre, pre <+: actions → ∀ s' o, Runs.run (TestingRun.step ib batchSize) s pre = some (s', o) →
    ReturnsExactly ib s'

theorem itemsOf_append (l l' : List (TestingEntry X)) : itemsOf (l ++ l') = itemsOf l ++ itemsOf l' :=
  List.filterMap_append

theorem countsOf_append (l l' : List (TestingEntry X)) : countsOf (l ++ l') = countsOf l + countsOf l' := by
  rw [countsOf, List.filter_append, List.length_append]
  rfl

theorem countsOf_le_length (l : List (TestingEntry X)) : countsOf l ≤ l.length :=
  List.length_filter_le _ _

/-- What the loop over the iterator did to take the entries `consumed`: their items went to the batch,
and the index counts the sentinels that are no aborts. -/
structure ReadBatch.Took (r : ReadBatch X) (it consumed : List (TestingEntry X)) (batch : List X)
    (startIdx : Nat) : Prop where
  split : it = consumed ++ r.it
  batch_eq : r.batch = batch ++ itemsOf consumed
  startIdx_eq : r.startIdx + (itemsOf consumed).length = startIdx + countsOf consumed
  failed : r.failed = false
  ended : r.raise = none → r.batch = [] → r.it = []

namespace IterSourcePartition

variable {p : IterSourcePartition X}

/-- **The loop over the iterator.** -/
theorem readBatch_took (batchSize : Nat) (triggered : List Nat) (startIdx : Nat)
    {it : List (TestingEntry X)} (batch : List X) (h : TestingEntry.uninstantiated ∉ it) :
    ∃ consumed, (readBatch batchSize triggered startIdx it batch).Took it consumed batch startIdx := by
  induction it generalizing batch with
  | nil => exact ⟨[], rfl, (List.append_nil _).symm, rfl, rfl, fun _ _ => rfl⟩
  | cons e it ih =>
    have hit : TestingEntry.uninstantiated ∉ it := fun hmem => h (List.mem_cons_of_mem _ hmem)
    cases e with
    | uninstantiated => exact absurd List.mem_cons_self h
    | eof => exact ⟨[.eof], rfl, (List.append_nil _).symm, rfl, rfl, fun hraise => by cases hraise⟩
    | abort id =>
      rw [readBatch]
      by_cases hid : id ∈ triggered
      · rw [if_pos hid]
        obtain ⟨consumed, htook⟩ := ih batch hit
        exact ⟨.abort id :: consumed, congrArg _ htook.split, htook.batch_eq, htook.startIdx_eq,
          htook.failed, htook.ended⟩
      · rw [if_neg hid]
        exact ⟨[.abort id], rfl, (List.append_nil _).symm, rfl, rfl, fun hraise => by cases hraise⟩
    | item x =>
      rw [readBatch]
      by_cases hfull : (batch ++ [x]).length ≥ batchSize
      · rw [if_pos hfull]
        exact ⟨[.item x], rfl, rfl, rfl, rfl, fun _ hbatch => by simp at hbatch⟩
      · rw [if_neg hfull]
        obtain ⟨consumed, htook⟩ := ih (batch ++ [x]) hit
        refine ⟨.item x :: consumed, congrArg _ htook.split, ?_, ?_, htook.failed, htook.ended⟩
        · rw [htook.batch_eq, List.append_assoc]
          rfl
        · have := htook.startIdx_eq
          show _ + ((itemsOf consumed).length + 1) = startIdx + (countsOf consumed + 1)
          omega

/-- **A call of `next_batch`.** -/
theorem nextBatch_took (triggered : List Nat) (h : TestingEntry.uninstantiated ∉ p.it) :
    ∃ consumed, p.it = consumed ++ (p.nextBatch triggered).1.it ∧
      returnedBy (p.nextBatch triggered).2.2 = itemsOf consumed ∧
      (p.nextBatch triggered).1.startIdx = p.startIdx + countsOf consumed ∧
      (p.raise = none → (p.nextBatch triggered).2.2 = .error .stopIteration → p.it = consumed) := by
  unfold nextBatch
  cases hraise : p.raise with
  | some err => exact ⟨[], rfl, rfl, rfl, fun hnone => by cases hnone⟩
  | none =>
    obtain ⟨consumed, htook⟩ := readBatch_took p.batchSize triggered p.startIdx [] h
    dsimp only
    generalize readBatch p.batchSize triggered p.startIdx p.it [] = r at htook
    have hidx := htook.startIdx_eq
    have hbatch : r.batch = itemsOf consumed := htook.batch_eq
    rw [htook.failed, if_neg Bool.false_ne_true]
    by_cases hsome : r.batch.length > 0 ∨ r.raise.isSome
    · rw [if_pos hsome]
      refine ⟨consumed, htook.split, hbatch, ?_, fun _ herr => by cases herr⟩
      show r.startIdx + r.batch.length = _
      rw [hbatch]
      exact hidx
    · rw [if_neg hsome]
      have hempty : r.batch = [] := List.length_eq_zero_iff.mp (by omega)
      have hnone : r.raise = none := by
        by_contra hne
        exact hsome (.inr (Option.isSome_iff_ne_none.mpr hne))
      rw [hempty] at hbatch
      rw [← hbatch, List.length_nil] at hidx
      refine ⟨consumed, htook.split, hbatch, hidx, fun _ _ => ?_⟩
      rw [htook.split, htook.ended hnone hempty, List.append_nil]

end IterSourcePartition

namespace TestingRun

variable {ib : List (TestingEntry X)} {batchSize : Nat} {s s' : TestingRun X} {o : List X}

/-- A partition that was built behind some entries has read `read` and has `it` left, and `startIdx`
counts what it read, but for the aborts. -/
def Stands (ib read it : List (TestingEntry X)) (startIdx : Nat) : Prop :=
  ∃ built, ib.drop built = read ++ it ∧ startIdx = built + countsOf read

/-- What is left from the index on is what was left in the iterator, and the last entries read, as many
as there were aborts among them. -/
theorem Stands.drop {read it : List (TestingEntry X)} {startIdx : Nat}
    (h : Stands ib read it startIdx) : ib.drop startIdx = read.drop (countsOf read) ++ it := by
  obtain ⟨built, hdrop, rfl⟩ := h
  rw [← List.drop_drop, hdrop, List.drop_append_of_le_length (countsOf_le_length read)]

/-- A snapshot that was taken when everything was right. -/
def Sound (ib : List (TestingEntry X)) (t : TakenSnapshot X) : Prop :=
  ∃ it, Stands ib t.read it t.snapshot ∧ itemsOf ib = t.returned ++ itemsOf it

/-- Nothing is lost so far, and the snapshots are sound. -/
structure Inv (ib : List (TestingEntry X)) (s : TestingRun X) : Prop where
  stands : Stands ib s.read s.part.it s.part.startIdx
  split : itemsOf ib = s.returned ++ itemsOf s.part.it
  sound : ∀ t ∈ s.taken, Sound ib t

theorem inv_init (ib : List (TestingEntry X)) (batchSize : Nat) : Inv ib (init ib batchSize) where
  stands := ⟨0, rfl, rfl⟩
  split := rfl
  sound _ ht := by cases ht

theorem Inv.subset (h : Inv ib s) : s.part.it ⊆ ib := by
  obtain ⟨built, hdrop, -⟩ := h.stands
  intro e he
  exact List.mem_of_mem_drop (hdrop ▸ List.mem_append_right _ he)

theorem Inv.returnsExactly (hinst : TestingEntry.uninstantiated ∉ ib) (h : Inv ib s) :
    ReturnsExactly ib s where
  split := h.split
  ended hraise hstop := by
    obtain ⟨consumed, hsplit, hbatch, -, hend⟩ := IterSourcePartition.nextBatch_took s.triggered
      (fun hmem => hinst (h.subset hmem))
    rw [hstop] at hbatch
    rw [h.split, hend hraise hstop, ← hbatch]
    exact (List.append_nil _).symm

/-- A rebuilt partition goes on where the snapshot was taken, just when the entries read again hold no
item. -/
theorem split_rebuild_iff {t : TakenSnapshot X} (h : Sound ib t) :
    itemsOf ib = t.returned ++ itemsOf (ib.drop t.snapshot) ↔ AbortsLast t.read := by
  obtain ⟨it, hstands, hsplit⟩ := h
  rw [hsplit, hstands.drop, itemsOf_append, List.append_cancel_left_eq, AbortsLast]
  constructor
  · intro heq
    have hlen := congrArg List.length heq
    rw [List.length_append] at hlen
    exact List.length_eq_zero_iff.mp (by omega)
  · intro hnil
    rw [hnil, List.nil_append]

/-- **One action.** -/
theorem Inv.step (hinst : TestingEntry.uninstantiated ∉ ib) (h : Inv ib s) {a : TestingAction}
    (ha : RebuildsRight s a) (hs : s.step ib batchSize a = some (s', o)) : Inv ib s' := by
  cases a with
  | nextBatch =>
    obtain ⟨consumed, hsplit, hbatch, hidx, -⟩ := IterSourcePartition.nextBatch_took s.triggered
      (fun hmem => hinst (h.subset hmem))
    rcases hcall : s.part.nextBatch s.triggered with ⟨part, triggered, result⟩
    rw [hcall] at hsplit hbatch hidx
    rw [TestingRun.step, hcall] at hs
    cases hs
    replace hsplit : s.part.it = consumed ++ part.it := hsplit
    have htake : s.part.it.take (s.part.it.length - part.it.length) = consumed := by
      rw [hsplit, List.length_append, Nat.add_sub_cancel, List.take_left]
    obtain ⟨built, hdrop, hstart⟩ := h.stands
    refine ⟨⟨built, ?_, ?_⟩, ?_, h.sound⟩
    · show ib.drop built = (s.read ++ s.part.it.take _) ++ part.it
      rw [htake, List.append_assoc, ← hsplit]
      exact hdrop
    · show part.startIdx = built + countsOf (s.read ++ s.part.it.take _)
      rw [htake, countsOf_append, ← Nat.add_assoc, ← hstart]
      exact hidx
    · show itemsOf ib = (s.returned ++ IterSourcePartition.returnedBy result) ++ itemsOf part.it
      replace hbatch : IterSourcePartition.returnedBy result = itemsOf consumed := hbatch
      rw [hbatch, List.append_assoc, ← itemsOf_append, ← hsplit]
      exact h.split
  | snapshot =>
    cases hs
    refine ⟨h.stands, h.split, fun t ht => ?_⟩
    rcases List.mem_append.mp ht with ht | ht
    · exact h.sound t ht
    · obtain rfl := List.mem_singleton.mp ht
      exact ⟨s.part.it, h.stands, h.split⟩
  | rebuild number =>
    obtain ⟨t, ht, hs⟩ := Option.bind_eq_some_iff.mp hs
    cases hs
    have hsound := h.sound t (List.mem_of_getElem? ht)
    exact ⟨⟨t.snapshot, rfl, rfl⟩, (split_rebuild_iff hsound).mpr (ha t ht), h.sound⟩

end TestingRun

/-- **When a testing source resumes exactly**: in every run, just when each snapshot that it is rebuilt
from was taken behind sentinels, as many as the aborts that had been read. -/
theorem runReturnsExactly_iff (ib : List (TestingEntry X)) (batchSize : Nat)
    (hinst : TestingEntry.uninstantiated ∉ ib) (actions : List TestingAction) :
    RunReturnsExactly ib batchSize (.init ib batchSize) actions ↔
      Runs.Along (TestingRun.step ib batchSize) RebuildsRight (.init ib batchSize) actions := by
  have hinit := TestingRun.inv_init ib batchSize
  generalize TestingRun.init ib batchSize = s at hinit ⊢
  constructor
  · intro h
    induction actions generalizing s with
    | nil => trivial
    | cons a actions ih =>
      have hright : RebuildsRight s a := by
        cases a with
        | nextBatch => trivial
        | snapshot => trivial
        | rebuild number =>
          intro t ht
          refine (TestingRun.split_rebuild_iff (hinit.sound t (List.mem_of_getElem? ht))).mp ?_
          exact (h [.rebuild number] (by simp) _ [] (by
            rw [Runs.run_singleton]
            show Option.bind (s.taken[number]?) _ = _
            rw [Option.mem_def.mp ht]
            rfl)).split
      refine ⟨hright, fun s₁ o₁ hs => ih s₁ (hinit.step hinst hright hs) ?_⟩
      intro pre hpre s' o hrun
      exact h (a :: pre) (List.cons_prefix_cons.mpr ⟨rfl, hpre⟩) s' _ (Runs.run_cons hs hrun)
  · rintro h pre ⟨post, rfl⟩ s' o hrun
    refine TestingRun.Inv.returnsExactly hinst ?_
    exact Runs.run_induct (fun s a s₁ o₁ hinv ha hs => hinv.step hinst ha hs) hinit h.of_append hrun

/-- An abort among five items. -/
def oneAbort : List (TestingEntry Nat) := [.item 0, .item 1, .item 2, .abort 0, .item 3, .item 4]

/-- After the abort the partition is rebuilt from a snapshot that was taken before it. -/
theorem runReturnsExactly_iff_oneAbort : RunReturnsExactly oneAbort 2 (.init oneAbort 2)
    [.nextBatch, .snapshot, .nextBatch, .nextBatch, .rebuild 0, .nextBatch, .nextBatch] := by
  refine (runReturnsExactly_iff oneAbort 2 (by decide) _).mpr ?_
  refine ⟨trivial, ?_⟩
  rintro s₁ o₁ ⟨⟩
  refine ⟨trivial, ?_⟩
  rintro s₂ o₂ ⟨⟩
  refine ⟨trivial, ?_⟩
  rintro s₃ o₃ ⟨⟩
  refine ⟨trivial, ?_⟩
  rintro s₄ o₄ ⟨⟩
  refine ⟨?_, ?_⟩
  · rintro t ⟨⟩
    rfl
  rintro s₅ o₅ ⟨⟩
  refine ⟨trivial, ?_⟩
  rintro s₆ o₆ ⟨⟩
  exact ⟨trivial, fun _ _ _ => trivial⟩

/-- A snapshot that is taken when an item has been read behind the abort leads back to that item. -/
theorem not_runReturnsExactly_behindAbort : ¬ RunReturnsExactly oneAbort 1 (.init oneAbort 1)
    [.nextBatch, .nextBatch, .nextBatch, .nextBatch, .snapshot, .rebuild 0, .nextBatch, .snapshot,
      .rebuild 1] := by
  intro h
  have hsplit := (h _ List.prefix_rfl _ _ rfl).split
  revert hsplit
  decide

end Bytewax
