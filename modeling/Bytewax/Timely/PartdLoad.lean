import Bytewax.Lib.Keyed
import Bytewax.Lib.Runs
import Mathlib.Algebra.Ring.Nat

/-!
# Bytewax.Timely.PartdLoad — the `partd_load` operator

The loaders of the partitions that are assigned to this worker are in a queue; each activation reads
one batch from a loader with the greatest epoch, and drops it at its end.
-/

namespace Bytewax

/-- What builds the loaders of partitions, and `BatchIterator::next_batch`, which may panic. -/
structure Loaders (P L R : Type) where
  builder : P → L
  nextBatch : L → Option (Option (List R) × L)

/-- `LoadPartEntry`, with the time of its capability. -/
structure LoadPartEntry (P L : Type) where
  cap : ℕ
  key : P
  part : L

/-- What an activation sees: the batches of assignments with their epochs, and which of the parts is
at the top of the `BinaryHeap`. -/
structure LoadActivation (P : Type) where
  primaries : List (ℕ × List (P × ℕ))
  top : ℕ

/-- What the operator does: it builds a loader, sends a batch, or drops the loader. -/
inductive LoadCall (P R : Type)
  | built (part : P)
  | batch (part : P) (items : List R)
  | eof (part : P)
  deriving DecidableEq, Repr

namespace LoadCall

variable {P R : Type}

def part : LoadCall P R → P
  | .built part => part
  | .batch part _ => part
  | .eof part => part

/-- What is sent downstream. -/
def batch? : LoadCall P R → Option (P × List R)
  | .batch part items => some (part, items)
  | .built _ | .eof _ => none

end LoadCall

/-- The batches that are sent, in order. -/
def batchesOf {P R : Type} (calls : List (ℕ × LoadCall P R)) : List (P × List R) :=
  calls.filterMap fun call => call.2.batch?

/-- The batches that a loader reads to its end. -/
inductive Loaders.Reads {P L R : Type} (loaders : Loaders P L R) : L → List (List R) → Prop
  | eof {part part' : L} : loaders.nextBatch part = some (none, part') → Reads loaders part []
  | batch {part part' : L} {items : List R} {rest : List (List R)} :
    loaders.nextBatch part = some (some items, part') → Reads loaders part' rest →
      Reads loaders part (items :: rest)

/-- Loaders that hold what they will read. -/
def Loaders.ofBatches {P R : Type} (contents : P → List (List R)) : Loaders P (List (List R)) R where
  builder := contents
  nextBatch
    | [] => some (none, [])
    | items :: rest => some (some items, rest)

namespace PartdLoad

variable {P L R : Type} [DecidableEq P]

section Model

variable (loaders : Loaders P L R) (localParts : List P) (thisWorker : ℕ)

/-- The loop over the assignments; it panics for a partition without labels for the metrics. -/
def assign (queue : List (LoadPartEntry P L)) (assignment : ℕ × P × ℕ) :
    Option (List (LoadPartEntry P L) × List (ℕ × LoadCall P R)) :=
  let (epoch, partKey, worker) := assignment
  if worker = thisWorker then
    if localParts.contains partKey then
      some (queue ++ [⟨epoch, partKey, loaders.builder partKey⟩], [(epoch, .built partKey)])
    else none
  else some (queue, [])

/-- Read from the part at the top. -/
def readTop (queue : List (LoadPartEntry P L)) (top : ℕ) :
    Option (List (LoadPartEntry P L) × List (ℕ × LoadCall P R)) :=
  match queue[top]? with
  | none => some (queue, [])
  | some entry => do
    match ← loaders.nextBatch entry.part with
    | (some items, part) =>
      return (queue.set top { entry with part }, [(entry.cap, .batch entry.key items)])
    | (none, _) => return (queue.eraseIdx top, [(entry.cap, .eof entry.key)])

/-- The assignments of an activation. -/
def arrivals (a : LoadActivation P) : List (ℕ × P × ℕ) :=
  a.primaries.flatMap fun incoming => incoming.2.map (Prod.mk incoming.1)

/-- One activation. -/
def activate (queue : List (LoadPartEntry P L)) (a : LoadActivation P) :
    Option (List (LoadPartEntry P L) × List (ℕ × LoadCall P R)) := do
  let (queue, built) ← Runs.run (assign loaders localParts thisWorker) queue (arrivals a)
  let (queue, read) ← readTop loaders queue a.top
  return (queue, built ++ read)

/-- `peek_mut` gives a part with the greatest epoch, if there is one. -/
def IsTop (queue : List (LoadPartEntry P L)) (top : ℕ) : Prop :=
  queue = [] ∨ ∃ entry, queue[top]? = some entry ∧ ∀ other ∈ queue, other.cap ≤ entry.cap

/-- The top is the top of the queue after the assignments. -/
def Peeks (queue : List (LoadPartEntry P L)) (a : LoadActivation P) : Prop :=
  ∀ queue' built, Runs.run (assign (R := R) loaders localParts thisWorker) queue (arrivals a) =
    some (queue', built) → IsTop queue' a.top

end Model

/-! ### A queue of what is left to read -/

variable {loaders : Loaders P L R} {contents : P → List (List R)} {localParts : List P}
  {thisWorker : ℕ}

/-- A loader that reads what `entry'` holds. -/
structure Entry (loaders : Loaders P L R) (entry : LoadPartEntry P L)
    (entry' : LoadPartEntry P (List (List R))) : Prop where
  cap : entry.cap = entry'.cap
  key : entry.key = entry'.key
  reads : loaders.Reads entry.part entry'.part

/-- **Refinement**: the operator does what it does with loaders that hold their batches. -/
def Refines (loaders : Loaders P L R) (queue : List (LoadPartEntry P L))
    (queue' : List (LoadPartEntry P (List (List R)))) : Prop :=
  List.Forall₂ (Entry loaders) queue queue'

/-- The assignments of parts of which the contents are known. -/
def Known (loaders : Loaders P L R) (contents : P → List (List R)) (localParts : List P)
    (thisWorker : ℕ) (assignment : ℕ × P × ℕ) : Prop :=
  assignment.2.2 = thisWorker →
    assignment.2.1 ∈ localParts ∧
      loaders.Reads (loaders.builder assignment.2.1) (contents assignment.2.1)

theorem Refines.assign {queue : List (LoadPartEntry P L)}
    {queue' : List (LoadPartEntry P (List (List R)))} {assignment : ℕ × P × ℕ}
    (h : Refines loaders queue queue')
    (hknown : Known loaders contents localParts thisWorker assignment) :
    ∃ q q' o, assign loaders localParts thisWorker queue assignment = some (q, o) ∧
      PartdLoad.assign (.ofBatches contents) localParts thisWorker queue' assignment = some (q', o) ∧
      Refines loaders q q' := by
  obtain ⟨epoch, partKey, worker⟩ := assignment
  by_cases hworker : worker = thisWorker
  · obtain ⟨hlocal, hreads⟩ := hknown hworker
    have hcontains : localParts.contains partKey = true := List.contains_iff_mem.mpr hlocal
    have hentry : Entry loaders ⟨epoch, partKey, loaders.builder partKey⟩
        ⟨epoch, partKey, contents partKey⟩ := ⟨rfl, rfl, hreads⟩
    refine ⟨_, _, [(epoch, .built partKey)], ?_, ?_, List.rel_append h (.cons hentry .nil)⟩
    · simp only [PartdLoad.assign, if_pos hworker, if_pos hcontains]
    · simp only [PartdLoad.assign, if_pos hworker, if_pos hcontains, Loaders.ofBatches]
  · refine ⟨queue, queue', [], ?_, ?_, h⟩
    · simp only [PartdLoad.assign, if_neg hworker]
    · simp only [PartdLoad.assign, if_neg hworker]

omit [DecidableEq P] in
theorem Refines.split {queue : List (LoadPartEntry P L)}
    {queue' : List (LoadPartEntry P (List (List R)))} {entry : LoadPartEntry P L} {top : ℕ}
    (h : Refines loaders queue queue') (hentry : queue[top]? = some entry) :
    ∃ pre post pre' entry' post', queue = pre ++ entry :: post ∧ queue' = pre' ++ entry' :: post' ∧
      pre.length = top ∧ pre'.length = top ∧ Refines loaders pre pre' ∧ Entry loaders entry entry' ∧
      Refines loaders post post' := by
  induction h generalizing top with
  | nil => cases hentry
  | @cons x x' queue queue' hx hrest ih =>
    cases top with
    | zero =>
      cases hentry
      exact ⟨[], queue, [], x', queue', rfl, rfl, rfl, rfl, .nil, hx, hrest⟩
    | succ top =>
      obtain ⟨pre, post, pre', entry', post', rfl, rfl, hpre, hpre', hl, he, hr⟩ := ih hentry
      exact ⟨x :: pre, post, x' :: pre', entry', post', rfl, rfl, congrArg (· + 1) hpre,
        congrArg (· + 1) hpre', .cons hx hl, he, hr⟩

omit [DecidableEq P] in
/-- One batch is read from the part at the top, or its end. -/
theorem readTop_batch {pre post : List (LoadPartEntry P L)} {entry : LoadPartEntry P L}
    {items : List R} {part : L} (h : loaders.nextBatch entry.part = some (some items, part)) :
    readTop loaders (pre ++ entry :: post) pre.length =
      some (pre ++ { entry with part } :: post, [(entry.cap, .batch entry.key items)]) := by
  simp [readTop, h]

omit [DecidableEq P] in
theorem readTop_eof {pre post : List (LoadPartEntry P L)} {entry : LoadPartEntry P L} {part : L}
    (h : loaders.nextBatch entry.part = some (none, part)) :
    readTop loaders (pre ++ entry :: post) pre.length =
      some (pre ++ post, [(entry.cap, .eof entry.key)]) := by
  simp [readTop, h, List.eraseIdx_append_of_length_le]

variable (contents) in
omit [DecidableEq P] in
theorem Refines.readTop {queue : List (LoadPartEntry P L)}
    {queue' : List (LoadPartEntry P (List (List R)))} (h : Refines loaders queue queue') (top : ℕ) :
    ∃ q q' o, readTop loaders queue top = some (q, o) ∧
      PartdLoad.readTop (.ofBatches contents) queue' top = some (q', o) ∧ Refines loaders q q' := by
  cases hentry : queue[top]? with
  | none =>
    have hentry' : queue'[top]? = none := by
      rw [List.getElem?_eq_none_iff] at hentry ⊢
      exact h.length_eq ▸ hentry
    exact ⟨queue, queue', [], by rw [PartdLoad.readTop, hentry], by rw [PartdLoad.readTop, hentry'], h⟩
  | some entry =>
    obtain ⟨pre, post, pre', ⟨cap, key, batches⟩, post', rfl, rfl, rfl, hlen, hpre,
      ⟨hcap, hkey, hreads⟩, hpost⟩ := h.split hentry
    cases hreads with
    | eof hnext =>
      refine ⟨pre ++ post, pre' ++ post', [(cap, .eof key)], ?_, ?_, List.rel_append hpre hpost⟩
      · rw [readTop_eof hnext, hcap, hkey]
      · rw [← hlen]
        exact readTop_eof rfl
    | @batch _ part items rest hnext hrest =>
      have hentry' : Entry loaders { entry with part } ⟨cap, key, rest⟩ := ⟨hcap, hkey, hrest⟩
      refine ⟨pre ++ { entry with part } :: post, pre' ++ ⟨cap, key, rest⟩ :: post',
        [(cap, .batch key items)], ?_, ?_, List.rel_append hpre (.cons hentry' hpost)⟩
      · rw [readTop_batch hnext, hcap, hkey]
      · rw [← hlen]
        exact readTop_batch rfl

/-- What a queue has left to read. -/
def left (queue : List (LoadPartEntry P (List (List R)))) : List (P × List R) :=
  queue.flatMap fun entry => entry.part.map (Prod.mk entry.key)

/-- The activations that it takes to read it. -/
def toRead (queue : List (LoadPartEntry P (List (List R)))) : ℕ :=
  (queue.map fun entry => entry.part.length + 1).sum

/-- The assignments to this worker. -/
def ours (thisWorker : ℕ) (assignments : List (ℕ × P × ℕ)) : List (ℕ × P × ℕ) :=
  assignments.filter fun a => a.2.2 = thisWorker

/-- What this worker is to load. -/
def toLoad (contents : P → List (List R)) (thisWorker : ℕ) (assignments : List (ℕ × P × ℕ)) :
    List (P × List R) :=
  (ours thisWorker assignments).flatMap fun a => (contents a.2.1).map (Prod.mk a.2.1)

/-- The activations that it takes to load it. -/
def work (contents : P → List (List R)) (thisWorker : ℕ) (assignments : List (ℕ × P × ℕ)) : ℕ :=
  ((ours thisWorker assignments).map fun a => (contents a.2.1).length + 1).sum

/-- What has been sent of each part is followed by what its loader has left. -/
structure Loading (contents : P → List (List R)) (thisWorker : ℕ) (done : List (ℕ × P × ℕ))
    (queue : List (LoadPartEntry P (List (List R)))) (o : List (ℕ × LoadCall P R)) : Prop where
  keys : (queue.map LoadPartEntry.key).Nodup
  routed : ∀ entry ∈ queue, (entry.cap, entry.key, thisWorker) ∈ done
  calls : ∀ call ∈ o, (call.1, call.2.part, thisWorker) ∈ done
  batches : ∀ p, Keyed.valuesOf p (batchesOf o ++ left queue) =
    Keyed.valuesOf p (toLoad contents thisWorker done)
  work : toRead queue ≤ work contents thisWorker done

variable {queue q : List (LoadPartEntry P (List (List R)))} {done : List (ℕ × P × ℕ)}
  {o o' : List (ℕ × LoadCall P R)}

theorem Loading.start : Loading contents thisWorker [] [] ([] : List (ℕ × LoadCall P R)) where
  keys := .nil
  routed entry hentry := by cases hentry
  calls call hcall := by cases hcall
  batches p := rfl
  work := Nat.le_refl 0

/-- An assignment of a part that has not been assigned before. -/
theorem Loading.assign (h : Loading contents thisWorker done queue o) {a : ℕ × P × ℕ}
    (hnew : a.2.1 ∉ done.map fun a => a.2.1)
    (hassign : assign (.ofBatches contents) localParts thisWorker queue a = some (q, o')) :
    Loading contents thisWorker (done ++ [a]) q (o ++ o') := by
  obtain ⟨epoch, partKey, worker⟩ := a
  by_cases hworker : worker = thisWorker
  · subst hworker
    simp only [PartdLoad.assign, if_true, Option.ite_none_right_eq_some] at hassign
    obtain ⟨-, hassign⟩ := hassign
    cases hassign
    have hours : ours worker (done ++ [(epoch, partKey, worker)]) =
        ours worker done ++ [(epoch, partKey, worker)] := by
      simp [ours]
    refine ⟨?_, fun entry hentry => ?_, fun call hcall => ?_, fun p => ?_, ?_⟩
    · rw [List.map_append, List.nodup_append]
      refine ⟨h.keys, List.nodup_singleton _, fun k hk k' hk' heq => hnew ?_⟩
      obtain ⟨entry, hentry, rfl⟩ := List.mem_map.mp hk
      have hin := List.mem_map_of_mem (f := fun a : ℕ × P × ℕ => a.2.1) (h.routed entry hentry)
      rw [heq, List.mem_singleton.mp hk'] at hin
      exact hin
    · rcases List.mem_append.mp hentry with hentry | hentry
      · exact List.mem_append_left _ (h.routed entry hentry)
      · rw [List.mem_singleton.mp hentry]
        exact List.mem_append_right _ (List.mem_singleton_self _)
    · rcases List.mem_append.mp hcall with hcall | hcall
      · exact List.mem_append_left _ (h.calls call hcall)
      · rw [List.mem_singleton.mp hcall]
        exact List.mem_append_right _ (List.mem_singleton_self _)
    · have hb := h.batches p
      rw [toLoad] at hb
      simp only [toLoad, hours, List.flatMap_append, Keyed.valuesOf_append] at hb ⊢
      rw [← hb]
      simp [batchesOf, LoadCall.batch?, left, Loaders.ofBatches]
    · have hw := h.work
      rw [PartdLoad.work, hours]
      simp only [toRead, PartdLoad.work, List.map_append, List.sum_append, List.map_cons, List.map_nil,
        List.sum_cons, List.sum_nil, Loaders.ofBatches] at hw ⊢
      omega
  · simp only [PartdLoad.assign, if_neg hworker] at hassign
    cases hassign
    have hours : ours thisWorker (done ++ [(epoch, partKey, worker)]) = ours thisWorker done := by
      simp [ours, hworker]
    refine ⟨h.keys, fun entry hentry => List.mem_append_left _ (h.routed entry hentry), ?_, ?_, ?_⟩
    · rw [List.append_nil]
      exact fun call hcall => List.mem_append_left _ (h.calls call hcall)
    · rw [List.append_nil, toLoad, hours]
      exact h.batches
    · rw [PartdLoad.work, hours]
      exact h.work

omit [DecidableEq P] in
/-- A part in the queue stands between others with other keys. -/
theorem split_queue {top : ℕ} {entry : LoadPartEntry P (List (List R))}
    (hkeys : (queue.map LoadPartEntry.key).Nodup) (h : queue[top]? = some entry) :
    ∃ pre post, queue = pre ++ entry :: post ∧ pre.length = top ∧
      entry.key ∉ (left pre).map Prod.fst ∧ entry.key ∉ (left post).map Prod.fst := by
  obtain ⟨hlt, rfl⟩ := List.getElem?_eq_some_iff.mp h
  have hsplit : queue = queue.take top ++ queue[top] :: queue.drop (top + 1) := by
    rw [List.getElem_cons_drop hlt, List.take_append_drop]
  rw [hsplit, List.map_append, List.map_cons, List.nodup_append] at hkeys
  obtain ⟨-, hpost, hpre⟩ := hkeys
  have hleft : ∀ k (l : List (LoadPartEntry P (List (List R)))), k ∉ l.map LoadPartEntry.key →
      k ∉ (left l).map Prod.fst := by
    rintro k l hk hin
    obtain ⟨x, hx, rfl⟩ := List.mem_map.mp hin
    obtain ⟨e, he, hx⟩ := List.mem_flatMap.mp hx
    obtain ⟨batch, -, rfl⟩ := List.mem_map.mp hx
    exact hk (List.mem_map_of_mem he)
  refine ⟨_, _, hsplit, List.length_take_of_le (Nat.le_of_lt hlt), hleft _ _ fun hin => ?_,
    hleft _ _ (List.nodup_cons.mp hpost).1⟩
  exact hpre _ hin _ List.mem_cons_self rfl

/-- What is read moves from what is left to what has been sent. -/
theorem Loading.readTop (h : Loading contents thisWorker done queue o) {top : ℕ}
    (hread : readTop (.ofBatches contents) queue top = some (q, o')) :
    Loading contents thisWorker done q (o ++ o') ∧ (top < queue.length → toRead q + 1 = toRead queue) := by
  cases hentry : queue[top]? with
  | none =>
    rw [PartdLoad.readTop, hentry] at hread
    cases hread
    rw [List.append_nil]
    exact ⟨h, fun hlt => absurd (List.getElem?_eq_none_iff.mp hentry) (Nat.not_le_of_lt hlt)⟩
  | some entry =>
    obtain ⟨pre, post, rfl, rfl, hpre, hpost⟩ := split_queue h.keys hentry
    have hrouted := h.routed entry (List.mem_append_right _ List.mem_cons_self)
    have hbatches := h.batches
    have hwork := h.work
    have hkeys := h.keys
    obtain ⟨cap, key, batches⟩ := entry
    cases batches with
    | nil =>
      rw [readTop_eof rfl] at hread
      cases hread
      have hread : toRead (pre ++ post) + 1 = toRead (pre ++ ⟨cap, key, []⟩ :: post) := by
        simp [toRead]
        omega
      refine ⟨⟨?_, fun entry hin => h.routed entry ?_, fun call hcall => ?_, fun p => ?_, by omega⟩,
        fun _ => hread⟩
      · refine hkeys.sublist ?_
        rw [List.map_append, List.map_append]
        exact (List.sublist_cons_self _ _).append_left _
      · rcases List.mem_append.mp hin with hin | hin
        · exact List.mem_append_left _ hin
        · exact List.mem_append_right _ (List.mem_cons_of_mem _ hin)
      · rcases List.mem_append.mp hcall with hcall | hcall
        · exact h.calls call hcall
        · rw [List.mem_singleton.mp hcall]
          exact hrouted
      · rw [← hbatches]
        simp [batchesOf, LoadCall.batch?, left]
    | cons items rest =>
      rw [readTop_batch rfl] at hread
      cases hread
      show Loading contents thisWorker done (pre ++ ⟨cap, key, rest⟩ :: post)
        (o ++ [(cap, .batch key items)]) ∧ (_ → toRead (pre ++ ⟨cap, key, rest⟩ :: post) + 1 = _)
      have hread : toRead (pre ++ ⟨cap, key, rest⟩ :: post) + 1 =
          toRead (pre ++ ⟨cap, key, items :: rest⟩ :: post) := by
        simp [toRead]
        omega
      refine ⟨⟨?_, fun entry hin => ?_, fun call hcall => ?_, fun p => ?_, by omega⟩, fun _ => hread⟩
      · simpa using hkeys
      · rcases List.mem_append.mp hin with hin | hin
        · exact h.routed entry (List.mem_append_left _ hin)
        · rcases List.mem_cons.mp hin with rfl | hin
          · exact hrouted
          · exact h.routed entry (List.mem_append_right _ (List.mem_cons_of_mem _ hin))
      · rcases List.mem_append.mp hcall with hcall | hcall
        · exact h.calls call hcall
        · rw [List.mem_singleton.mp hcall]
          exact hrouted
      · rw [← hbatches]
        by_cases hp : key = p
        · subst hp
          have hnone := Keyed.valuesOf_eq_nil hpre
          rw [left] at hnone
          simp [batchesOf, LoadCall.batch?, left, Keyed.valuesOf_cons, hnone]
        · simp [batchesOf, LoadCall.batch?, left, Keyed.valuesOf_cons, hp]

/-! ### Runs -/

/-- The queue has `n` reads left. -/
def Queued (loaders : Loaders P L R) (contents : P → List (List R)) (thisWorker : ℕ)
    (done : List (ℕ × P × ℕ)) (queue : List (LoadPartEntry P L)) (n : ℕ)
    (o : List (ℕ × LoadCall P R)) : Prop :=
  ∃ queue', Refines loaders queue queue' ∧ Loading contents thisWorker done queue' o ∧
    toRead queue' = n

variable {parts : List (LoadPartEntry P L)} {n : ℕ}

/-- The assignments of an activation. -/
theorem Queued.run_assign (h : Queued loaders contents thisWorker done parts n o)
    {updates : List (ℕ × P × ℕ)}
    (hknown : ∀ a ∈ updates, Known loaders contents localParts thisWorker a)
    (honce : ((done ++ updates).map fun a => a.2.1).Nodup) :
    ∃ parts' n' o', Runs.run (PartdLoad.assign loaders localParts thisWorker) parts updates =
        some (parts', o') ∧
      Queued loaders contents thisWorker (done ++ updates) parts' n' (o ++ o') := by
  induction updates generalizing done parts n o with
  | nil => exact ⟨parts, n, [], rfl, by rwa [List.append_nil, List.append_nil]⟩
  | cons a updates ih =>
    obtain ⟨queue', hrefines, hloading, rfl⟩ := h
    have hnew : a.2.1 ∉ done.map fun a => a.2.1 := by
      intro hin
      rw [List.map_append, List.nodup_append] at honce
      exact honce.2.2 _ hin _ (List.mem_map_of_mem List.mem_cons_self) rfl
    obtain ⟨q, q', o₁, hstep, hstep', hq⟩ := hrefines.assign (hknown a List.mem_cons_self)
    have hqueued : Queued loaders contents thisWorker (done ++ [a]) q (toRead q') (o ++ o₁) :=
      ⟨q', hq, hloading.assign hnew hstep', rfl⟩
    obtain ⟨parts', n', o₂, hrun, hend⟩ := ih hqueued
      (fun b hb => hknown b (List.mem_cons_of_mem _ hb)) (by rwa [← List.append_cons])
    rw [← List.append_cons, List.append_assoc] at hend
    exact ⟨parts', n', o₁ ++ o₂, Runs.run_cons hstep hrun, hend⟩

/-- One read: the queue has one less left, if there was one. -/
theorem Queued.read (h : Queued loaders contents thisWorker done parts n o) (top : ℕ) :
    ∃ parts' n' o', PartdLoad.readTop loaders parts top = some (parts', o') ∧
      Queued loaders contents thisWorker done parts' n' (o ++ o') ∧ (IsTop parts top → n' = n - 1) := by
  obtain ⟨queue', hrefines, hloading, rfl⟩ := h
  obtain ⟨q, q', o', hread, hread', hq⟩ := hrefines.readTop contents top
  obtain ⟨hloading', hless⟩ := hloading.readTop hread'
  refine ⟨q, toRead q', o', hread, ⟨q', hq, hloading', rfl⟩, ?_⟩
  rintro (rfl | ⟨entry, hentry, -⟩)
  · cases hrefines
    cases hread'
    rfl
  · obtain ⟨hlt, -⟩ := List.getElem?_eq_some_iff.mp hentry
    have hsucc := hless (hrefines.length_eq ▸ hlt)
    omega

theorem activate_eq {parts' : List (LoadPartEntry P L)} {a : LoadActivation P}
    (hrun : Runs.run (PartdLoad.assign loaders localParts thisWorker) parts (arrivals a) =
      some (parts', o))
    {parts'' : List (LoadPartEntry P L)}
    (hread : PartdLoad.readTop loaders parts' a.top = some (parts'', o')) :
    activate loaders localParts thisWorker parts a = some (parts'', o ++ o') := by
  show Option.bind _ _ = _
  rw [hrun]
  show Option.bind (PartdLoad.readTop loaders parts' a.top) _ = _
  rw [hread]
  rfl

/-- An activation reads on, after its assignments. -/
theorem Queued.activate (h : Queued loaders contents thisWorker done parts n o)
    {a : LoadActivation P}
    (hknown : ∀ x ∈ arrivals a, Known loaders contents localParts thisWorker x)
    (honce : ((done ++ arrivals a).map fun a => a.2.1).Nodup) :
    ∃ parts' n' o', activate loaders localParts thisWorker parts a = some (parts', o') ∧
      Queued loaders contents thisWorker (done ++ arrivals a) parts' n' (o ++ o') := by
  obtain ⟨q, m, o₁, hrun, hq⟩ := h.run_assign hknown honce
  obtain ⟨q', n', o₂, hread, hq', -⟩ := hq.read a.top
  exact ⟨q', n', o₁ ++ o₂, activate_eq hrun hread, by rwa [← List.append_assoc]⟩

/-- An activation without assignments. -/
theorem Queued.idle (h : Queued loaders contents thisWorker done parts n o) {a : LoadActivation P}
    (harrivals : arrivals a = []) (hpeeks : Peeks (R := R) loaders localParts thisWorker parts a) :
    ∃ parts' o', PartdLoad.activate loaders localParts thisWorker parts a = some (parts', o') ∧
      Queued loaders contents thisWorker done parts' (n - 1) (o ++ o') := by
  have hrun : Runs.run (PartdLoad.assign (R := R) loaders localParts thisWorker) parts (arrivals a) =
      some (parts, []) := by
    rw [harrivals]
    rfl
  obtain ⟨q', n', o', hread, hq', htop⟩ := h.read a.top
  obtain rfl := htop (hpeeks parts [] hrun)
  exact ⟨q', o', activate_eq hrun hread, hq'⟩

variable {as idle : List (LoadActivation P)}

/-- **All that is assigned is loaded**: the operator does not panic, and what it has sent of each part
is the beginning of what its loader reads. -/
theorem run_queued (hknown : ∀ x ∈ as.flatMap arrivals, Known loaders contents localParts thisWorker x)
    (honce : ((as.flatMap arrivals).map fun a => a.2.1).Nodup) :
    ∃ parts n o, Runs.run (activate loaders localParts thisWorker) [] as = some (parts, o) ∧
      Queued loaders contents thisWorker (as.flatMap arrivals) parts n o := by
  obtain ⟨parts, o, hr, n, done, hdone, hq⟩ := Runs.run_total_from
    (activate loaders localParts thisWorker) (Q := fun _ _ => True)
    (P := fun o s is => ∃ n done, done ++ is.flatMap arrivals = as.flatMap arrivals ∧
      Queued loaders contents thisWorker done s n o)
    (fun o parts a is ⟨n, done, hdone, hq⟩ _ => by
      rw [List.flatMap_cons, ← List.append_assoc] at hdone
      obtain ⟨parts', n', o', hstep, hq'⟩ := hq.activate
        (fun x hx => hknown x (hdone ▸ List.mem_append_left _ (List.mem_append_right _ hx)))
        (honce.sublist (hdone ▸ (List.sublist_append_left _ _).map _))
      exact ⟨parts', o', hstep, n', _, hdone, hq'⟩)
    ⟨0, [], rfl, [], .nil, .start, rfl⟩ (Runs.along_true [] as)
  rw [List.flatMap_nil, List.append_nil] at hdone
  exact ⟨parts, n, o, hr, hdone ▸ hq⟩

/-- Enough activations empty the queue. -/
theorem Queued.run_idle (h : Queued loaders contents thisWorker done parts n o)
    (harrivals : idle.flatMap arrivals = [])
    (hpeeks : Runs.Along (PartdLoad.activate loaders localParts thisWorker)
      (Peeks (R := R) loaders localParts thisWorker) parts idle) :
    ∃ parts' o', Runs.run (PartdLoad.activate loaders localParts thisWorker) parts idle =
        some (parts', o') ∧
      Queued loaders contents thisWorker done parts' (n - idle.length) (o ++ o') := by
  induction idle generalizing parts n o with
  | nil => exact ⟨parts, [], rfl, by rwa [List.append_nil]⟩
  | cons a idle ih =>
    rw [List.flatMap_cons, List.append_eq_nil_iff] at harrivals
    obtain ⟨q, o₁, hstep, hq⟩ := h.idle harrivals.1 hpeeks.1
    obtain ⟨q', o₂, hrun, hq'⟩ := ih hq harrivals.2 (hpeeks.2 q o₁ hstep)
    rw [Nat.sub_sub, Nat.add_comm, List.append_assoc] at hq'
    exact ⟨q', o₁ ++ o₂, Runs.run_cons hstep hrun, hq'⟩

/-- A queue with nothing left is empty. -/
theorem Queued.drained (h : Queued loaders contents thisWorker done parts 0 o) :
    parts = [] ∧ ∀ p, Keyed.valuesOf p (batchesOf o) =
      Keyed.valuesOf p (toLoad contents thisWorker done) := by
  obtain ⟨queue', hrefines, hloading, hzero⟩ := h
  cases hrefines with
  | nil =>
    refine ⟨rfl, fun p => ?_⟩
    rw [← hloading.batches p]
    exact congrArg _ (List.append_nil _).symm
  | cons hentry hrest => simp [toRead] at hzero

end PartdLoad
end Bytewax
