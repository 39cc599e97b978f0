import Bytewax.Lib.Runs
import Mathlib.Order.Basic

/-!
# Bytewax.Sources.Kafka — the partitions of `KafkaSource`

A partition asks its consumer for messages, returns those up to the end of the Kafka partition, and
keeps the offset to resume from.  What the consumer gives is a parameter: the list of messages that
each call of `consume` returns.
-/

namespace Bytewax

/-- The error of a message: the event of `enable.partition.eof`, or an error `E`. -/
inductive MessageError (E : Type)
  | partitionEof
  | other (err : E)
  deriving DecidableEq, Repr

/-- A message of the consumer; `content` are its other fields. -/
structure ConsumedMessage (E M : Type) where
  error : Option (MessageError E)
  offset : Option Int
  content : M
  deriving DecidableEq, Repr

/-- `KafkaSourceMessage`. -/
structure KafkaSourceMessage (M : Type) where
  offset : Option Int
  content : M
  deriving DecidableEq, Repr

/-- What a batch holds, `KafkaSourceMessage` or `KafkaError`. -/
inductive KafkaItem (E M : Type)
  | message (msg : KafkaSourceMessage M)
  | error (err : E) (msg : KafkaSourceMessage M)
  deriving DecidableEq, Repr

/-- The offset of the message in an item. -/
def KafkaItem.offset {E M : Type} : KafkaItem E M → Option Int
  | .message msg => msg.offset
  | .error _ msg => msg.offset

/-- `_KafkaSourcePartition`. -/
structure KafkaSourcePartition where
  offset : Int
  eof : Bool
  raiseOnErrors : Bool
  deriving DecidableEq, Repr

namespace KafkaSourcePartition

variable {E M : Type}

/-- `_KafkaSourcePartition.__init__`, which also assigns the consumer to `offset`. -/
def new (startingOffset : Int) (resumeState : Option Int) (raiseOnErrors : Bool) :
    KafkaSourcePartition :=
  ⟨resumeState.getD startingOffset, false, raiseOnErrors⟩

/-- The loop over the messages, with the batch, `last_offset` and `_eof`; `none` where it raises
`RuntimeError`. -/
def readMsgs (raiseOnErrors : Bool) : List (ConsumedMessage E M) → List (KafkaItem E M) →
    Option Int → Option (List (KafkaItem E M) × Option Int × Bool)
  | [], batch, lastOffset => some (batch, lastOffset, false)
  | msg :: msgs, batch, lastOffset =>
    match msg.error with
    | some .partitionEof => some (batch, lastOffset, true)
    | some (.other err) =>
      if raiseOnErrors then none
      else readMsgs raiseOnErrors msgs (batch ++ [.error err ⟨msg.offset, msg.content⟩]) msg.offset
    | none =>
      readMsgs raiseOnErrors msgs (batch ++ [.message ⟨msg.offset, msg.content⟩]) msg.offset

/-- `next_batch`, when `consume` returns `msgs`; `none` where it raises `StopIteration` or
`RuntimeError`. -/
def nextBatch (p : KafkaSourcePartition) (msgs : List (ConsumedMessage E M)) :
    Option (KafkaSourcePartition × List (KafkaItem E M)) :=
  if p.eof then none
  else do
    let (batch, lastOffset, eof) ← readMsgs p.raiseOnErrors msgs [] none
    let offset := match lastOffset with
      | some lastOffset => lastOffset + 1
      | none => p.offset
    return ({ p with offset, eof }, batch)

/-- `snapshot`. -/
def snapshot (p : KafkaSourcePartition) : Int := p.offset

end KafkaSourcePartition

variable {E M : Type}

/-- The messages of a `consume` before the end of the Kafka partition. -/
def beforeEof (msgs : List (ConsumedMessage E M)) : List (ConsumedMessage E M) :=
  msgs.takeWhile fun msg => match msg.error with
    | some .partitionEof => false
    | _ => true

/-- The offsets that the messages of a `consume` carry. -/
def carried (msgs : List (ConsumedMessage E M)) : List Int :=
  (beforeEof msgs).filterMap ConsumedMessage.offset

/-- The offset of the last message of a `consume`. -/
def lastCarried (msgs : List (ConsumedMessage E M)) : Option Int :=
  (beforeEof msgs).getLast?.bind ConsumedMessage.offset

/-- Among the messages of a `consume`, the last one carries an offset if any does. -/
def LastCarries (msgs : List (ConsumedMessage E M)) : Prop :=
  lastCarried msgs = none → carried msgs = []

instance (msgs : List (ConsumedMessage E M)) : Decidable (LastCarries msgs) :=
  inferInstanceAs (Decidable (_ → _))

/-- The offsets that returned items carry. -/
def offsetsOf (items : List (KafkaItem E M)) : List Int := items.filterMap KafkaItem.offset

/-- `snapshot` says where to go on: one after the last returned offset, so that of the offsets
`pending` that the Kafka partition holds those from there on are the ones not returned. -/
structure SnapshotRight (start : Int) (pending : List Int) (snapshot : Int) (returned : List Int) :
    Prop where
  last : snapshot = returned.getLast?.elim start (· + 1)
  resumes : returned ≠ [] → pending = returned ++ pending.filter (snapshot ≤ ·)

/-- The snapshot is right after each call of `next_batch`. -/
def TracksReturned (p : KafkaSourcePartition) (pending : List Int)
    (results : List (List (ConsumedMessage E M))) : Prop :=
  ∀ pre, pre <+: results → ∀ p' items,
    Runs.run KafkaSourcePartition.nextBatch p pre = some (p', items) →
      SnapshotRight p.offset pending p'.snapshot (offsetsOf items)

/-- The consumer gives the offsets that the Kafka partition holds from the assigned one on, in order. -/
structure Consumes (p : KafkaSourcePartition) (pending : List Int)
    (results : List (List (ConsumedMessage E M))) : Prop where
  increasing : pending.Pairwise (· < ·)
  assigned : ∀ offset ∈ pending, p.offset ≤ offset
  delivered : results.flatMap carried <+: pending

theorem offsetsOf_append (items items' : List (KafkaItem E M)) :
    offsetsOf (items ++ items') = offsetsOf items ++ offsetsOf items' := List.filterMap_append

/-- Where the last message carries an offset, it is the last one carried. -/
theorem getLast?_carried {msgs : List (ConsumedMessage E M)} {offset : Int}
    (h : lastCarried msgs = some offset) : (carried msgs).getLast? = some offset := by
  obtain ⟨msg, hmsg, hoffset⟩ := Option.bind_eq_some_iff.mp h
  obtain ⟨pre, hpre⟩ := List.getLast?_eq_some_iff.mp hmsg
  rw [carried, hpre, List.filterMap_append]
  simp [hoffset]

namespace KafkaSourcePartition

variable {p p' : KafkaSourcePartition} {raiseOnErrors : Bool} {msgs : List (ConsumedMessage E M)}
  {items batch : List (KafkaItem E M)} {results : List (List (ConsumedMessage E M))}
  {pending : List Int}

/-- **The loop over the messages.** -/
theorem readMsgs_eq {eof : Bool} {start lastOffset : Option Int} {batch₀ : List (KafkaItem E M)}
    (h : readMsgs raiseOnErrors msgs batch₀ start = some (batch, lastOffset, eof)) :
    offsetsOf batch = offsetsOf batch₀ ++ carried msgs ∧
      lastOffset = ((beforeEof msgs).getLast?.map ConsumedMessage.offset).getD start := by
  induction msgs generalizing batch₀ start with
  | nil =>
    cases h
    exact ⟨(List.append_nil _).symm, rfl⟩
  | cons msg msgs ih =>
    -- A message that is not the end is returned, and its offset replaces `last_offset`.
    have hmore : ∀ item : KafkaItem E M, item.offset = msg.offset →
        beforeEof (msg :: msgs) = msg :: beforeEof msgs →
        readMsgs raiseOnErrors msgs (batch₀ ++ [item]) msg.offset = some (batch, lastOffset, eof) →
        offsetsOf batch = offsetsOf batch₀ ++ carried (msg :: msgs) ∧
          lastOffset = ((beforeEof (msg :: msgs)).getLast?.map ConsumedMessage.offset).getD start := by
      intro item hitem hbefore hread
      obtain ⟨hbatch, hlast⟩ := ih hread
      constructor
      · rw [hbatch, offsetsOf_append, List.append_assoc, carried, carried, hbefore]
        congr 1
        simp only [offsetsOf, List.filterMap_cons, List.filterMap_nil, hitem]
        cases msg.offset <;> rfl
      · rw [hlast, hbefore, List.getLast?_cons]
        cases (beforeEof msgs).getLast? <;> rfl
    unfold readMsgs at h
    split at h
    · next herror =>
      cases h
      have hbefore : beforeEof (msg :: msgs) = [] := by simp [beforeEof, herror]
      rw [carried, hbefore]
      exact ⟨(List.append_nil _).symm, rfl⟩
    · next err herror =>
      obtain ⟨-, h⟩ := Option.ite_none_left_eq_some.mp h
      exact hmore (.error err ⟨msg.offset, msg.content⟩) rfl (by simp [beforeEof, herror]) h
    · next herror =>
      exact hmore (.message ⟨msg.offset, msg.content⟩) rfl (by simp [beforeEof, herror]) h

/-- What a call returns and where it leaves the partition. -/
theorem nextBatch_eq_some (h : p.nextBatch msgs = some (p', batch)) :
    offsetsOf batch = carried msgs ∧ p'.offset = (lastCarried msgs).elim p.offset (· + 1) := by
  obtain ⟨-, h⟩ := Option.ite_none_left_eq_some.mp h
  obtain ⟨⟨batch', lastOffset, eof⟩, hread, h⟩ := Option.bind_eq_some_iff.mp h
  obtain ⟨hbatch, hlast⟩ := readMsgs_eq hread
  cases h
  refine ⟨hbatch, ?_⟩
  have hcarried : lastOffset = lastCarried msgs := by
    rw [hlast, lastCarried]
    cases (beforeEof msgs).getLast? <;> rfl
  rw [← hcarried]
  cases lastOffset <;> rfl

theorem run_nextBatch_offsets (h : Runs.run nextBatch p results = some (p', items)) :
    offsetsOf items = results.flatMap carried := by
  induction results generalizing p items with
  | nil =>
    cases h
    rfl
  | cons msgs results ih =>
    obtain ⟨p₁, batch, rest, hstep, hrest, rfl⟩ := Runs.exists_of_run_cons h
    rw [offsetsOf_append, (nextBatch_eq_some hstep).1, ih hrest, List.flatMap_cons]

/-- As long as the last messages carry their offsets, the snapshot follows the returned ones. -/
theorem offset_of_run (hlast : ∀ msgs ∈ results, LastCarries msgs)
    (h : Runs.run nextBatch p results = some (p', items)) :
    p'.offset = (offsetsOf items).getLast?.elim p.offset (· + 1) := by
  induction results using List.reverseRecOn generalizing p' items with
  | nil =>
    cases h
    rfl
  | append_singleton results msgs ih =>
    obtain ⟨p₁, items₁, batch, hrun, hstep, rfl⟩ := Runs.exists_of_run_append h
    rw [Runs.run_singleton] at hstep
    obtain ⟨hbatch, hoffset⟩ := nextBatch_eq_some hstep
    have hbefore := ih (fun msgs' hmem => hlast msgs' (List.mem_append_left _ hmem)) hrun
    rw [hoffset, offsetsOf_append, hbatch]
    cases hcarried : lastCarried msgs with
    | none =>
      have hnone := hlast msgs (List.mem_append_right _ (List.mem_singleton_self msgs)) hcarried
      rw [hnone, List.append_nil]
      exact hbefore
    | some offset =>
      rw [List.getLast?_append, getLast?_carried hcarried]
      rfl

end KafkaSourcePartition

open KafkaSourcePartition

variable {p : KafkaSourcePartition} {results : List (List (ConsumedMessage E M))} {pending : List Int}

/-- Of increasing offsets, those after the last returned one are the ones not returned. -/
theorem pending_eq {returned : List Int} {last : Int} (hinc : pending.Pairwise (· < ·))
    (hret : returned <+: pending) (hlast : returned.getLast? = some last) :
    pending = returned ++ pending.filter (last + 1 ≤ ·) := by
  obtain ⟨rest, rfl⟩ := hret
  obtain ⟨pre, rfl⟩ := List.getLast?_eq_some_iff.mp hlast
  obtain ⟨hpre, -, hrest⟩ := List.pairwise_append.mp hinc
  have hle : ∀ offset ∈ pre ++ [last], ¬ last + 1 ≤ offset := by
    intro offset hmem
    rcases List.mem_append.mp hmem with hmem | hmem
    · have := (List.pairwise_append.mp hpre).2.2 offset hmem last (List.mem_singleton_self last)
      omega
    · have := List.mem_singleton.mp hmem
      omega
  have hgt : ∀ offset ∈ rest, last + 1 ≤ offset := fun offset hmem =>
    hrest last (List.mem_append_right _ (List.mem_singleton_self last)) offset hmem
  rw [List.filter_append, List.filter_eq_nil_iff.mpr (by simpa using hle),
    List.filter_eq_self.mpr (by simpa using hgt), List.nil_append]

/-- **When the snapshots of a Kafka partition are right.** -/
theorem tracksReturned_iff (startingOffset : Int) (resumeState : Option Int) (raiseOnErrors : Bool)
    (pending : List Int) (results : List (List (ConsumedMessage E M)))
    (hcons : Consumes (.new startingOffset resumeState raiseOnErrors) pending results)
    (hrun : (Runs.run nextBatch (.new startingOffset resumeState raiseOnErrors) results).isSome) :
    TracksReturned (.new startingOffset resumeState raiseOnErrors) pending results ↔
      ∀ msgs ∈ results, LastCarries msgs := by
  generalize KafkaSourcePartition.new startingOffset resumeState raiseOnErrors = p at hcons hrun ⊢
  constructor
  · intro h msgs hmem hnone
    by_contra hne
    obtain ⟨pre, post, rfl⟩ := List.append_of_mem hmem
    obtain ⟨⟨pEnd, itemsEnd⟩, hrun⟩ := Option.isSome_iff_exists.mp hrun
    obtain ⟨p₁, items₁, rest, hpre, hrest, -⟩ := Runs.exists_of_run_append hrun
    obtain ⟨p₂, batch, -, hstep, -⟩ := Runs.exists_of_run_cons hrest
    obtain ⟨hbatch, hoffset⟩ := nextBatch_eq_some hstep
    have hboth := Runs.run_append_of_eq_some hpre (Runs.run_singleton.trans hstep)
    have hlast₁ := (h pre (List.prefix_append _ _) p₁ items₁ hpre).last
    have hlast₂ := (h (pre ++ [msgs]) (by simp) p₂ _ hboth).last
    replace hlast₁ : p₁.offset = _ := hlast₁
    replace hlast₂ : p₂.offset = _ := hlast₂
    rw [hoffset, hnone, offsetsOf_append, hbatch] at hlast₂
    -- The offset to resume from has stayed what it was before the call, behind the last one carried.
    obtain ⟨init, last, hinit⟩ := (List.eq_nil_or_concat (carried msgs)).resolve_left hne
    rw [List.concat_eq_append] at hinit
    have hret : offsetsOf items₁ ++ carried msgs <+: pending := by
      rw [run_nextBatch_offsets hpre]
      refine List.IsPrefix.trans ?_ hcons.delivered
      rw [List.flatMap_append, List.flatMap_cons, ← List.append_assoc]
      exact List.prefix_append _ _
    have hlast : last ∈ carried msgs := by simp [hinit]
    rw [List.getLast?_append, hinit, List.getLast?_concat] at hlast₂
    replace hlast₂ : p₁.offset = last + 1 := hlast₂
    cases hprev : (offsetsOf items₁).getLast? with
    | none =>
      rw [hprev] at hlast₁
      replace hlast₁ : p₁.offset = p.offset := hlast₁
      have := hcons.assigned last (hret.subset (List.mem_append_right _ hlast))
      omega
    | some prev =>
      rw [hprev] at hlast₁
      replace hlast₁ : p₁.offset = prev + 1 := hlast₁
      have := (List.pairwise_append.mp (hcons.increasing.sublist hret.sublist)).2.2 prev
        (List.mem_of_getLast? hprev) last hlast
      omega
  · intro h pre hpre p' items hitems
    have hlast := offset_of_run (fun msgs hmem => h msgs (hpre.subset hmem)) hitems
    refine ⟨hlast, fun hne => ?_⟩
    have hret : offsetsOf items <+: pending := by
      obtain ⟨post, rfl⟩ := hpre
      rw [run_nextBatch_offsets hitems]
      refine List.IsPrefix.trans ?_ hcons.delivered
      rw [List.flatMap_append]
      exact List.prefix_append _ _
    obtain ⟨init, last, hinit⟩ := (List.eq_nil_or_concat (offsetsOf items)).resolve_left hne
    rw [List.concat_eq_append] at hinit
    have hget : (offsetsOf items).getLast? = some last := by rw [hinit, List.getLast?_concat]
    rw [hget] at hlast
    replace hlast : p'.snapshot = last + 1 := hlast
    rw [hlast]
    exact pending_eq hcons.increasing hret hget

/-- Two messages, an error before the third, and the end of the Kafka partition. -/
def twoCalls : List (List (ConsumedMessage String String)) :=
  [[⟨none, some 5, "a"⟩, ⟨none, some 6, "b"⟩],
    [⟨some (.other "timed out"), none, ""⟩, ⟨none, some 7, "c"⟩, ⟨some .partitionEof, some 8, ""⟩]]

theorem tracksReturned_iff_twoCalls : TracksReturned (.new (-2) none false) [5, 6, 7] twoCalls := by
  refine (tracksReturned_iff (-2) none false [5, 6, 7] twoCalls ?_ ?_).mpr ?_
  · exact ⟨by decide, by decide, by decide⟩
  · decide
  · decide

/-- An error without an offset, behind a message in one call of `consume`: the message is returned
again from the snapshot. -/
theorem not_tracksReturned_trailingError : ¬ TracksReturned (.new (-2) none false) [5]
    [[⟨none, some 5, "a"⟩, ⟨some (.other "timed out"), none, ""⟩]] := by
  intro h
  have hlast := (h _ List.prefix_rfl ⟨-2, false, false⟩ _ rfl).last
  revert hlast
  decide

end Bytewax
