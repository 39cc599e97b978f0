import Bytewax.Operators.PartitionedInput

/-!
# Bytewax.Operators.PartitionTrace — what may happen to a partition

`Lives` says which sequences of events a partition of a source may go through: it is built, it is
polled in its epoch, it leaves the epoch with a snapshot, and after the poll that finds its end it
leaves its epoch once more.  What a snapshot is worth on resume follows from that alone: `Reflects`
says that the latest snapshot before an epoch is the partition's after the batches before it.
-/

namespace Bytewax

namespace PartEvent

variable {X S : Type}

/-- The epoch of the event. -/
def epoch : PartEvent X S → Nat
  | .built epoch _ _ | .nextBatch epoch _ _ | .snap epoch _ => epoch

/-- The event is a snapshot. -/
def isSnap : PartEvent X S → Bool
  | .snap .. => true
  | .built .. | .nextBatch .. => false

/-- The event is the building of the partition. -/
def isBuilt : PartEvent X S → Bool
  | .built .. => true
  | .nextBatch .. | .snap .. => false

/-- The epoch, the time and the state that a partition is built with. -/
def build? : PartEvent X S → Option (Nat × Int × Option S)
  | .built epoch now resumeState => some (epoch, now, resumeState)
  | .nextBatch .. | .snap .. => none

/-- The epoch, the scheduled time and the result of a poll. -/
def poll? : PartEvent X S → Option (Nat × Option Int × BatchResult X)
  | .nextBatch epoch sched batchRes => some (epoch, sched, batchRes)
  | .built .. | .snap .. => none

/-- The epoch and the state of a snapshot. -/
def snap? : PartEvent X S → Option (Nat × S)
  | .snap epoch state => some (epoch, state)
  | .built .. | .nextBatch .. => none

end PartEvent

namespace PartitionedInput

variable {K X S P : Type}

section Traces

variable (t : List (PartEvent X S))

def builds : List (Nat × Int × Option S) := t.filterMap PartEvent.build?

def polls : List (Nat × Option Int × BatchResult X) := t.filterMap PartEvent.poll?

def snaps : List (Nat × S) := t.filterMap PartEvent.snap?

/-- The polls in epochs before `r`. -/
def pollsBefore (r : Nat) : List (Nat × Option Int × BatchResult X) :=
  (polls t).filter fun poll => poll.1 < r

/-- The latest snapshot of an epoch before `r`. -/
def latestBefore (r : Nat) : Option (Nat × S) :=
  ((snaps t).filter fun snap => snap.1 < r).getLast?

/-- The epoch that a partition is in: the one it was built in, and one more for each snapshot. -/
def currentEpoch : Option Nat :=
  (builds t).head?.map fun b => b.1 + (snaps t).length

/-- Each poll and each snapshot is made in the epoch that the partition is in. -/
def InCurrentEpoch : Prop :=
  ∀ pre ev post, t = pre ++ ev :: post → ev.isBuilt = false → currentEpoch pre = some ev.epoch

end Traces

/-- A partition polled at these times: what is left of it, and what it answers. -/
def replay (source : FixedPartitionedSource K X S P) (part : P) :
    List (Option Int) → P × List (BatchResult X)
  | [] => (part, [])
  | sched :: scheds =>
    let (part, batchRes) := source.nextBatch part sched
    let (part, batchResults) := replay source part scheds
    (part, batchRes :: batchResults)

/-- The latest snapshot before `r` is that of the partition when it has emitted what it emitted in
epochs before `r`; without a snapshot before `r` it has emitted nothing. -/
def Reflects (source : FixedPartitionedSource K X S P) (partKey : K) (t : List (PartEvent X S))
    (r : Nat) : Prop :=
  (∀ b ∈ (builds t).head?, ∀ snap ∈ latestBefore t r,
    let replayed := replay source (source.buildPart b.2.1 partKey b.2.2)
      ((pollsBefore t r).map fun poll => poll.2.1)
    replayed.2 = (pollsBefore t r).map (fun poll => poll.2.2) ∧
      snap.2 = source.snapshot replayed.1) ∧
  (latestBefore t r = none → pollsBefore t r = [])

/-- Where a partition stands. -/
inductive Life (P : Type)
  | unbuilt
  | live (part : P) (epoch : Nat)
  | ended (part : P) (epoch : Nat)

/-- **What may happen to a partition**, and where it then stands. -/
inductive Lives (source : FixedPartitionedSource K X S P) (partKey : K) :
    List (PartEvent X S) → Life P → Prop
  | unbuilt : Lives source partKey [] .unbuilt
  | built (epoch : Nat) (now : Int) (resumeState : Option S) :
    Lives source partKey [.built epoch now resumeState]
      (.live (source.buildPart now partKey resumeState) epoch)
  | polled {t : List (PartEvent X S)} {part part' : P} {epoch : Nat} {sched : Option Int}
    {batchRes : BatchResult X} (h : Lives source partKey t (.live part epoch))
    (hpoll : source.nextBatch part sched = (part', batchRes)) (heof : batchRes ≠ .eof) :
    Lives source partKey (t ++ [.nextBatch epoch sched batchRes]) (.live part' epoch)
  | snapped {t : List (PartEvent X S)} {part : P} {epoch : Nat}
    (h : Lives source partKey t (.live part epoch)) :
    Lives source partKey (t ++ [.snap epoch (source.snapshot part)]) (.live part (epoch + 1))
  | ended {t : List (PartEvent X S)} {part part' : P} {epoch : Nat} {sched : Option Int}
    (h : Lives source partKey t (.live part epoch))
    (hpoll : source.nextBatch part sched = (part', .eof)) :
    Lives source partKey
      (t ++ [.nextBatch epoch sched .eof, .snap epoch (source.snapshot part')])
      (.ended part' (epoch + 1))

section

variable {source : FixedPartitionedSource K X S P} {t t' : List (PartEvent X S)}

@[simp] theorem builds_append : builds (t ++ t') = builds t ++ builds t' := List.filterMap_append
@[simp] theorem polls_append : polls (t ++ t') = polls t ++ polls t' := List.filterMap_append
@[simp] theorem snaps_append : snaps (t ++ t') = snaps t ++ snaps t' := List.filterMap_append

section

variable (e : Nat) (now : Int) (resumeState : Option S) (sched : Option Int)
  (batchRes : BatchResult X) (state : S) (t : List (PartEvent X S))

@[simp] theorem polls_built : polls (.built e now resumeState :: t) = polls t := rfl
@[simp] theorem polls_nextBatch :
    polls (.nextBatch e sched batchRes :: t) = (e, sched, batchRes) :: polls t := rfl
@[simp] theorem polls_snap : polls (.snap e state :: t) = polls t := rfl
@[simp] theorem snaps_built : snaps (.built e now resumeState :: t) = snaps t := rfl
@[simp] theorem snaps_nextBatch : snaps (.nextBatch e sched batchRes :: t) = snaps t := rfl
@[simp] theorem snaps_snap : snaps (.snap e state :: t) = (e, state) :: snaps t := rfl

end

@[simp] theorem polls_nil : polls ([] : List (PartEvent X S)) = [] := rfl
@[simp] theorem snaps_nil : snaps ([] : List (PartEvent X S)) = [] := rfl

@[simp] theorem pollsBefore_append {r : Nat} :
    pollsBefore (t ++ t') r = pollsBefore t r ++ pollsBefore t' r := by
  simp [pollsBefore]

theorem mem_polls {poll : Nat × Option Int × BatchResult X} (h : poll ∈ polls t) :
    .nextBatch poll.1 poll.2.1 poll.2.2 ∈ t := by
  obtain ⟨ev, hev, he⟩ := List.mem_filterMap.mp h
  cases ev with
  | nextBatch epoch sched batchRes =>
    cases he
    exact hev
  | built epoch now resumeState => cases he
  | snap epoch state => cases he

theorem mem_snaps {snap : Nat × S} (h : snap ∈ snaps t) : .snap snap.1 snap.2 ∈ t := by
  obtain ⟨ev, hev, he⟩ := List.mem_filterMap.mp h
  cases ev with
  | snap epoch state =>
    cases he
    exact hev
  | built epoch now resumeState => cases he
  | nextBatch epoch sched batchRes => cases he

theorem pollsBefore_of_le {r : Nat} (h : ∀ ev ∈ t, r ≤ ev.epoch) : pollsBefore t r = [] := by
  refine List.filter_eq_nil_iff.mpr fun poll hpoll => ?_
  have hle : r ≤ poll.1 := h _ (mem_polls hpoll)
  simpa using hle

theorem pollsBefore_of_lt {r : Nat} (h : ∀ ev ∈ t, ev.epoch < r) : pollsBefore t r = polls t := by
  refine List.filter_eq_self.mpr fun poll hpoll => ?_
  have hlt : poll.1 < r := h _ (mem_polls hpoll)
  simpa using hlt

theorem latestBefore_append_of_le {r : Nat} (h : ∀ ev ∈ t', r ≤ ev.epoch) :
    latestBefore (t ++ t') r = latestBefore t r := by
  have hnil : (snaps t').filter (fun snap => snap.1 < r) = [] := by
    refine List.filter_eq_nil_iff.mpr fun snap hsnap => ?_
    have hle : r ≤ snap.1 := h _ (mem_snaps hsnap)
    simpa using hle
  rw [latestBefore, snaps_append, List.filter_append, hnil, List.append_nil]
  rfl

theorem latestBefore_concat {r e : Nat} {state : S} (h : e < r) :
    latestBefore (t ++ [.snap e state]) r = some (e, state) := by
  simp [latestBefore, h]

/-- What is appended in epochs from `r` on does not matter to the snapshots before. -/
theorem Reflects.append_of_le {partKey : K} {r : Nat} (h : Reflects source partKey t r)
    (hb : builds t' = []) (hle : ∀ ev ∈ t', r ≤ ev.epoch) :
    Reflects source partKey (t ++ t') r := by
  unfold Reflects
  rw [builds_append, hb, List.append_nil, latestBefore_append_of_le hle, pollsBefore_append,
    pollsBefore_of_le hle, List.append_nil]
  exact h

theorem replay_append {part : P} {scheds scheds' : List (Option Int)} :
    replay source part (scheds ++ scheds') =
      ((replay source (replay source part scheds).1 scheds').1,
        (replay source part scheds).2 ++ (replay source (replay source part scheds).1 scheds').2) := by
  induction scheds generalizing part with
  | nil => rfl
  | cons sched scheds ih => simp [replay, ih]

theorem InCurrentEpoch.concat {ev : PartEvent X S} {e : Nat} (h : InCurrentEpoch t)
    (ht : currentEpoch t = some e) (hev : ev.epoch = e) : InCurrentEpoch (t ++ [ev]) := by
  intro pre x post he hx
  rcases Runs.split_concat he with ⟨rfl, rfl, -⟩ | ⟨post', -, hpost⟩
  · rw [ht, hev]
  · exact h pre x post' hpost hx

theorem currentEpoch_append {e : Nat} (h : currentEpoch t = some e) (hb : builds t' = []) :
    currentEpoch (t ++ t') = some (e + (snaps t').length) := by
  obtain ⟨b, hhead, rfl⟩ := Option.map_eq_some_iff.mp h
  simp [currentEpoch, hb, hhead, Nat.add_assoc]

end

namespace Lives

variable {source : FixedPartitionedSource K X S P} {partKey : K} {t : List (PartEvent X S)}
  {life : Life P} {part : P} {epoch : Nat}

/-- The epoch of a partition. -/
def epochOf : Life P → Option Nat
  | .unbuilt => none
  | .live _ epoch | .ended _ epoch => some epoch

/-- The partition. -/
def partOf : Life P → Option P
  | .unbuilt => none
  | .live part _ | .ended part _ => some part

theorem currentEpoch_eq (h : Lives source partKey t life) : currentEpoch t = epochOf life := by
  induction h with
  | unbuilt => rfl
  | built epoch now resumeState => rfl
  | polled h hpoll heof ih => exact currentEpoch_append ih rfl
  | snapped h ih => exact currentEpoch_append ih rfl
  | ended h hpoll ih => exact currentEpoch_append ih rfl

/-- Each poll and each snapshot is made in the epoch that the partition is in. -/
theorem inCurrentEpoch (h : Lives source partKey t life) : InCurrentEpoch t := by
  induction h with
  | unbuilt =>
    intro pre ev post he
    simp at he
  | built epoch now resumeState =>
    intro pre ev post he hev
    have hev' : ev ∈ [(.built epoch now resumeState : PartEvent X S)] := by simp [he]
    obtain rfl := List.mem_singleton.mp hev'
    cases hev
  | polled h hpoll heof ih => exact ih.concat h.currentEpoch_eq rfl
  | snapped h ih => exact ih.concat h.currentEpoch_eq rfl
  | ended h hpoll ih =>
    rw [List.append_cons]
    exact (ih.concat h.currentEpoch_eq rfl).concat (currentEpoch_append h.currentEpoch_eq rfl) rfl

/-- The polls and the snapshots so far are of epochs up to the one the partition is in; the
snapshots are of earlier ones. -/
theorem epoch_le (h : Lives source partKey t life) {e : Nat} (he : epochOf life = some e) :
    ∀ ev ∈ t, ev.epoch ≤ e ∧ (ev.isSnap → ev.epoch < e) := by
  induction h generalizing e with
  | unbuilt => cases he
  | built epoch now resumeState => 
    cases he
    simp [PartEvent.epoch, PartEvent.isSnap]
  | @polled t part part' epoch sched batchRes h hpoll heof ih =>
    cases he
    intro ev hev
    rcases List.mem_append.mp hev with hev | hev
    · exact ih rfl ev hev
    · obtain rfl := List.mem_singleton.mp hev
      exact ⟨Nat.le_refl _, nofun⟩
  | @snapped t part epoch h ih =>
    cases he
    intro ev hev
    rcases List.mem_append.mp hev with hev | hev
    · obtain ⟨hle, -⟩ := ih rfl ev hev
      exact ⟨by omega, fun _ => by omega⟩
    · obtain rfl := List.mem_singleton.mp hev
      exact ⟨Nat.le_succ _, fun _ => Nat.lt_succ_self _⟩
  | @ended t part part' epoch sched h hpoll ih =>
    cases he
    intro ev hev
    rcases List.mem_append.mp hev with hev | hev
    · obtain ⟨hle, -⟩ := ih rfl ev hev
      exact ⟨by omega, fun _ => by omega⟩
    · simp only [List.mem_cons, List.not_mem_nil, or_false] at hev
      rcases hev with rfl | rfl
      · exact ⟨Nat.le_succ _, nofun⟩
      · exact ⟨Nat.le_succ _, fun _ => Nat.lt_succ_self _⟩

/-- What comes after a snapshot is of a later epoch. -/
theorem pairwise (h : Lives source partKey t life) :
    t.Pairwise fun x y => x.isSnap → x.epoch < y.epoch := by
  induction h with
  | unbuilt => exact .nil
  | built epoch now resumeState => exact List.pairwise_singleton _ _
  | @polled t part part' epoch sched batchRes h hpoll heof ih =>
    refine List.pairwise_append.mpr ⟨ih, List.pairwise_singleton _ _, fun x hx y hy hsnap => ?_⟩
    obtain rfl := List.mem_singleton.mp hy
    exact (h.epoch_le rfl x hx).2 hsnap
  | @snapped t part epoch h ih =>
    refine List.pairwise_append.mpr ⟨ih, List.pairwise_singleton _ _, fun x hx y hy hsnap => ?_⟩
    obtain rfl := List.mem_singleton.mp hy
    exact (h.epoch_le rfl x hx).2 hsnap
  | @ended t part part' epoch sched h hpoll ih =>
    have hlast : ∀ y ∈ [.nextBatch epoch sched .eof, .snap epoch (source.snapshot part')],
        (y : PartEvent X S).epoch = epoch := by simp [PartEvent.epoch]
    refine List.pairwise_append.mpr ⟨ih, ?_, fun x hx y hy hsnap => ?_⟩
    · exact List.pairwise_pair.mpr nofun
    · rw [hlast y hy]
      exact (h.epoch_le rfl x hx).2 hsnap

/-- No poll of a partition that is still live found its end. -/
theorem not_eof (h : Lives source partKey t (.live part epoch)) :
    ∀ ev ∈ t, ∀ e sched, ev ≠ .nextBatch e sched .eof := by
  generalize hlife : Life.live part epoch = life at h
  induction h generalizing part epoch with
  | unbuilt => cases hlife
  | built epoch now resumeState => simp
  | polled h hpoll heof ih =>
    rintro ev hev e sched rfl
    rcases List.mem_append.mp hev with hev | hev
    · exact ih rfl _ hev e sched rfl
    · exact heof (PartEvent.nextBatch.inj (List.mem_singleton.mp hev)).2.2.symm
  | snapped h ih =>
    rintro ev hev e sched rfl
    rcases List.mem_append.mp hev with hev | hev
    · exact ih rfl _ hev e sched rfl
    · exact absurd (List.mem_singleton.mp hev) nofun
  | ended h hpoll ih => cases hlife

/-- The poll that finds the end is followed by a snapshot in the same epoch, and by nothing else. -/
theorem eof_snap (h : Lives source partKey t life) {pre post : List (PartEvent X S)} {e : Nat}
    {sched : Option Int} (he : t = pre ++ .nextBatch e sched .eof :: post) :
    ∃ state, post = [.snap e state] := by
  have hmem : .nextBatch e sched .eof ∈ t := he ▸ List.mem_append_right _ List.mem_cons_self
  cases h with
  | unbuilt => simp at he
  | built epoch now resumeState => simp at hmem
  | polled h hpoll heof => exact absurd rfl ((h.polled hpoll heof).not_eof _ hmem e sched)
  | snapped h => exact absurd rfl (h.snapped.not_eof _ hmem e sched)
  | @ended t part part' epoch sched' h hpoll =>
    rw [List.append_cons] at he
    rcases Runs.split_concat he with ⟨-, hx, -⟩ | ⟨post', hpost, he⟩
    · cases hx
    · rcases Runs.split_concat he with ⟨-, hx, rfl⟩ | ⟨post'', -, rfl⟩
      · cases hx
        exact ⟨_, hpost⟩
      · exact absurd rfl (h.not_eof _ (by simp) e sched)

/-- A partition is what is left of it after the polls so far. -/
theorem replay_eq (h : Lives source partKey t life) (hpart : partOf life = some part)
    {b : Nat × Int × Option S} (hb : b ∈ (builds t).head?) :
    replay source (source.buildPart b.2.1 partKey b.2.2) ((polls t).map fun poll => poll.2.1) =
      (part, (polls t).map fun poll => poll.2.2) := by
  have hhead : ∀ {t t' : List (PartEvent X S)}, builds t' = [] →
      b ∈ (builds (t ++ t')).head? → b ∈ (builds t).head? := by
    intro t t' hnil hb
    simpa [hnil] using hb
  induction h generalizing part with
  | unbuilt => cases hpart
  | built epoch now resumeState =>
    cases hpart
    cases hb
    rfl
  | polled h hpoll heof ih =>
    cases hpart
    rw [polls_append, List.map_append, List.map_append, replay_append, ih rfl (hhead rfl hb)]
    simp [replay, hpoll]
  | snapped h ih =>
    cases hpart
    rw [polls_append, List.map_append, List.map_append, replay_append, ih rfl (hhead rfl hb)]
    simp [replay]
  | ended h hpoll ih =>
    cases hpart
    rw [polls_append, List.map_append, List.map_append, replay_append, ih rfl (hhead rfl hb)]
    simp [replay, hpoll]

/-- A snapshot that is taken last reflects everything. -/
theorem reflects_concat {e r : Nat}
    (h : Lives source partKey (t ++ [.snap e (source.snapshot part)]) life)
    (hpart : partOf life = some part) (ht : ∀ ev ∈ t, ev.epoch ≤ e) (hr : e < r) :
    Reflects source partKey (t ++ [.snap e (source.snapshot part)]) r := by
  have hlt : ∀ ev ∈ t ++ [.snap e (source.snapshot part)], ev.epoch < r := by
    intro ev hev
    rcases List.mem_append.mp hev with hev | hev
    · exact Nat.lt_of_le_of_lt (ht ev hev) hr
    · obtain rfl := List.mem_singleton.mp hev
      exact hr
  refine ⟨fun b hb snap hsnap => ?_, fun hnone => ?_⟩
  · rw [latestBefore_concat hr] at hsnap
    cases hsnap
    rw [pollsBefore_of_lt hlt, h.replay_eq hpart hb]
    exact ⟨rfl, rfl⟩
  · rw [latestBefore_concat hr] at hnone
    cases hnone

/-- **The snapshots of a partition match what it emitted.** -/
theorem reflects (h : Lives source partKey t life) {r : Nat}
    (hr : ∀ part epoch, life = .live part epoch → r ≤ epoch) : Reflects source partKey t r := by
  induction h with
  | unbuilt => exact ⟨by simp [builds], fun _ => rfl⟩
  | built epoch now resumeState => exact ⟨by simp [latestBefore], fun _ => rfl⟩
  | @polled t part part' epoch sched batchRes h hpoll heof ih =>
    have hle : r ≤ epoch := hr part' epoch rfl
    refine (ih ?_).append_of_le rfl ?_
    · rintro _ _ ⟨⟩
      exact hle
    · simpa [PartEvent.epoch] using hle
  | @snapped t part epoch h ih =>
    rcases Nat.lt_or_ge epoch r with hlt | hle
    · exact h.snapped.reflects_concat rfl (fun ev hev => (h.epoch_le rfl ev hev).1) hlt
    · refine (ih ?_).append_of_le rfl ?_
      · rintro _ _ ⟨⟩
        exact hle
      · simpa [PartEvent.epoch] using hle
  | @ended t part part' epoch sched h hpoll ih =>
    rcases Nat.lt_or_ge epoch r with hlt | hle
    · have hend := h.ended hpoll
      rw [List.append_cons] at hend ⊢
      refine hend.reflects_concat rfl (fun ev hev => ?_) hlt
      rcases List.mem_append.mp hev with hev | hev
      · exact (h.epoch_le rfl ev hev).1
      · obtain rfl := List.mem_singleton.mp hev
        exact Nat.le_refl _
    · refine (ih ?_).append_of_le rfl ?_
      · rintro _ _ ⟨⟩
        exact hle
      · simpa [PartEvent.epoch] using hle

end Lives
end PartitionedInput
end Bytewax
