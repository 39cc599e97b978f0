import Bytewax.Operators.UnarySpec
import Mathlib.Logic.Function.Basic

/-!
# Bytewax.Operators.UnarySchedules — the schedule does not matter

The sequential reference takes the items of epoch 0, then snapshots the keys it has touched, then
the items of epoch 1, and so on.  Without loads and before the end of the inputs, every schedule
sends what the reference sends (`schedules_agree`), for logics that do not read the clock; one that
does tells when the operator was activated.
-/

namespace Bytewax

open Std (TreeMap TreeSet)

namespace Unary

variable {K V W S L : Type} [LinearOrder K]

/-! ### The sequential reference -/

section Reference

variable (logic : UnaryLogic V W S L)

/-- `on_item` for one item; a key without a logic gets a new one. -/
def seqItem (logics : K → Option L) (item : K × V) : (K → Option L) × List (K × W) :=
  let r := callItem logic 0 (logics item.1) item.2
  (Function.update logics item.1 (kept r), r.2.1.map fun w => (item.1, w))

/-- `on_item` for the items of an epoch, one after the other. -/
def seqItems : (K → Option L) → List (K × V) → (K → Option L) × List (K × W)
  | logics, [] => (logics, [])
  | logics, item :: items =>
    let first := seqItem logic logics item
    let rest := seqItems first.1 items
    (rest.1, first.2 ++ rest.2)

/-- The logics at the start of an epoch. -/
def seqState (items : Nat → List (K × V)) : Nat → K → Option L
  | 0 => fun _ => none
  | e + 1 => (seqItems logic (seqState items e) (items e)).1

/-- What the reference sends downstream in an epoch. -/
def seqEmits (items : Nat → List (K × V)) (e : Nat) : List (K × W) :=
  (seqItems logic (seqState logic items e) (items e)).2

/-- What the reference sends to recovery at the end of an epoch: the keys touched in it. -/
def seqSnaps (items : Nat → List (K × V)) (e : Nat) (k : K) : List (StateChange S) :=
  if k ∈ (items e).map Prod.fst then [changeOf logic (seqState logic items (e + 1) k)] else []

end Reference

variable {logic : UnaryLogic V W S L}

/-- The reference as one key sees it. -/
theorem seqItems_key (items : List (K × V)) (logics : K → Option L) (k : K) :
    (seqItems logic logics items).1 k = (feed logic 0 (logics k) (Keyed.valuesOf k items)).1 ∧
      Keyed.valuesOf k (seqItems logic logics items).2 =
        (feed logic 0 (logics k) (Keyed.valuesOf k items)).2 := by
  induction items generalizing logics with
  | nil => exact ⟨rfl, rfl⟩
  | cons item items ih =>
    obtain ⟨hstate, hemits⟩ := ih (seqItem logic logics item).1
    rw [seqItems, Keyed.valuesOf_append, hstate, hemits, Keyed.valuesOf_cons]
    by_cases hk : item.1 = k
    · subst hk
      have hupdate : (seqItem logic logics item).1 item.1 =
          kept (callItem logic 0 (logics item.1) item.2) := Function.update_self ..
      have hvalues : Keyed.valuesOf item.1 (seqItem logic logics item).2 =
          (callItem logic 0 (logics item.1) item.2).2.1 := Keyed.valuesOf_map_mk ..
      rw [hupdate, hvalues, if_pos rfl, feed]
      exact ⟨rfl, rfl⟩
    · have hupdate : (seqItem logic logics item).1 k = logics k :=
        Function.update_of_ne (Ne.symm hk) ..
      have hvalues : Keyed.valuesOf k (seqItem logic logics item).2 = [] := by
        refine Keyed.valuesOf_eq_nil fun hm => hk ?_
        simp only [seqItem, List.map_map, List.mem_map] at hm
        obtain ⟨w, -, hw⟩ := hm
        exact hw
      rw [hupdate, hvalues, if_neg hk]
      exact ⟨rfl, rfl⟩

theorem seqState_eq {items : Nat → List (K × V)} {values : Nat → K → List V}
    {loads : Nat → K → List (StateChange S)} (hv : ∀ e k, Keyed.valuesOf k (items e) = values e k)
    (hl : ∀ e k, loads e k = []) (e : Nat) (k : K) :
    seqState logic items e k = stateAt logic values loads e k := by
  induction e with
  | zero => rfl
  | succ e ih =>
    rw [seqState, stateAt, (seqItems_key _ _ k).1, ih, hv, hl]
    rfl

/-! ### Every schedule sends what the reference sends -/

/-- The epoch has been run as far as its items have arrived. -/
def IsRun (resumeEpoch : Nat) (as : List (Activation K V S)) (e : Nat) : Prop :=
  (frontierAfter as).IsClosed e ∨ frontierAfter as = some e ∧ resumeEpoch ≤ e

/-- The same is sent downstream in the epochs that have been run, and to recovery in those that are
closed. -/
def SendSame (resumeEpoch : Nat) (as as' : List (Activation K V S))
    (events events' : List (UnaryEvent K V W S)) : Prop :=
  ∀ e k, (IsRun resumeEpoch as e → IsRun resumeEpoch as' e →
      itemsOf e k events = itemsOf e k events') ∧
    ((frontierAfter as).IsClosed e → (frontierAfter as').IsClosed e →
      snapsOf e k events = snapsOf e k events')

/-- What the reference sends for these items is sent. -/
def SendsReference (logic : UnaryLogic V W S L) (resumeEpoch : Nat) (items : Nat → List (K × V))
    (as : List (Activation K V S)) (events : List (UnaryEvent K V W S)) : Prop :=
  ∀ e k, (IsRun resumeEpoch as e →
      itemsOf e k events = Keyed.valuesOf k (seqEmits logic items e)) ∧
    ((frontierAfter as).IsClosed e → snapsOf e k events = seqSnaps logic items e k) ∧
    (¬ (frontierAfter as).IsClosed e → snapsOf e k events = [])

theorem loadsFor_eq_nil {as : List (Activation K V S)} (h : ∀ a ∈ as, a.loads = []) (e : Nat)
    (k : K) : loadsFor as e k = [] := by
  have hnil : (as.flatMap fun a => a.loads) = [] := List.flatMap_eq_nil_iff.mpr h
  rw [loadsFor, deliveredLoads, hnil]
  rfl

/-- A schedule without loads sends what the reference sends for any items that are, key by key,
those delivered. -/
theorem run_sendsReference (hclock : logic.ReadsNoClock) (hnever : logic.NeverNotifies)
    (resumeEpoch : Nat) {items : Nat → List (K × V)} {as : List (Activation K V S)}
    (has : Schedule (some 0) (some 0) as)
    (hopen : ∀ a ∈ as, a.frontier ≠ none ∧ a.loads = [])
    (hitems : ∀ e k, Keyed.valuesOf k (items e) = Keyed.valuesOf k (delivered as e)) :
    ∃ s events, Runs.run (activate logic resumeEpoch) init as = some (s, events) ∧
      SendsReference logic resumeEpoch items as events := by
  obtain ⟨s, events, t, run, hr, hft, hpos, hrun⟩ := run_position hclock hnever
    resumeEpoch has fun a ha => (hopen a ha).1
  have hloads : ∀ e k, loadsFor as e k = [] := loadsFor_eq_nil fun a ha => (hopen a ha).2
  have hstate : ∀ e k, seqState logic items e k = stateAt logic (itemsFor as) (loadsFor as) e k :=
    seqState_eq hitems hloads
  have hemits : ∀ e k, Keyed.valuesOf k (seqEmits logic items e) =
      specItems logic (itemsFor as) (loadsFor as) e k := fun e k => by
    rw [seqEmits, (seqItems_key _ _ k).2, hstate, hitems]
    rfl
  have hsnaps : ∀ e k, seqSnaps logic items e k =
      specSnaps logic (itemsFor as) (loadsFor as) e k := fun e k => by
    have hmem : k ∈ (items e).map Prod.fst ↔ itemsFor as e k ≠ [] := by
      rw [← Keyed.valuesOf_ne_nil, hitems]
      rfl
    have hnext : seqState logic items (e + 1) k =
        (feed logic 0 (stateAt logic (itemsFor as) (loadsFor as) e k) (itemsFor as e k)).1 := by
      rw [hstate, stateAt, hloads]
      rfl
    rw [seqSnaps, specSnaps, hnext]
    by_cases hk : itemsFor as e k = []
    · rw [if_neg fun hm => hmem.mp hm hk, if_pos hk]
    · rw [if_pos (hmem.mpr hk), if_neg hk]
  refine ⟨s, events, hr, fun e k => ⟨fun hisrun => ?_, fun hc => ?_, fun hc => ?_⟩⟩
  · rw [hemits]
    rcases hisrun with hc | ⟨heq, hres⟩
    · rw [hft] at hc
      exact hpos.itemsOver e (Frontier.isClosed_some.mp hc) k
    · rw [hft] at heq
      obtain rfl : t = e := Option.some.inj heq
      rw [hpos.itemsNow, hrun hres]
      rfl
  · rw [hft] at hc
    rw [hsnaps, hpos.snapsOver e (Frontier.isClosed_some.mp hc)]
  · rw [hft, Frontier.isClosed_some] at hc
    rcases Nat.eq_or_lt_of_le (Nat.not_lt.mp hc) with rfl | hlt
    · exact hpos.snapsNow k
    · refine snapsOf_eq_nil fun x hx hxe => ?_
      have := hpos.epoch x hx
      omega

/-- **The schedule does not matter**: two schedules that deliver the same items of each epoch and
key send the same, which is what the sequential reference sends. -/
theorem schedules_agree (hclock : logic.ReadsNoClock) (hnever : logic.NeverNotifies)
    (resumeEpoch : Nat) {as as' : List (Activation K V S)} (has : Schedule (some 0) (some 0) as)
    (has' : Schedule (some 0) (some 0) as')
    (hopen : ∀ a ∈ as, a.frontier ≠ none ∧ a.loads = [])
    (hopen' : ∀ a ∈ as', a.frontier ≠ none ∧ a.loads = [])
    (hsame : ∀ e k, Keyed.valuesOf k (delivered as e) = Keyed.valuesOf k (delivered as' e)) :
    ∃ s events s' events', Runs.run (activate logic resumeEpoch) init as = some (s, events) ∧
      Runs.run (activate logic resumeEpoch) init as' = some (s', events') ∧
      SendSame resumeEpoch as as' events events' ∧
      SendsReference logic resumeEpoch (delivered as) as events ∧
      SendsReference logic resumeEpoch (delivered as) as' events' := by
  obtain ⟨s, events, hr, href⟩ :=
    run_sendsReference hclock hnever resumeEpoch has hopen fun _ _ => rfl
  obtain ⟨s', events', hr', href'⟩ :=
    run_sendsReference hclock hnever resumeEpoch has' hopen' hsame
  refine ⟨s, events, s', events', hr, hr', fun e k => ⟨fun h h' => ?_, fun h h' => ?_⟩, href, href'⟩
  · rw [(href e k).1 h, (href' e k).1 h']
  · rw [(href e k).2.1 h, (href' e k).2.1 h']

/-- A logic that counts its values and emits the count. -/
def counter : UnaryLogic Unit Int Int Int where
  builder _ resumeState := resumeState.getD 0
  onItem l _ _ := (l + 1, [l + 1], .retain)
  onNotify l _ := (l, [], .retain)
  onEof l := (l, [], .retain)
  notifyAt _ := none
  snapshot l := l

theorem counter_readsNoClock : counter.ReadsNoClock :=
  ⟨fun _ _ _ => rfl, fun _ _ _ _ => rfl⟩

/-- Items arrive in epoch 0 at a time; the frontier of the items is `frontier`. -/
def unitItems {S : Type} (now : Int) (items : List (Nat × Unit)) (frontier : Nat) :
    Activation Nat Unit S where
  now := now
  items := [(0, items)]
  loads := []
  itemsFrontier := some frontier
  loadsFrontier := none

theorem follows_unitItems {S : Type} (fl : Frontier) (now : Int) (items : List (Nat × Unit))
    (frontier : Nat) : Follows (some 0) fl (unitItems now items frontier : Activation Nat Unit S) := by
  refine ⟨fun b hb => ⟨0, rfl, Nat.zero_le _⟩, List.forall_mem_nil _, ?_, ?_⟩
  · rintro t ⟨⟩
    exact ⟨0, rfl, Nat.zero_le _⟩
  · rintro t ⟨⟩

/-- Two items of a key in one batch. -/
def oneBatch : List (Activation Nat Unit Int) :=
  [unitItems 0 [(7, ()), (7, ())] 1]

/-- The same items in two batches, with the epoch run in between. -/
def twoBatches : List (Activation Nat Unit Int) :=
  [unitItems 5 [(7, ())] 0, unitItems 9 [(7, ())] 1]

theorem schedules_agree_two_batches :
    ∃ s events s' events', Runs.run (activate counter 0) init oneBatch = some (s, events) ∧
      Runs.run (activate counter 0) init twoBatches = some (s', events') ∧
      SendSame 0 oneBatch twoBatches events events' ∧
      SendsReference counter 0 (delivered oneBatch) oneBatch events ∧
      SendsReference counter 0 (delivered oneBatch) twoBatches events' := by
  refine schedules_agree counter_readsNoClock (fun _ => rfl) 0
    ⟨follows_unitItems _ 0 _ 1, trivial⟩
    ⟨follows_unitItems _ 5 _ 0, follows_unitItems _ 9 _ 1, trivial⟩ ?_ ?_ ?_
  · intro a ha
    obtain rfl := List.mem_singleton.mp ha
    exact ⟨by decide, rfl⟩
  · intro a ha
    rcases List.mem_pair.mp ha with rfl | rfl
    · exact ⟨by decide, rfl⟩
    · exact ⟨by decide, rfl⟩
  · intro e k
    by_cases he : 0 = e
    · simp [delivered, oneBatch, twoBatches, unitItems, Keyed.valuesOf_cons, he]
    · simp [delivered, oneBatch, twoBatches, unitItems, Keyed.valuesOf_cons, he]

/-! ### A logic that reads the clock -/

/-- A logic that emits the time it is given. -/
def stamp : UnaryLogic Unit Int Unit Unit where
  builder _ _ := ()
  onItem _ now _ := ((), [now], .retain)
  onNotify _ _ := ((), [], .retain)
  onEof _ := ((), [], .retain)
  notifyAt _ := none
  snapshot _ := ()

/-- An item of key 7 in epoch 0, which is then closed. -/
def oneItem (now : Int) : List (Activation Nat Unit Unit) :=
  [unitItems now [(7, ())] 1]

theorem schedule_oneItem (now : Int) : Schedule (some 0) (some 0) (oneItem now) :=
  ⟨follows_unitItems _ now _ 1, trivial⟩

theorem itemsOf_stamp {now : Int} {s : UnaryState Nat Unit Unit Unit}
    {events : List (UnaryEvent Nat Unit Int Unit)} (hnow : now = 0 ∨ now = 1)
    (hr : Runs.run (activate stamp 0) init (oneItem now) = some (s, events)) :
    itemsOf 0 7 events = [now] := by
  have hev : (Runs.run (activate stamp 0) init (oneItem now)).map (fun p => itemsOf 0 7 p.2) =
      some [now] := by
    rcases hnow with rfl | rfl
    · decide +kernel
    · decide +kernel
  rw [hr] at hev
  exact Option.some.inj hev

/-- The same item of the same epoch, at time 0 and at time 1. -/
theorem not_sendSame_of_clock :
    stamp.NeverNotifies ∧ Schedule (some 0) (some 0) (oneItem 0) ∧
      Schedule (some 0) (some 0) (oneItem 1) ∧
      (∀ e k, Keyed.valuesOf k (delivered (oneItem 0) e) =
        Keyed.valuesOf k (delivered (oneItem 1) e)) ∧
      ∀ s events s' events',
        Runs.run (activate stamp 0) init (oneItem 0) = some (s, events) →
        Runs.run (activate stamp 0) init (oneItem 1) = some (s', events') →
        ¬ SendSame 0 (oneItem 0) (oneItem 1) events events' := by
  refine ⟨fun _ => rfl, schedule_oneItem 0, schedule_oneItem 1, fun _ _ => rfl, ?_⟩
  intro s events s' events' hr hr' hsame
  have hrun : ∀ now, IsRun 0 (oneItem now) 0 := fun now =>
    .inl (Frontier.isClosed_some.mpr Nat.zero_lt_one)
  have hboth := (hsame 0 7).1 (hrun 0) (hrun 1)
  rw [itemsOf_stamp (.inl rfl) hr, itemsOf_stamp (.inr rfl) hr'] at hboth
  exact absurd hboth (by decide)

end Unary
end Bytewax
