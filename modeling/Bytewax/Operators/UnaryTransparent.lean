import Bytewax.Operators.Snapshots
import Bytewax.Operators.UnarySchedules

/-!
# Bytewax.Operators.UnaryTransparent — resuming is transparent

A resumed run loads, for each key, the latest snapshot before the resume epoch that the
uninterrupted run sent, and goes on with the items from the resume epoch on.  If a logic built from
a snapshot behaves like the logic that was snapshotted, the two runs send the same from the resume
epoch on (`resume_transparent`).  The argument is about one key: up to its latest snapshot the
resumed run has no logic, and from there on one that behaves like that of the uninterrupted run.
-/

namespace Bytewax

open Std (TreeMap TreeSet)

namespace UnaryLogic

variable {V W S L : Type}

/-- Related logics return the same values, stay related, and have the same snapshot. -/
structure IsBisim (logic : UnaryLogic V W S L) (R : L → L → Prop) : Prop where
  snapshot : ∀ l l', R l l' → logic.snapshot l = logic.snapshot l'
  emit : ∀ l l' now v, R l l' → (logic.onItem l now v).2 = (logic.onItem l' now v).2
  retain : ∀ l l' now v, R l l' → (logic.onItem l now v).2.2 = .retain →
    R (logic.onItem l now v).1 (logic.onItem l' now v).1

/-- A logic built from a snapshot behaves like the logic that was snapshotted, whichever state that
one has come to. -/
def Restores (logic : UnaryLogic V W S L) : Prop :=
  ∃ R, logic.IsBisim R ∧
    ∀ now l, logic.Reachable l → R (logic.builder now (some (logic.snapshot l))) l

/-- A logic that is built from its state as it was. -/
theorem restores_of_eq {logic : UnaryLogic V W S L}
    (h : ∀ now l, logic.Reachable l → logic.builder now (some (logic.snapshot l)) = l) :
    logic.Restores := by
  refine ⟨Eq, ⟨?_, ?_, ?_⟩, h⟩
  · rintro l _ rfl
    rfl
  · rintro l _ now v rfl
    rfl
  · rintro l _ now v rfl -
    rfl

end UnaryLogic

/-- `stateful_map` builds its state as it was. -/
theorem statefulMap_restores {V W S : Type} (builder : Py S) (mapper : Py S → V → Py S × W) :
    (statefulMap builder mapper).Restores :=
  UnaryLogic.restores_of_eq fun now _ h => statefulMap_rebuilt now h

namespace Unary

variable {K V W S L : Type} {logic : UnaryLogic V W S L} {R : L → L → Prop}

/-! ### One key -/

/-- Both keys have no logic, or related ones. -/
def Related (R : L → L → Prop) : Option L → Option L → Prop
  | none, none => True
  | some l, some l' => R l l' ∨ l = l'
  | _, _ => False

theorem Related.refl (o : Option L) : Related R o o := by
  cases o with
  | none => trivial
  | some l => exact .inr rfl

theorem Related.changeOf (hR : logic.IsBisim R) {o o' : Option L} (h : Related R o o') :
    changeOf logic o = changeOf logic o' := by
  match o, o', h with
  | none, none, _ => rfl
  | some l, some l', .inl h => simp only [Unary.changeOf, hR.snapshot l l' h]
  | some l, some _, .inr rfl => rfl

/-- Related logics return the same for a value, and stay related. -/
theorem Related.callItem (hR : logic.IsBisim R) {o o' : Option L} (h : Related R o o') (now : Int)
    (v : V) : (callItem logic now o v).2 = (callItem logic now o' v).2 ∧
      Related R (kept (callItem logic now o v)) (kept (callItem logic now o' v)) := by
  match o, o', h with
  | none, none, _ => exact ⟨rfl, .refl _⟩
  | some l, some _, .inr rfl => exact ⟨rfl, .refl _⟩
  | some l, some l', .inl h =>
    have hemit : (logic.onItem l now v).2 = (logic.onItem l' now v).2 := hR.emit l l' now v h
    have hretain := hR.retain l l' now v h
    refine ⟨hemit, ?_⟩
    simp only [Unary.callItem, Option.getD_some]
    rcases hl : logic.onItem l now v with ⟨m, emit, isComplete⟩
    rcases hl' : logic.onItem l' now v with ⟨m', emit', isComplete'⟩
    rw [hl, hl'] at hemit hretain
    obtain ⟨rfl, rfl⟩ : emit = emit' ∧ isComplete = isComplete' := Prod.mk.inj hemit
    cases isComplete with
    | retain => exact .inl (hretain rfl)
    | discard => trivial

theorem Related.feed (hR : logic.IsBisim R) (now : Int) (vs : List V) {o o' : Option L}
    (h : Related R o o') : (feed logic now o vs).2 = (feed logic now o' vs).2 ∧
      Related R (feed logic now o vs).1 (feed logic now o' vs).1 := by
  induction vs generalizing o o' with
  | nil => exact ⟨rfl, h⟩
  | cons v vs ih =>
    obtain ⟨hcall, hkept⟩ := h.callItem hR now v
    obtain ⟨hemit, hrest⟩ := ih hkept
    rw [Unary.feed, Unary.feed]
    simp only [hcall, hemit]
    exact ⟨trivial, hrest⟩

/-- Loading a snapshot gives what was snapshotted, up to the relation. -/
theorem related_loadOne
    (hrestore : ∀ now l, logic.Reachable l → R (logic.builder now (some (logic.snapshot l))) l)
    (now : Int) (o : Option L) {o' : Option L} (ho' : ∀ l, o' = some l → logic.Reachable l) :
    Related R (loadOne logic now o (changeOf logic o')) o' := by
  cases o' with
  | none => trivial
  | some l => exact .inl (hrestore now l (ho' l rfl))

/-- What is left of a logic after some values is a state it can come to. -/
theorem reachable_feed (now : Int) (vs : List V) {o : Option L}
    (h : ∀ l, o = some l → logic.Reachable l) :
    ∀ l, (feed logic now o vs).1 = some l → logic.Reachable l := by
  induction vs generalizing o with
  | nil => exact h
  | cons v vs ih =>
    rw [Unary.feed]
    refine ih fun l hl => ?_
    have hcalled : logic.Reachable (o.getD (logic.builder now none)) := by
      cases o with
      | none => exact .fresh now
      | some m => exact h m rfl
    rcases hcall : callItem logic now o v with ⟨m, emit, isComplete⟩
    have hitem : logic.call (o.getD (logic.builder now none)) (.onItem now v) =
        (m, emit, isComplete) := hcall
    rw [hcall] at hl
    cases isComplete with
    | retain =>
      cases hl
      have hreach := hcalled.retained (.onItem now v) (by rw [hitem])
      rwa [hitem] at hreach
    | discard => cases hl

/-- Without loads, the logic of a key is in a state it can come to. -/
theorem reachable_stateAt (items : Nat → K → List V) (e : Nat) (k : K) :
    ∀ l, stateAt logic items (fun _ _ => []) e k = some l → logic.Reachable l := by
  induction e with
  | zero => exact fun l hl => by cases hl
  | succ e ih =>
    rw [stateAt, loadAll_nil]
    exact reachable_feed 0 (items e k) ih

/-- No snapshot before the resume epoch is later. -/
def IsLatest (resumeEpoch : Nat) (snaps : Nat → List (StateChange S)) (e : Nat) : Prop :=
  e < resumeEpoch ∧ ∀ e' < resumeEpoch, e < e' → snaps e' = []

section OneKey

variable {items items' : Nat → K → List V} {loads' : Nat → K → List (StateChange S)}
  {resumeEpoch : Nat} {k : K}

theorem specSnaps_eq_nil {loads : Nat → K → List (StateChange S)} {e : Nat} :
    specSnaps logic items loads e k = [] ↔ items e k = [] := by
  rw [specSnaps]
  by_cases hk : items e k = []
  · simp [hk]
  · simp [hk]

/-- Before the resume epoch, the resumed run has no logic for a key until its latest snapshot is
loaded, and from then on one that behaves like that of the uninterrupted run. -/
theorem related_before
    (hrestore : ∀ now l, logic.Reachable l → R (logic.builder now (some (logic.snapshot l))) l)
    (hitems : ∀ e < resumeEpoch, items' e k = [])
    (hlatest : ∀ e, IsLatest resumeEpoch (fun e => specSnaps logic items (fun _ _ => []) e k) e →
      loads' e k = specSnaps logic items (fun _ _ => []) e k)
    (hother : ∀ e < resumeEpoch,
      ¬ IsLatest resumeEpoch (fun e => specSnaps logic items (fun _ _ => []) e k) e →
      loads' e k = []) {n : Nat} (hn : n ≤ resumeEpoch) :
    ((∀ e < resumeEpoch, n ≤ e → items e k = []) →
      Related R (stateAt logic items' loads' n k) (stateAt logic items (fun _ _ => []) n k)) ∧
    (¬ (∀ e < resumeEpoch, n ≤ e → items e k = []) → stateAt logic items' loads' n k = none) := by
  induction n with
  | zero => exact ⟨fun _ => trivial, fun _ => rfl⟩
  | succ n ih =>
    obtain ⟨hrel, hnone⟩ := ih (by omega)
    have hstate : stateAt logic items' loads' (n + 1) k =
        loadAll logic 0 (stateAt logic items' loads' n k) (loads' n k) := by
      rw [stateAt, hitems n (by omega), feed_nil]
    have hlatest_iff : IsLatest resumeEpoch
        (fun e => specSnaps logic items (fun _ _ => []) e k) n ↔
        ∀ e < resumeEpoch, n + 1 ≤ e → items e k = [] := by
      simp only [IsLatest, specSnaps_eq_nil]
      exact ⟨fun h => h.2, fun h => ⟨by omega, h⟩⟩
    rw [hstate]
    constructor
    · intro hafter
      rw [hlatest n (hlatest_iff.mpr hafter)]
      by_cases hk : items n k = []
      · -- the key has no snapshot in this epoch, and both runs leave it as it is
        have hsame : stateAt logic items (fun _ _ => []) (n + 1) k =
            stateAt logic items (fun _ _ => []) n k := by
          rw [stateAt, hk]
          rfl
        rw [specSnaps, if_pos hk, hsame, loadAll_nil]
        refine hrel fun e he hne => ?_
        rcases Nat.eq_or_lt_of_le hne with rfl | hlt
        · exact hk
        · exact hafter e he hlt
      · rw [specSnaps, if_neg hk]
        exact related_loadOne hrestore 0 (stateAt logic items' loads' n k)
          (reachable_stateAt items (n + 1) k)
    · intro hafter
      rw [hother n (by omega) fun hl => hafter (hlatest_iff.mp hl), loadAll_nil]
      exact hnone fun h => hafter fun e he hne => h e he (by omega)

/-- From the resume epoch on, the two runs have logics that behave alike. -/
theorem related_from (hR : logic.IsBisim R) {E : Nat}
    (hat : Related R (stateAt logic items' loads' resumeEpoch k)
      (stateAt logic items (fun _ _ => []) resumeEpoch k))
    (hitems : ∀ e, resumeEpoch ≤ e → e < E → items' e k = items e k)
    (hloads : ∀ e, resumeEpoch ≤ e → e < E → loads' e k = []) {e : Nat} (hre : resumeEpoch ≤ e)
    (heE : e ≤ E) :
    Related R (stateAt logic items' loads' e k) (stateAt logic items (fun _ _ => []) e k) := by
  induction e, hre using Nat.le_induction with
  | base => exact hat
  | succ e hre ih =>
    rw [stateAt, stateAt, hitems e hre (by omega), hloads e hre (by omega)]
    exact ((ih (by omega)).feed hR 0 (items e k)).2

end OneKey

/-! ### Two runs -/

variable [LinearOrder K]

/-- The schedule `as'` feeds a fresh operator what the schedule `as`, with events `events`, leaves to
do at the resume epoch: each key's latest snapshot before it, in its epoch, and the items from it
on.  An epoch that is not closed may still have messages to come. -/
structure Resumes (resumeEpoch : Nat) (as : List (Activation K V S))
    (events : List (UnaryEvent K V W S)) (as' : List (Activation K V S)) : Prop where
  itemsBefore : ∀ e < resumeEpoch, ∀ k, itemsFor as' e k = []
  items : ∀ e, resumeEpoch ≤ e → (frontierAfter as).IsClosed e → (frontierAfter as').IsClosed e →
    ∀ k, itemsFor as' e k = itemsFor as e k
  latest : ∀ e, (frontierAfter as').IsClosed e → ∀ k,
    IsLatest resumeEpoch (fun e => snapsOf e k events) e → loadsFor as' e k = snapsOf e k events
  other : ∀ e, (frontierAfter as').IsClosed e → ∀ k,
    ¬ IsLatest resumeEpoch (fun e => snapsOf e k events) e → loadsFor as' e k = []

/-- The two runs send the same in the epochs from `r` on that are closed in both. -/
def SendSameFrom (r : Nat) (as as' : List (Activation K V S))
    (events events' : List (UnaryEvent K V W S)) : Prop :=
  ∀ e, r ≤ e → (frontierAfter as).IsClosed e → (frontierAfter as').IsClosed e → ∀ k,
    itemsOf e k events' = itemsOf e k events ∧ snapsOf e k events' = snapsOf e k events

/-- **Resuming is transparent.** -/
theorem resume_transparent (hclock : logic.ReadsNoClock) (hnever : logic.NeverNotifies)
    (hrestores : logic.Restores) (startEpoch resumeEpoch : Nat)
    {as as' : List (Activation K V S)} (has : Schedule (some 0) (some 0) as)
    (has' : Schedule (some 0) (some 0) as')
    (hopen : ∀ a ∈ as, a.frontier ≠ none ∧ a.loads = []) (hopen' : ∀ a ∈ as', a.frontier ≠ none) :
    ∃ s events s' events', Runs.run (activate logic startEpoch) init as = some (s, events) ∧
      Runs.run (activate logic resumeEpoch) init as' = some (s', events') ∧
      (Resumes resumeEpoch as events as' → SendSameFrom resumeEpoch as as' events events') := by
  obtain ⟨R, hR, hrestore⟩ := hrestores
  obtain ⟨s, events, t, run, hr, hft, hpos, -⟩ :=
    run_position hclock hnever startEpoch has fun a ha => (hopen a ha).1
  obtain ⟨s', events', t', run', hr', hft', hpos', -⟩ :=
    run_position hclock hnever resumeEpoch has' hopen'
  refine ⟨s, events, s', events', hr, hr', fun hres e hre hc hc' k => ?_⟩
  rw [hft, Frontier.isClosed_some] at hc
  rw [hft', Frontier.isClosed_some] at hc'
  have hclosed : ∀ x ≤ e, (frontierAfter as).IsClosed x ∧ (frontierAfter as').IsClosed x := by
    intro x hx
    rw [hft, hft', Frontier.isClosed_some, Frontier.isClosed_some]
    omega
  have hnoloads : loadsFor as = fun _ _ => [] := by
    ext x k
    rw [loadsFor_eq_nil fun a ha => (hopen a ha).2]
  rw [hnoloads] at hpos
  have hsnaps : ∀ x < resumeEpoch, snapsOf x k events =
      specSnaps logic (itemsFor as) (fun _ _ => []) x k := fun x hx =>
    hpos.snapsOver x (by omega) k
  have hlatest : ∀ x, IsLatest resumeEpoch
      (fun e => specSnaps logic (itemsFor as) (fun _ _ => []) e k) x ↔
      IsLatest resumeEpoch (fun e => snapsOf e k events) x := by
    intro x
    refine and_congr_right fun hx => forall_congr' fun e' => forall_congr' fun he' => ?_
    simp only [hsnaps e' he']
  have hat := (related_before (k := k) hrestore (fun x hx => hres.itemsBefore x hx k)
    (fun x hx => by
      rw [hres.latest x (hclosed x (by have := hx.1; omega)).2 k ((hlatest x).mp hx), hsnaps x hx.1])
    (fun x hx hno => hres.other x (hclosed x (by omega)).2 k fun hl => hno ((hlatest x).mpr hl))
    le_rfl).1 fun x hx hle => absurd hx (Nat.not_lt.mpr hle)
  have hrel := related_from hR hat
    (fun x hx hxe => hres.items x hx (hclosed x hxe.le).1 (hclosed x hxe.le).2 k)
    (fun x hx hxe => hres.other x (hclosed x hxe.le).2 k fun hl => by have := hl.1; omega)
    hre le_rfl
  have hsame : itemsFor as' e k = itemsFor as e k :=
    hres.items e hre (hclosed e le_rfl).1 (hclosed e le_rfl).2 k
  obtain ⟨hemit, hnext⟩ := hrel.feed hR 0 (itemsFor as e k)
  constructor
  · rw [hpos'.itemsOver e hc', hpos.itemsOver e hc, specItems, specItems, hsame, hemit]
  · rw [hpos'.snapsOver e hc', hpos.snapsOver e hc, specSnaps, specSnaps, hsame,
      hnext.changeOf hR]

/-- A `stateful_map` that counts. -/
def tally : UnaryLogic Unit Nat (Py Nat) (Py Nat) :=
  statefulMap (some 0) fun count _ => (some (count.getD 0 + 1), count.getD 0 + 1)

/-- Key 7 has an item in epoch 0 and one in epoch 1. -/
def wholeInput : List (Activation Nat Unit (Py Nat)) :=
  [{ now := 0
     items := [(0, [(7, ())]), (1, [(7, ())])]
     loads := []
     itemsFrontier := some 2
     loadsFrontier := none }]

/-- What is left of it in epoch 1. -/
def restOfInput : List (Activation Nat Unit (Py Nat)) :=
  [{ now := 0
     items := [(1, [(7, ())])]
     loads := [(0, [(7, .upsert (some 1))])]
     itemsFrontier := some 2
     loadsFrontier := none }]

theorem schedule_wholeInput : Schedule (some 0) (some 0) wholeInput := by
  refine ⟨⟨fun b hb => ⟨0, rfl, Nat.zero_le _⟩, List.forall_mem_nil _, ?_, ?_⟩, trivial⟩
  · rintro t ⟨⟩
    exact ⟨0, rfl, Nat.zero_le _⟩
  · rintro t ⟨⟩

theorem schedule_restOfInput : Schedule (some 0) (some 0) restOfInput := by
  refine ⟨⟨fun b hb => ⟨0, rfl, Nat.zero_le _⟩, fun b hb => ⟨0, rfl, Nat.zero_le _⟩, ?_, ?_⟩,
    trivial⟩
  · rintro t ⟨⟩
    exact ⟨0, rfl, Nat.zero_le _⟩
  · rintro t ⟨⟩

theorem resumes_restOfInput {s : UnaryState Nat Unit (Py Nat) (Py Nat)}
    {events : List (UnaryEvent Nat Unit Nat (Py Nat))}
    (hr : Runs.run (activate tally 0) init wholeInput = some (s, events)) :
    Resumes 1 wholeInput events restOfInput := by
  have hev : (Runs.run (activate tally 0) init wholeInput).map Prod.snd =
      some [.onItem 0 7 () [1] .retain, .snap 0 7 (.upsert (some 1)), .onItem 1 7 () [2] .retain,
        .snap 1 7 (.upsert (some 2))] := by decide +kernel
  rw [hr] at hev
  obtain rfl : events = _ := Option.some.inj hev
  have htwo : ∀ {e}, (frontierAfter restOfInput).IsClosed e → e = 0 ∨ e = 1 := fun hc => by
    have := Frontier.isClosed_some.mp hc
    omega
  refine ⟨fun e he k => ?_, fun e he hc hc' k => ?_, fun e hc k hl => ?_, fun e hc k hl => ?_⟩
  · obtain rfl : e = 0 := by omega
    rfl
  · obtain rfl : e = 1 := by have := htwo hc'; omega
    rfl
  · obtain rfl : e = 0 := by have := hl.1; omega
    by_cases hk : 7 = k
    · subst hk
      rfl
    · simp [loadsFor, deliveredLoads, restOfInput, Keyed.valuesOf_cons, snapsOf, UnaryEvent.epoch,
        UnaryEvent.key, hk]
  · rcases htwo hc with rfl | rfl
    · exact absurd ⟨Nat.zero_lt_one, fun e' he' hlt => by omega⟩ hl
    · rfl

/-- A count of two items, resumed after the first. -/
theorem resume_transparent_count :
    ∃ s events s' events', Runs.run (activate tally 0) init wholeInput = some (s, events) ∧
      Runs.run (activate tally 1) init restOfInput = some (s', events') ∧
      SendSameFrom 1 wholeInput restOfInput events events' := by
  obtain ⟨s, events, s', events', hr, hr', hsame⟩ := resume_transparent
    ⟨fun _ _ _ => rfl, fun _ _ _ _ => rfl⟩ (fun _ => rfl) (statefulMap_restores _ _) 0 1
    schedule_wholeInput schedule_restOfInput (by decide) (by decide)
  exact ⟨s, events, s', events', hr, hr', hsame (resumes_restOfInput hr)⟩

/-! ### Where it is not -/

/-- A logic that emits something at the end of the input. -/
def lastWord : UnaryLogic Unit Int Unit Unit where
  builder _ _ := ()
  onItem _ _ _ := ((), [], .retain)
  onNotify _ _ := ((), [], .retain)
  onEof _ := ((), [0], .retain)
  notifyAt _ := none
  snapshot _ := ()

/-- The inputs end. -/
def unitEnd : Activation Nat Unit Unit where
  now := 0
  items := []
  loads := []
  itemsFrontier := none
  loadsFrontier := none

theorem follows_unitEnd (f : Frontier) : Follows f none unitEnd := by
  refine ⟨List.forall_mem_nil _, List.forall_mem_nil _, ?_, ?_⟩
  · rintro t ⟨⟩
  · rintro t ⟨⟩

/-- An item in epoch 0, and then the end of the input. -/
def shortInput : List (Activation Nat Unit Unit) :=
  [unitItems 0 [(7, ())] 0, unitEnd]

/-- The same, but the frontier moves on before the input ends. -/
def longInput : List (Activation Nat Unit Unit) :=
  [unitItems 0 [(7, ())] 0, unitItems 0 [] 1, unitEnd]

/-- Without a resume epoch before it nothing is to be loaded. -/
theorem resumes_zero {as as' : List (Activation K V S)} {events : List (UnaryEvent K V W S)}
    (hi : ∀ e k, itemsFor as' e k = itemsFor as e k) (hl : ∀ a ∈ as', a.loads = []) :
    Resumes 0 as events as' :=
  ⟨fun e he => absurd he (Nat.not_lt_zero e), fun e _ _ _ k => hi e k,
    fun e _ _ hlatest => absurd hlatest.1 (Nat.not_lt_zero e), fun e _ k _ => loadsFor_eq_nil hl e k⟩

/-- A logic that reads the clock tells the two runs apart, and so does the epoch of `on_eof`, which
is the one the frontier was last seen in. -/
theorem not_sendSameFrom_of_clock_of_eof :
    (stamp.NeverNotifies ∧ stamp.Restores ∧ Schedule (some 0) (some 0) (oneItem 0) ∧
      Schedule (some 0) (some 0) (oneItem 1) ∧
      ∀ s events s' events', Runs.run (activate stamp 0) init (oneItem 0) = some (s, events) →
        Runs.run (activate stamp 0) init (oneItem 1) = some (s', events') →
        Resumes 0 (oneItem 0) events (oneItem 1) ∧
          ¬ SendSameFrom 0 (oneItem 0) (oneItem 1) events events') ∧
    (lastWord.ReadsNoClock ∧ lastWord.NeverNotifies ∧ lastWord.Restores ∧
      Schedule (some 0) (some 0) longInput ∧ Schedule (some 0) (some 0) shortInput ∧
      ∀ s events s' events', Runs.run (activate lastWord 0) init longInput = some (s, events) →
        Runs.run (activate lastWord 0) init shortInput = some (s', events') →
        Resumes 0 longInput events shortInput ∧
          ¬ SendSameFrom 0 longInput shortInput events events') := by
  refine ⟨⟨fun _ => rfl, UnaryLogic.restores_of_eq fun _ _ _ => rfl, schedule_oneItem 0,
    schedule_oneItem 1, fun s events s' events' hr hr' => ⟨resumes_zero (fun _ _ => rfl) (by decide),
      fun hsame => ?_⟩⟩,
    ⟨fun _ _ _ => rfl, fun _ _ _ _ => rfl⟩, fun _ => rfl, UnaryLogic.restores_of_eq fun _ _ _ => rfl,
    ⟨follows_unitItems _ 0 _ 0, follows_unitItems _ 0 _ 1, follows_unitEnd _, trivial⟩,
    ⟨follows_unitItems _ 0 _ 0, follows_unitEnd _, trivial⟩,
    fun s events s' events' hr hr' => ⟨resumes_zero (fun e k => ?_) (by decide), fun hsame => ?_⟩⟩
  · have hboth := (hsame 0 le_rfl (Frontier.isClosed_some.mpr Nat.zero_lt_one)
      (Frontier.isClosed_some.mpr Nat.zero_lt_one) 7).1
    rw [itemsOf_stamp (.inl rfl) hr, itemsOf_stamp (.inr rfl) hr'] at hboth
    exact absurd hboth (by decide)
  · by_cases he : 0 = e
    · simp [itemsFor, delivered, longInput, shortInput, unitItems, unitEnd, Keyed.valuesOf_cons, he]
    · simp [itemsFor, delivered, longInput, shortInput, unitItems, unitEnd, Keyed.valuesOf_cons, he]
  · have hlong : (Runs.run (activate lastWord 0) init longInput).map
        (fun p => itemsOf 0 7 p.2) = some [] := by decide +kernel
    have hshort : (Runs.run (activate lastWord 0) init shortInput).map
        (fun p => itemsOf 0 7 p.2) = some [0] := by decide +kernel
    rw [hr] at hlong
    rw [hr'] at hshort
    have hboth := (hsame 0 le_rfl Frontier.isClosed_none Frontier.isClosed_none 7).1
    rw [show itemsOf 0 7 events = [] from Option.some.inj hlong,
      show itemsOf 0 7 events' = [0] from Option.some.inj hshort] at hboth
    exact absurd hboth (by decide)

end Unary
end Bytewax
