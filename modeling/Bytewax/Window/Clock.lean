import Bytewax.Window.Time

/-!
# Bytewax.Window.Clock — the `Clock` trait and its two implementations

A clock turns system time and the values that arrive into the watermark of the stream.  An
implementation is a record of functions over its state; the system time it reads is an argument of
each call.  `SystemClock` is the system time itself, `EventClock` keeps the event time that gives
the largest watermark, together with the system time it was seen at.
-/

namespace Bytewax

/-- `std::task::Poll`. -/
inductive Poll (α : Type)
  | ready (a : α)
  | pending
  deriving DecidableEq, Repr

/-- `trait Clock<V>`, over the clock's state.  `watermark` is `none` where the date arithmetic
panics.  Every clock ends the stream at the end of time. -/
structure Clock (V C : Type) where
  build : C
  watermark : C → Int → Poll (Option V) → Option (C × Int)
  timeFor : C → Int → V → C × Int
  watermark_eof : ∀ {c now c' w}, watermark c now (.ready none) = some (c', w) → w = maxUtc

/-! ### The system clock -/

namespace SystemClock

/-- `SystemClock::watermark`; the state is `eof`. -/
def watermark {V : Type} (eof : Bool) (now : Int) (nextValue : Poll (Option V)) :
    Bool × Int :=
  let eof := match nextValue with
    | .ready none => true
    | _ => eof
  (eof, bif eof then maxUtc else now)

end SystemClock

/-- `SystemClockConfig`'s clock. -/
def systemClock (V : Type) : Clock V Bool where
  build := false
  watermark eof now nextValue := some (SystemClock.watermark eof now nextValue)
  timeFor eof now _ := (eof, now)
  watermark_eof h := by
    simp only [SystemClock.watermark, Option.some.injEq, Prod.mk.injEq, cond_true] at h
    exact h.2.symm

/-! ### The event clock -/

/-- `Iterator::max_by_key`: of several largest elements, the last. -/
def maxByKey {α : Type} (f : α → Int) : List α → Option α
  | [] => none
  | a :: as => some (as.foldl (fun best b => if f b < f best then best else b) a)

namespace EventClock

variable {V : Type}

/-- The watermark that an event time read at a system time gives at `now`. -/
def watermarkOf (wait : Int) (now : Int) (etSt : Int × Int) :
    Option Int :=
  let (eventTime, eventSystemTime) := etSt
  let systemDurationSinceMaxEvent : Int := now - eventSystemTime
  if eventTime = maxUtc then
    some maxUtc
  else do
    let start ← subDuration eventTime wait
    addDuration start systemDurationSinceMaxEvent

/-- The incoming event time and the system time it was ingested at. -/
def nextEventTime (dtGetter : V → Int) (now : Int) :
    Poll (Option V) → Option (Int × Int)
  | .ready (some event) => some (dtGetter event, now)
  | .ready none => some (maxUtc, now)
  | .pending => none

/-- `EventClock::watermark`; the state is `max_event_time_system_time`. -/
def watermark (dtGetter : V → Int) (wait : Int)
    (maxEventTimeSystemTime : Option (Int × Int)) (now : Int)
    (nextValue : Poll (Option V)) : Option (Option (Int × Int) × Int) := do
  let readings ← ([maxEventTimeSystemTime, nextEventTime dtGetter now nextValue].filterMap id).mapM
    fun etSt => (watermarkOf wait now etSt).map (etSt, ·)
  match maxByKey Prod.snd readings with
  | some (etSt, watermark) => some (some etSt, watermark)
  | none => some (none, minUtc)

/-- The two readings that are compared, written out. -/
theorem watermark_eq (dtGetter : V → Int) (wait : Int) (c : Option (Int × Int)) (now : Int)
    (nextValue : Poll (Option V)) : watermark dtGetter wait c now nextValue =
      match c, nextEventTime dtGetter now nextValue with
      | none, none => some (none, minUtc)
      | some p, none => (watermarkOf wait now p).map (some p, ·)
      | none, some q => (watermarkOf wait now q).map (some q, ·)
      | some p, some q => do
        let w ← watermarkOf wait now p
        let w' ← watermarkOf wait now q
        return if w' < w then (some p, w) else (some q, w') := by
  unfold watermark
  generalize nextEventTime dtGetter now nextValue = next
  rcases c with _ | p <;> rcases next with _ | q
  · rfl
  · cases h : watermarkOf wait now q <;> simp [h, maxByKey]
  · cases h : watermarkOf wait now p <;> simp [h, maxByKey]
  · cases h : watermarkOf wait now p with
    | none => simp [h]
    | some w =>
      cases h' : watermarkOf wait now q with
      | none => simp [h, h']
      | some w' => by_cases hlt : w' < w <;> simp [h, h', hlt, maxByKey]

theorem watermarkOf_le {wait now w : Int} {etSt : Int × Int}
    (h : watermarkOf wait now etSt = some w) : w ≤ maxUtc := by
  unfold watermarkOf at h
  dsimp only at h
  split_ifs at h
  · exact (Option.some.inj h).ge
  · obtain ⟨start, -, hw⟩ := Option.bind_eq_some_iff.mp h
    obtain ⟨hfit, rfl⟩ := addDuration_eq_some.mp hw
    exact hfit.2

/-- As system time goes on, the watermark that an event time gives does not go back. -/
theorem watermarkOf_mono {wait now now' w w' : Int} {etSt : Int × Int} (hnow : now ≤ now')
    (h : watermarkOf wait now etSt = some w) (h' : watermarkOf wait now' etSt = some w') :
    w ≤ w' := by
  unfold watermarkOf at h h'
  dsimp only at h h'
  split_ifs at h h'
  · simp only [Option.some.injEq] at h h'
    omega
  · obtain ⟨start, hstart, hw⟩ := Option.bind_eq_some_iff.mp h
    obtain ⟨start', hstart', hw'⟩ := Option.bind_eq_some_iff.mp h'
    obtain ⟨-, rfl⟩ := addDuration_eq_some.mp hw
    obtain ⟨-, rfl⟩ := addDuration_eq_some.mp hw'
    rw [hstart] at hstart'
    simp only [Option.some.injEq] at hstart'
    omega

/-- The clock keeps an event time that gives the watermark it returns, if it has seen any. -/
theorem watermark_spec {dtGetter : V → Int} {wait now w : Int} {c c' : Option (Int × Int)}
    {nextValue : Poll (Option V)} (h : watermark dtGetter wait c now nextValue = some (c', w)) :
    (c' = none ∧ c = none ∧ nextEventTime dtGetter now nextValue = none) ∨
    ∃ p, c' = some p ∧ watermarkOf wait now p = some w := by
  rw [watermark_eq] at h
  rcases c with _ | p <;> rcases hq : nextEventTime dtGetter now nextValue with _ | q <;>
    simp only [hq] at h
  · simp only [Option.some.injEq, Prod.mk.injEq] at h
    exact .inl ⟨h.1.symm, rfl, rfl⟩
  · obtain ⟨w', hw', h⟩ := Option.map_eq_some_iff.mp h
    simp only [Prod.mk.injEq] at h
    exact .inr ⟨q, h.1.symm, h.2 ▸ hw'⟩
  · obtain ⟨w', hw', h⟩ := Option.map_eq_some_iff.mp h
    simp only [Prod.mk.injEq] at h
    exact .inr ⟨p, h.1.symm, h.2 ▸ hw'⟩
  · obtain ⟨w₁, hw₁, h⟩ := Option.bind_eq_some_iff.mp h
    obtain ⟨w₂, hw₂, h⟩ := Option.bind_eq_some_iff.mp h
    simp only [Option.pure_def, Option.some.injEq] at h
    by_cases hlt : w₂ < w₁
    · simp only [hlt, if_true, Prod.mk.injEq] at h
      exact .inr ⟨p, h.1.symm, h.2 ▸ hw₁⟩
    · simp only [hlt, if_false, Prod.mk.injEq] at h
      exact .inr ⟨q, h.1.symm, h.2 ▸ hw₂⟩

/-- The watermark is not behind the one that the kept event time gives. -/
theorem le_watermark {dtGetter : V → Int} {wait now w : Int} {p : Int × Int}
    {c' : Option (Int × Int)} {nextValue : Poll (Option V)}
    (h : watermark dtGetter wait (some p) now nextValue = some (c', w)) :
    ∃ w₀, watermarkOf wait now p = some w₀ ∧ w₀ ≤ w := by
  rw [watermark_eq] at h
  rcases hq : nextEventTime dtGetter now nextValue with _ | q <;> simp only [hq] at h
  · obtain ⟨w', hw', h⟩ := Option.map_eq_some_iff.mp h
    simp only [Prod.mk.injEq] at h
    exact ⟨w', hw', h.2.le⟩
  · obtain ⟨w₁, hw₁, h⟩ := Option.bind_eq_some_iff.mp h
    obtain ⟨w₂, hw₂, h⟩ := Option.bind_eq_some_iff.mp h
    simp only [Option.pure_def, Option.some.injEq] at h
    refine ⟨w₁, hw₁, ?_⟩
    by_cases hlt : w₂ < w₁
    · simp only [hlt, if_true, Prod.mk.injEq] at h
      exact h.2.le
    · simp only [hlt, if_false, Prod.mk.injEq] at h
      exact h.2 ▸ not_lt.mp hlt

theorem watermark_eof {dtGetter : V → Int} {wait now w : Int} {c c' : Option (Int × Int)}
    (h : watermark dtGetter wait c now (.ready none) = some (c', w)) : w = maxUtc := by
  have hnext : watermarkOf wait now (maxUtc, now) = some maxUtc := by
    simp [watermarkOf]
  rw [watermark_eq] at h
  cases c with
  | none =>
    simp only [nextEventTime, hnext, Option.map_some, Option.some.injEq, Prod.mk.injEq] at h
    exact h.2.symm
  | some p =>
    simp only [nextEventTime, hnext, Option.bind_eq_bind, Option.bind_some] at h
    obtain ⟨w₀, hw₀, h⟩ := Option.bind_eq_some_iff.mp h
    rw [if_neg (not_lt.mpr (watermarkOf_le hw₀))] at h
    simp only [Option.pure_def, Option.some.injEq, Prod.mk.injEq] at h
    exact h.2.symm

end EventClock

/-- `EventClockConfig`'s clock. -/
def eventClock {V : Type} (dtGetter : V → Int) (wait : Int) : Clock V (Option (Int × Int)) where
  build := none
  watermark c now nextValue := EventClock.watermark dtGetter wait c now nextValue
  timeFor c _ event := (c, dtGetter event)
  watermark_eof := EventClock.watermark_eof

end Bytewax
