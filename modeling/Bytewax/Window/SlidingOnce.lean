import Bytewax.Window.SlidingValues

/-!
# Bytewax.Window.SlidingOnce — is a sliding window emitted once?

A key that has no open window loses its logic (`fate`), and with it the clock.  The next item of
the key starts a new clock, whose watermark can be behind the old one and behind the windows of
earlier items, all of which have been emitted; then such a window takes values and is emitted again.
As long as this does not happen (`WatermarkKept`) every window of a key is emitted at most once, and
no value goes into it afterwards.
-/

namespace Bytewax

open WindowStatefulLogic SlidingWindower

variable {V R L : Type}

/-! ### The property -/

/-- `b` neither closes a window that `a` closed, nor folds into it. -/
def WindowEvent.Spares (a b : WindowEvent V R) : Prop :=
  ∀ c, a.close? = some c →
    (∀ c', b.close? = some c' → c'.1 ≠ c.1) ∧ ∀ p, b.fold? = some p → p.1 ≠ c.1

/-- Once a window has been emitted no value is accepted into it and it is not emitted again. -/
def EmittedOnce (events : List (WindowEvent V R)) : Prop :=
  events.Pairwise WindowEvent.Spares

theorem emittedOnce_append {es es' : List (WindowEvent V R)} :
    EmittedOnce (es ++ es') ↔ EmittedOnce es ∧ EmittedOnce es' ∧ ∀ c ∈ closes es,
      (∀ c' ∈ closes es', c'.1 ≠ c.1) ∧ ∀ p ∈ foldList es', p.1 ≠ c.1 := by
  unfold EmittedOnce
  rw [List.pairwise_append]
  refine and_congr_right fun _ => and_congr_right fun _ => ?_
  constructor
  · intro h c hc
    obtain ⟨a, ha, hac⟩ := List.mem_filterMap.mp hc
    refine ⟨fun c' hc' => ?_, fun p hp => ?_⟩
    · obtain ⟨b, hb, hbc⟩ := List.mem_filterMap.mp hc'
      exact (h a ha b hb c hac).1 c' hbc
    · obtain ⟨b, hb, hbp⟩ := List.mem_filterMap.mp hp
      exact (h a ha b hb c hac).2 p hbp
  · intro h a ha b hb c hac
    have hc := h c (List.mem_filterMap.mpr ⟨a, ha, hac⟩)
    exact ⟨fun c' hbc => hc.1 c' (List.mem_filterMap.mpr ⟨b, hb, hbc⟩),
      fun p hbp => hc.2 p (List.mem_filterMap.mpr ⟨b, hb, hbp⟩)⟩

theorem emittedOnce_of_closes_eq_nil {es : List (WindowEvent V R)} (h : closes es = []) :
    EmittedOnce es := by
  refine List.pairwise_of_forall_mem_list fun a ha b _ c hc => ?_
  have : c ∈ closes es := List.mem_filterMap.mpr ⟨a, ha, hc⟩
  simp [h] at this

theorem emittedOnce_of_nodup {es : List (WindowEvent V R)} (hf : foldList es = [])
    (hnd : ((closes es).map Prod.fst).Nodup) : EmittedOnce es := by
  unfold EmittedOnce
  have hpw : es.Pairwise fun a b => ∀ c, a.close? = some c → ∀ c', b.close? = some c' →
      c.1 ≠ c'.1 := List.pairwise_filterMap.mp (List.pairwise_map.mp hnd)
  refine hpw.imp_of_mem fun _ hb h c hc => ⟨fun c' hc' => (h c hc c' hc').symm, fun p hp => ?_⟩
  have : p ∈ foldList es := List.mem_filterMap.mpr ⟨_, hb, hp⟩
  simp [hf] at this

/-- In particular no two emissions are of the same window. -/
theorem EmittedOnce.nodup_closes {es : List (WindowEvent V R)} (h : EmittedOnce es) :
    ((closes es).map Prod.fst).Nodup := by
  refine List.pairwise_map.mpr (List.pairwise_filterMap.mpr ?_)
  exact h.imp fun hab c hc c' hc' => ((hab c hc).1 c' hc').symm

/-- The operator's logic for a key: an event clock, sliding windows and a window logic. -/
def slidingLogic (dtGetter : V → Int) (wait : Int) (cfg : SlidingConfig)
    (logic : WindowLogic V R L) : StatefulLogic (Call V) (WindowEvent V R)
      (WindowStatefulLogic (Option (Int × Int)) SlidingWindower L) :=
  stateful (eventClock dtGetter wait) (slidingWindower cfg) logic

/-- The watermark of a new clock at an item of event time `t`. -/
def freshWatermark (wait t : Int) : Int := if t = maxUtc then maxUtc else t - wait

/-- Whenever an item finds the key's logic discarded, the new clock's watermark is past all windows
that earlier items were accepted into. -/
def WatermarkKept (dtGetter : V → Int) (wait : Int) (cfg : SlidingConfig)
    (logic : WindowLogic V R L) (calls : List (Call V)) : Prop :=
  ∀ pre call post s events value, calls = pre ++ call :: post →
    Runs.run (KeyState.awake (slidingLogic dtGetter wait cfg logic)) KeyState.init pre =
      some (s, events) →
    s.currentLogic = none → call.nextValue = .ready (some value) →
    ∀ p ∈ foldList events, closeTimeOf cfg p.1 < freshWatermark wait (dtGetter value)

/-! ### The windows of accepted items -/

section Accepted

variable {C : Type} {clock : Clock V C} {cfg : SlidingConfig} {logic : WindowLogic V R L}
  {events es : List (WindowEvent V R)} {k : Int}

/-- A window that a value was accepted into has been emitted, or is open. -/
theorem Keeps.accepted_iff {s : WindowStatefulLogic C SlidingWindower L}
    (h : Keeps cfg logic events s) :
    k ∈ (foldList events).map Prod.fst ↔ k ∈ (closes events).map Prod.fst ∨ k ∈ s.windower := by
  have hclose : k ∈ (closes events).map Prod.fst ↔ (batches k events).emitted ≠ [] := by
    rw [Ne, ← List.map_eq_nil_iff (f := fun part => (k, metadataOf cfg k, logic.closeOutput part)),
      ← h.settles.closes_of k, List.filter_eq_nil_iff]
    simp
  have hflatten : (batches k events).emitted.flatten ≠ [] ↔ (batches k events).emitted ≠ [] := by
    rw [Ne, List.flatten_eq_nil_iff]
    refine not_congr ⟨fun hall => ?_, fun hnil => hnil ▸ List.forall_mem_nil _⟩
    rw [List.eq_nil_iff_forall_not_mem]
    intro part hpart
    exact h.settles.emitted_ne k (hall part hpart ▸ hpart)
  rw [← Keyed.valuesOf_ne_nil, ← folds, ← flatten_batches, hclose, h.tracked k, h.settles.mem_iff,
    Ne, List.append_eq_nil_iff, not_and_or]
  exact or_congr_left hflatten

/-- What holds of a key after a run: the windows of the items that logics before the current one
accepted have been emitted, and the current one keeps those of the others. -/
def Accounted (cfg : SlidingConfig) (clock : Clock V C) (logic : WindowLogic V R L)
    (s : KeyState (WindowStatefulLogic C SlidingWindower L)) (events : List (WindowEvent V R)) :
    Prop :=
  ∃ before since, events = before ++ since ∧
    (∀ k, k ∈ (foldList before).map Prod.fst ↔ k ∈ (closes before).map Prod.fst) ∧
    Keeps cfg logic since (s.currentLogic.getD (stateful clock (slidingWindower cfg) logic).build)

theorem Accounted.init : Accounted cfg clock logic KeyState.init ([] : List (WindowEvent V R)) :=
  ⟨[], [], rfl, fun _ => Iff.rfl, .build⟩

theorem Accounted.step {s s' : KeyState (WindowStatefulLogic C SlidingWindower L)} {call : Call V}
    (h : Accounted cfg clock logic s events)
    (hs : KeyState.awake (stateful clock (slidingWindower cfg) logic) s call = some (s', es)) :
    Accounted cfg clock logic s' (events ++ es) := by
  obtain ⟨before, since, rfl, hbefore, hkeeps⟩ := h
  obtain ⟨l, hl, hfate⟩ := KeyState.awake_cases hs
  have hkeeps' : Keeps cfg logic (since ++ es) l := (hkeeps.step hl).1
  rcases hfate with ⟨hdiscard, rfl⟩ | ⟨-, next, -, rfl⟩
  · -- a logic is only discarded when nothing is open
    refine ⟨before ++ (since ++ es), [], by simp, fun k => ?_, .build⟩
    have hempty : k ∉ l.windower := by
      refine Std.TreeMap.isEmpty_iff_forall_not_mem.mp ?_ k
      by_contra hopen
      simp [stateful, slidingWindower, hopen] at hdiscard
    rw [foldList_append, closes_append, List.map_append, List.map_append, List.mem_append,
      List.mem_append, hbefore k, hkeeps'.accepted_iff, or_iff_left hempty]
  · exact ⟨before, since ++ es, List.append_assoc .., hbefore, hkeeps'⟩

/-- **When the logic of a key is discarded**, the windows that items were accepted into are those
that have been emitted. -/
theorem accepted_iff_emitted {s : KeyState (WindowStatefulLogic C SlidingWindower L)}
    {calls : List (Call V)}
    (hrun : Runs.run (KeyState.awake (stateful clock (slidingWindower cfg) logic)) KeyState.init
      calls = some (s, events)) (hnone : s.currentLogic = none) :
    k ∈ (foldList events).map Prod.fst ↔ k ∈ (closes events).map Prod.fst := by
  obtain ⟨before, since, rfl, hbefore, hkeeps⟩ := Runs.run_prefixes
    (P := fun _ s events => Accounted cfg clock logic s events)
    (fun _ _ _ _ _ _ _ _ _ h hs => h.step hs) .init hrun
  rw [hnone] at hkeeps
  rw [foldList_append, closes_append, List.map_append, List.map_append, List.mem_append,
    List.mem_append, hbefore k, hkeeps.accepted_iff]
  exact or_congr_right (or_iff_left Std.TreeMap.not_mem_emptyc)

end Accepted

/-! ### One call -/

section Steps

variable {dtGetter : V → Int} {wait : Int} {cfg : SlidingConfig} {logic : WindowLogic V R L}
  {l l' : WindowStatefulLogic (Option (Int × Int)) SlidingWindower L} {call : Call V}
  {es : List (WindowEvent V R)}

theorem acceptItem_sliding {w itemNow : Int} {nextValue : Poll (Option V)}
    (hb : Bounded cfg l.windower)
    (h : acceptItem (eventClock dtGetter wait) (slidingWindower cfg) logic l w itemNow nextValue =
      some (l', es)) :
    l'.clock = l.clock ∧ Bounded cfg l'.windower ∧ closes es = [] ∧
      (∀ p ∈ foldList es, ¬ closeTimeOf cfg p.1 < w) ∧
      ∀ k ∈ l'.windower, k ∈ l.windower ∨ ¬ closeTimeOf cfg k < w := by
  rcases nextValue with (_ | value) | _
  · simp only [acceptItem, Option.some.injEq, Prod.mk.injEq] at h
    obtain ⟨rfl, rfl⟩ := h
    exact ⟨rfl, hb, rfl, by simp [foldList], fun k hk => .inl hk⟩
  · obtain ⟨⟨ct, results⟩, hinsert, h⟩ := Option.bind_eq_some_iff.mp h
    obtain ⟨⟨cur, events⟩, hrun, h⟩ := Option.bind_eq_some_iff.mp h
    simp only [Option.pure_def, Option.some.injEq, Prod.mk.injEq] at h
    obtain ⟨rfl, rfl⟩ := h
    obtain ⟨hb', hok, hmem⟩ := insert_spec hb hinsert
    obtain ⟨hclose, hfold⟩ := run_onResult hrun
    exact ⟨rfl, hb', hclose, fun p hp => hok p.1 (hfold p hp), hmem⟩
  · simp only [acceptItem, Option.some.injEq, Prod.mk.injEq] at h
    obtain ⟨rfl, rfl⟩ := h
    exact ⟨rfl, hb, rfl, by simp [foldList], fun k hk => .inl hk⟩

theorem closeWindows_sliding {w : Int} (hb : Bounded cfg l.windower)
    (h : closeWindows (slidingWindower cfg) logic l w = some (l', es)) :
    l'.clock = l.clock ∧ Bounded cfg l'.windower ∧ foldList es = [] ∧
      ((closes es).map Prod.fst).Nodup ∧
      (∀ c ∈ closes es, c.1 ∈ l.windower ∧ c.2.1.closeTime = closeTimeOf cfg c.1 ∧
        closeTimeOf cfg c.1 < w) ∧
      ∀ k ∈ l'.windower, k ∈ l.windower ∧ ¬ closeTimeOf cfg k < w := by
  simp only [closeWindows, slidingWindower, Option.bind_eq_bind, Option.bind_some,
    Option.pure_def, Option.bind_eq_some_iff, Prod.exists, Option.some.injEq, Prod.mk.injEq] at h
  obtain ⟨cur, events, hrun, rfl, rfl⟩ := h
  obtain ⟨hb', hnd, hclosed, hstay⟩ := drainClosed_spec hb w
  obtain ⟨hfold, hevents⟩ := run_onClosed_events hrun
  have hmem : ∀ c ∈ closes events, (c.1, c.2.1) ∈ (l.windower.drainClosed w).2 := fun c hc =>
    hevents ▸ List.mem_map_of_mem hc
  refine ⟨rfl, hb', hfold, ?_, fun c hc => hclosed _ (hmem c hc), hstay⟩
  rw [← hevents, List.map_map] at hnd
  exact hnd

/-- **What a call can touch**: if the windows in `gone` are past the watermark, it folds into none
of them and closes none of them. -/
theorem onAwake_spares {gone : Int → Prop} (hb : Bounded cfg l.windower)
    (hgone : ∀ k, gone k → k ∉ l.windower)
    (h : onAwake (eventClock dtGetter wait) (slidingWindower cfg) logic l call = some (l', es)) :
    ∃ w, EventClock.watermark dtGetter wait l.clock call.now call.nextValue =
        some (l'.clock, w) ∧ Bounded cfg l'.windower ∧ EmittedOnce es ∧
      (∀ c ∈ closes es, c.2.1.closeTime = closeTimeOf cfg c.1 ∧ closeTimeOf cfg c.1 < w) ∧
      (∀ k ∈ l'.windower, ¬ closeTimeOf cfg k < w) ∧
      ((∀ k, gone k → closeTimeOf cfg k < w) →
        (∀ p ∈ foldList es, ¬ gone p.1) ∧ ∀ c ∈ closes es, ¬ gone c.1) := by
  obtain ⟨c, w, mid, acc, cl, hw, ha, hc, rfl⟩ := onAwake_eq_some.mp h
  obtain ⟨hclock, hbm, hacc, hfold, hmid⟩ := acceptItem_sliding (by exact hb) ha
  obtain ⟨hclock', hb', hcl, hnd, hclose, hstay⟩ := closeWindows_sliding hbm hc
  refine ⟨w, by rw [hclock', hclock]; exact hw, hb', ?_, fun d hd => ?_,
    fun k hk => (hstay k hk).2, fun hpast => ⟨fun p hp hg => ?_, fun d hd hg => ?_⟩⟩
  · exact emittedOnce_append.mpr ⟨emittedOnce_of_closes_eq_nil hacc,
      emittedOnce_of_nodup hcl hnd, by simp [hacc]⟩
  · rw [closes_append, hacc, List.nil_append] at hd
    exact (hclose d hd).2
  · rw [foldList_append, hcl, List.append_nil] at hp
    exact hfold p hp (hpast p.1 hg)
  · rw [closes_append, hacc, List.nil_append] at hd
    rcases hmid d.1 (hclose d hd).1 with hold | hnew
    · exact hgone d.1 hg hold
    · exact hnew (hpast d.1 hg)

/-- A call without an item finds nothing to do in a new logic. -/
theorem onAwake_build (hitem : ∀ value, call.nextValue ≠ .ready (some value))
    (h : onAwake (eventClock dtGetter wait) (slidingWindower cfg) logic
      (build (eventClock dtGetter wait) (slidingWindower cfg)) call = some (l', es)) :
    es = [] ∧ l'.windower.isEmpty = true := by
  obtain ⟨c, w, mid, acc, cl, hw, ha, hc, rfl⟩ := onAwake_eq_some.mp h
  have hmid : mid.windower = ∅ ∧ acc = [] := by
    rcases hv : call.nextValue with (_ | value) | _
    · simp only [hv, acceptItem, Option.some.injEq, Prod.mk.injEq] at ha
      exact ⟨ha.1 ▸ rfl, ha.2.symm⟩
    · exact absurd hv (hitem value)
    · simp only [hv, acceptItem, Option.some.injEq, Prod.mk.injEq] at ha
      exact ⟨ha.1 ▸ rfl, ha.2.symm⟩
  obtain ⟨hempty, rfl⟩ := hmid
  have hdrain : (∅ : SlidingWindower).drainClosed w = (∅, []) := rfl
  simp only [closeWindows, slidingWindower, hempty, hdrain, Option.bind_eq_bind,
    Option.bind_some, Runs.run_nil, Option.pure_def, Option.some.injEq, Prod.mk.injEq] at hc
  obtain ⟨rfl, rfl⟩ := hc
  exact ⟨rfl, rfl⟩

/-- The watermark of a new clock at an item. -/
theorem watermark_item {value : V} {now w : Int} {c' : Option (Int × Int)}
    (h : EventClock.watermark dtGetter wait none now (.ready (some value)) = some (c', w)) :
    w = freshWatermark wait (dtGetter value) := by
  rw [EventClock.watermark_eq] at h
  obtain ⟨w', hw', h⟩ := Option.map_eq_some_iff.mp h
  simp only [Prod.mk.injEq] at h
  obtain ⟨-, rfl⟩ := h
  unfold EventClock.watermarkOf at hw'
  unfold freshWatermark
  dsimp only at hw'
  split_ifs at hw' ⊢
  · exact (Option.some.inj hw').symm
  · obtain ⟨start, hstart, hw'⟩ := Option.bind_eq_some_iff.mp hw'
    obtain ⟨-, rfl⟩ := subDuration_eq_some.mp hstart
    obtain ⟨-, rfl⟩ := addDuration_eq_some.mp hw'
    omega

end Steps

/-! ### Runs -/

section Runs

variable {dtGetter : V → Int} {wait : Int} {cfg : SlidingConfig} {logic : WindowLogic V R L}
  {s s' : KeyState (WindowStatefulLogic (Option (Int × Int)) SlidingWindower L)}
  {calls : List (Call V)} {call : Call V} {events es : List (WindowEvent V R)}

/-- What holds of a key after a run: the windows that were emitted are behind every watermark that
the logic's clock will give from then on. -/
structure Past (wait : Int) (cfg : SlidingConfig) (calls : List (Call V))
    (s : KeyState (WindowStatefulLogic (Option (Int × Int)) SlidingWindower L))
    (events : List (WindowEvent V R)) : Prop where
  once : EmittedOnce events
  closeTime : ∀ c ∈ closes events, c.2.1.closeTime = closeTimeOf cfg c.1
  bounded : ∀ l, s.currentLogic = some l → Bounded cfg l.windower
  gone : ∀ l, s.currentLogic = some l → ∀ c ∈ closes events, c.1 ∉ l.windower
  clock : ∀ l, s.currentLogic = some l → ∃ p, l.clock = some p ∧ ∀ c ∈ closes events,
    ∀ now w, (∀ call ∈ calls, call.now ≤ now) → EventClock.watermarkOf wait now p = some w →
      closeTimeOf cfg c.1 < w

theorem Past.init : Past wait cfg calls
    (KeyState.init : KeyState (WindowStatefulLogic _ SlidingWindower L))
    ([] : List (WindowEvent V R)) where
  once := List.Pairwise.nil
  closeTime c hc := by simp [closes] at hc
  bounded l hl := by simp [KeyState.init] at hl
  gone l hl := by simp [KeyState.init] at hl
  clock l hl := by simp [KeyState.init] at hl

/-- The watermark at the start of a call that has something to do is past the emitted windows. -/
theorem Past.watermark (h : Past wait cfg calls s events) (hnow : ∀ c ∈ calls, c.now ≤ call.now)
    (hkept : s.currentLogic = none → ∀ value, call.nextValue = .ready (some value) →
      ∀ c ∈ closes events, c.2.1.closeTime < freshWatermark wait (dtGetter value))
    (hbusy : ¬ (s.currentLogic = none ∧ ∀ value, call.nextValue ≠ .ready (some value)))
    {l : WindowStatefulLogic (Option (Int × Int)) SlidingWindower L}
    (hl : l = s.currentLogic.getD (slidingLogic dtGetter wait cfg logic).build)
    {c' : Option (Int × Int)} {w : Int}
    (hw : EventClock.watermark dtGetter wait l.clock call.now call.nextValue = some (c', w)) :
    (∀ c ∈ closes events, closeTimeOf cfg c.1 < w) ∧
      ∃ p, c' = some p ∧ EventClock.watermarkOf wait call.now p = some w := by
  cases hcur : s.currentLogic with
  | some l₁ =>
    obtain rfl : l = l₁ := by simpa [hcur] using hl
    obtain ⟨p, hp, hpast⟩ := h.clock l hcur
    rw [hp] at hw
    obtain ⟨w₀, hw₀, hle⟩ := EventClock.le_watermark hw
    refine ⟨fun c hc => lt_of_lt_of_le (hpast c hc call.now w₀ hnow hw₀) hle, ?_⟩
    rcases EventClock.watermark_spec hw with ⟨-, hnone, -⟩ | hsome
    · exact absurd hnone (by simp)
    · exact hsome
  | none =>
    obtain ⟨value, hv⟩ : ∃ value, call.nextValue = .ready (some value) := by
      by_contra hno
      exact hbusy ⟨hcur, fun value hv => hno ⟨value, hv⟩⟩
    have hclock : l.clock = none := by
      rw [hl, hcur]
      rfl
    rw [hclock, hv] at hw
    refine ⟨fun c hc => ?_, ?_⟩
    · rw [← h.closeTime c hc, watermark_item hw]
      exact hkept hcur value hv c hc
    · rcases EventClock.watermark_spec hw with ⟨-, -, hnone⟩ | hsome
      · exact absurd hnone (by simp [EventClock.nextEventTime])
      · exact hsome

/-- **A call that keeps the watermark ahead of the emitted windows** keeps them in the past. -/
theorem Past.step (h : Past wait cfg calls s events) (hnow : ∀ c ∈ calls, c.now ≤ call.now)
    (hkept : s.currentLogic = none → ∀ value, call.nextValue = .ready (some value) →
      ∀ c ∈ closes events, c.2.1.closeTime < freshWatermark wait (dtGetter value))
    (hs : KeyState.awake (slidingLogic dtGetter wait cfg logic) s call = some (s', es)) :
    Past wait cfg (calls ++ [call]) s' (events ++ es) := by
  obtain ⟨l', hl', hfate⟩ := KeyState.awake_cases hs
  by_cases hidle : s.currentLogic = none ∧ ∀ value, call.nextValue ≠ .ready (some value)
  · -- nothing happens, and the new logic is dropped again
    rw [hidle.1] at hl'
    obtain ⟨rfl, hempty⟩ := onAwake_build hidle.2 hl'
    have hdrop : s'.currentLogic = none := by
      rcases hfate with ⟨-, rfl⟩ | ⟨hretain, -⟩
      · rfl
      · simp [slidingLogic, stateful, slidingWindower, hempty] at hretain
    rw [List.append_nil]
    exact ⟨h.once, h.closeTime, by simp [hdrop], by simp [hdrop], by simp [hdrop]⟩
  · obtain ⟨l, hl⟩ : ∃ l, l = s.currentLogic.getD (slidingLogic dtGetter wait cfg logic).build :=
      ⟨_, rfl⟩
    rw [← hl] at hl'
    have hbounded : Bounded cfg l.windower := by
      cases hcur : s.currentLogic with
      | some l₁ => exact hl ▸ hcur ▸ h.bounded l₁ hcur
      | none => exact hl ▸ hcur ▸ Bounded.empty
    have hgone : ∀ k, (∃ c ∈ closes events, c.1 = k) → k ∉ l.windower := by
      rintro k ⟨c, hc, rfl⟩
      cases hcur : s.currentLogic with
      | some l₁ => exact hl ▸ hcur ▸ h.gone l₁ hcur c hc
      | none =>
        rw [hl, hcur]
        exact Std.TreeMap.not_mem_emptyc
    obtain ⟨w, hw, hb', honce, hclose, hopen, hspare⟩ := onAwake_spares hbounded hgone hl'
    obtain ⟨hpast, p, hp, hpw⟩ := h.watermark hnow hkept hidle hl hw
    obtain ⟨hfolds, hcloses⟩ := hspare fun k hk => by
      obtain ⟨c, hc, rfl⟩ := hk
      exact hpast c hc
    have hbehind : ∀ c ∈ closes (events ++ es), closeTimeOf cfg c.1 < w := by
      intro c hc
      rw [closes_append] at hc
      exact (List.mem_append.mp hc).elim (hpast c) fun hc => (hclose c hc).2
    have hstate : ∀ l₁, s'.currentLogic = some l₁ → l₁ = l' := by
      rcases hfate with ⟨-, rfl⟩ | ⟨-, next, -, rfl⟩
      · simp [KeyState.init]
      · simp [eq_comm]
    refine ⟨?_, fun c hc => ?_, ?_, ?_, ?_⟩
    · refine emittedOnce_append.mpr ⟨h.once, honce, fun c hc => ⟨fun c' hc' he => ?_,
        fun q hq he => ?_⟩⟩
      · exact hcloses c' hc' ⟨c, hc, he.symm⟩
      · exact hfolds q hq ⟨c, hc, he.symm⟩
    · rw [closes_append] at hc
      exact (List.mem_append.mp hc).elim (h.closeTime c) fun hc => (hclose c hc).1
    · exact fun l₁ h₁ => hstate l₁ h₁ ▸ hb'
    · exact fun l₁ h₁ c hc hmem => hopen c.1 (hstate l₁ h₁ ▸ hmem) (hbehind c hc)
    · intro l₁ h₁
      refine ⟨p, hstate l₁ h₁ ▸ hp, fun c hc now w' hall hw' => ?_⟩
      have := EventClock.watermarkOf_mono (hall call (by simp)) hpw hw'
      have := hbehind c hc
      omega

end Runs

/-- **A window is emitted at most once as long as the watermark is kept.** -/
theorem emittedOnce_of_watermarkKept (dtGetter : V → Int) (wait : Int) (cfg : SlidingConfig)
    (logic : WindowLogic V R L) (calls : List (Call V))
    (hnow : calls.Pairwise fun a b => a.now ≤ b.now)
    (hkept : WatermarkKept dtGetter wait cfg logic calls) :
    ∀ s events, Runs.run (KeyState.awake (slidingLogic dtGetter wait cfg logic)) KeyState.init
      calls = some (s, events) → EmittedOnce events := by
  intro s events hrun
  refine (Runs.run_prefixes (P := fun pre s events => Past wait cfg pre s events)
    (fun pre call post s es s₁ es₁ he hpre hp hs => ?_) Past.init hrun).once
  refine hp.step (fun c hc => ?_) (fun hnone value hv => ?_) hs
  · rw [he, List.pairwise_append] at hnow
    exact hnow.2.2 c hc call (by simp)
  · intro c hc
    obtain ⟨p, hmem, hkey⟩ := List.mem_map.mp
      ((accepted_iff_emitted hpre hnone).mpr (List.mem_map_of_mem hc))
    rw [hp.closeTime c hc, ← hkey]
    exact hkept pre call post s es value he hpre hnone hv p hmem

/-- A collecting fold window for integer values. -/
def collectValues : WindowLogic Int (List Int) (Option (List Int)) :=
  foldWindowLogic [] fun acc value => acc ++ [value]

/-- A window of ten seconds is emitted, so that the logic is discarded, and then an item at 30 s
starts a clock past it. -/
def discardedTwice : List (Call Int) :=
  [⟨0, 0, .ready (some 5000000000)⟩, ⟨10000000001, 10000000001, .pending⟩,
    ⟨11000000000, 11000000000, .ready (some 30000000000)⟩, ⟨41000000000, 41000000000, .pending⟩]

/-- What there is to keep the watermark past when the second item comes. -/
theorem discardedTwice_accepted :
    (Runs.run (KeyState.awake (slidingLogic id 0 (.tumbling 10000000000 0) collectValues))
      KeyState.init (discardedTwice.take 2)).map
        (fun r => (r.1.currentLogic.isNone, (foldList r.2).map Prod.fst)) = some (true, [0]) := by
  decide +kernel

theorem discardedTwice_watermarkKept :
    WatermarkKept id 0 (.tumbling 10000000000 0) collectValues discardedTwice := by
  intro pre call post s events value he hrun _ hvalue
  rcases pre with _ | ⟨a, _ | ⟨b, _ | ⟨c, _ | ⟨d, pre⟩⟩⟩⟩ <;>
    simp only [discardedTwice, List.cons_append, List.nil_append, List.cons.injEq] at he
  · cases hrun
    exact List.forall_mem_nil _
  · obtain ⟨-, rfl, -⟩ := he
    cases hvalue
  · -- the item of 30 s, after the window that ends at 10 s
    obtain ⟨rfl, rfl, rfl, -⟩ := he
    obtain ⟨r, hr, haccepted⟩ := Option.map_eq_some_iff.mp discardedTwice_accepted
    cases hr.symm.trans hrun
    cases hvalue
    intro p hp
    have hkey := List.mem_map_of_mem (f := Prod.fst) hp
    rw [(Prod.mk.inj haccepted).2, List.mem_singleton] at hkey
    rw [hkey]
    decide
  · obtain ⟨-, -, -, rfl, -⟩ := he
    cases hvalue
  · simp at he

theorem emittedOnce_of_watermarkKept_discardedTwice :
    discardedTwice.Pairwise (fun a b => a.now ≤ b.now) ∧
      ∃ s events, Runs.run (KeyState.awake (slidingLogic id 0 (.tumbling 10000000000 0)
        collectValues)) KeyState.init discardedTwice = some (s, events) ∧
        (closes events).map Prod.fst = [0, 3] ∧ EmittedOnce events := by
  have hrun : (Runs.run (KeyState.awake (slidingLogic id 0 (.tumbling 10000000000 0)
      collectValues)) KeyState.init discardedTwice).map (fun r => (closes r.2).map Prod.fst) =
        some [0, 3] := by
    decide +kernel
  obtain ⟨⟨s, events⟩, hrun, hcloses⟩ := Option.map_eq_some_iff.mp hrun
  have hnow : discardedTwice.Pairwise fun a b => a.now ≤ b.now := by decide
  exact ⟨hnow, s, events, hrun, hcloses, emittedOnce_of_watermarkKept id 0 _ collectValues _ hnow
    discardedTwice_watermarkKept s events hrun⟩

/-- Tumbling windows of ten seconds: when the only open window of the key has been emitted, an item
at 6 s opens it again. -/
theorem not_emittedOnce_after_discard :
    ¬ ∀ calls : List (Call Int), calls.Pairwise (fun a b => a.now ≤ b.now) →
      ∀ s events, Runs.run (KeyState.awake (slidingLogic id 0 (.tumbling 10000000000 0)
        collectValues)) KeyState.init calls = some (s, events) → EmittedOnce events := by
  intro h
  have hrun : (Runs.run (KeyState.awake (slidingLogic id 0 (.tumbling 10000000000 0)
      collectValues)) KeyState.init
      [⟨0, 0, .ready (some 5000000000)⟩, ⟨10000000001, 10000000001, .pending⟩,
        ⟨11000000000, 11000000000, .ready (some 6000000000)⟩,
        ⟨16000000000, 16000000000, .pending⟩]).map
      (fun r => (closes r.2).map Prod.fst) = some [0, 0] := by
    decide +kernel
  obtain ⟨⟨s, events⟩, hrun, hcloses⟩ := Option.map_eq_some_iff.mp hrun
  have honce := (h _ (by decide) s events hrun).nodup_closes
  rw [hcloses] at honce
  exact absurd honce (by decide)

end Bytewax
