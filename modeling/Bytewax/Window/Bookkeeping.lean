import Bytewax.Window.Rebuild
import Bytewax.Window.SessionValues
import Bytewax.Window.SlidingValues

/-!
# Bytewax.Window.Bookkeeping — the windowing logic does not panic on its own books

A windower keeps its books if the windows it says an item went into are windows it has metadata of,
and if it closes each window once (`Bookkeeper`).  Then every window that the windower has is one that
`current_state` has a logic for (`InStep`), whatever clock and window logic it runs with and however
often it is built again from its snapshot, and neither `expect` of `on_awake` fails.  Both windowers
keep their books, and their own assertions hold.
-/

namespace Bytewax

open Std (TreeMap)
open WindowStatefulLogic

variable {V R L C W CS WS LS : Type}

/-- The windower has metadata for the key. -/
def Windower.HasWindow (windower : Windower W) (w : W) (k : Int) : Prop :=
  (windower.getMetadata w k).isSome = true

/-- A windower that keeps its books, as long as `Inv` holds of it. -/
structure Bookkeeper (windower : ResumableWindower WS W) (Inv : W → Prop) : Prop where
  build : Inv windower.build ∧ ∀ k, ¬ windower.HasWindow windower.build k
  insert : ∀ {w w' watermark itemTime results}, Inv w →
    windower.insert w watermark itemTime = some (w', results) →
    Inv w' ∧ (∀ k, .ok k ∈ results → windower.HasWindow w' k) ∧
      ∀ k, windower.HasWindow w' k → windower.HasWindow w k ∨ .ok k ∈ results
  drainClosed : ∀ {w w' watermark closed}, Inv w →
    windower.drainClosed w watermark = some (w', closed) →
    Inv w' ∧ (closed.map Prod.fst).Nodup ∧ (∀ c ∈ closed, windower.HasWindow w c.1) ∧
      ∀ k, windower.HasWindow w' k → windower.HasWindow w k ∧ k ∉ closed.map Prod.fst
  rebuild : ∀ {w state}, Inv w → windower.snapshot w = some state →
    Inv (windower.resume state) ∧
      ∀ k, windower.HasWindow (windower.resume state) k → windower.HasWindow w k

/-- The books are kept, and every window that the windower has has a logic. -/
structure InStep (windower : ResumableWindower WS W) (Inv : W → Prop)
    (s : WindowStatefulLogic C W L) : Prop where
  inv : Inv s.windower
  logics : ∀ k, windower.HasWindow s.windower k → k ∈ s.currentState

/-! ### Where `on_awake` panics -/

section Panics

variable (clock : Clock V C) (windower : Windower W) (logic : WindowLogic V R L)
variable (s : WindowStatefulLogic C W L) (call : Call V)

/-- The call inserts an item with this time, when the watermark is this. -/
def Inserts (watermark itemTime : Int) : Prop :=
  ∃ c value, clock.watermark s.clock call.now call.nextValue = some (c, watermark) ∧
    call.nextValue = .ready (some value) ∧ itemTime = (clock.timeFor c call.itemNow value).2

/-- The call gets as far as closing windows, with this state and watermark. -/
def Accepts (watermark : Int) (mid : WindowStatefulLogic C W L) : Prop :=
  ∃ c es, clock.watermark s.clock call.now call.nextValue = some (c, watermark) ∧
    acceptItem clock windower logic { s with clock := c } watermark call.itemNow
      call.nextValue = some (mid, es)

/-- "No window metadata found". -/
def NoMetadataFound : Prop :=
  ∃ watermark itemTime w results k, Inserts clock s call watermark itemTime ∧
    windower.insert s.windower watermark itemTime = some (w, results) ∧
    .ok k ∈ results ∧ windower.getMetadata w k = none

/-- "No logic for closed window". -/
def NoLogicForClosed : Prop :=
  ∃ watermark mid w pre c post cur es, Accepts clock windower logic s call watermark mid ∧
    windower.drainClosed mid.windower watermark = some (w, pre ++ c :: post) ∧
    Runs.run (onClosed logic) mid.currentState pre = some (cur, es) ∧ cur[c.1]? = none

end Panics

/-! ### The loops over `current_state` -/

section Loops

variable {clock : Clock V C} {windower : Windower W} {logic : WindowLogic V R L}
  {cur cur' : TreeMap Int L} {w : W} {value : V} {itemTime : Int}

/-- The windows that an item went into get logics, if they have not got one. -/
theorem run_onResult_mem {results : List (Except InsertError Int)} {es : List (WindowEvent V R)}
    (h : Runs.run (onResult windower logic w value itemTime) cur results = some (cur', es)) (k : Int) :
    k ∈ cur' ↔ k ∈ cur ∨ .ok k ∈ results := by
  induction results generalizing cur es with
  | nil =>
    cases h
    simp
  | cons r results ih =>
    obtain ⟨cur₁, o₁, o₂, hs, hr, -⟩ := Runs.exists_of_run_cons h
    rw [ih hr, List.mem_cons]
    cases r with
    | error e =>
      cases hs
      simp
    | ok key =>
      obtain ⟨metadata, -, hs⟩ := Option.bind_eq_some_iff.mp hs
      cases hs
      rw [TreeMap.mem_insert, Std.LawfulEqCmp.compare_eq_iff_eq, Except.ok.injEq, eq_comm, or_assoc,
        or_left_comm]

/-- The loop over the results fails at a window without metadata only. -/
theorem run_onResult_eq_none {results : List (Except InsertError Int)}
    (h : Runs.run (onResult windower logic w value itemTime) cur results = none) :
    ∃ k, .ok k ∈ results ∧ windower.getMetadata w k = none := by
  obtain ⟨pre, r, post, m, o, rfl, -, hr⟩ := Runs.run_eq_none.mp h
  cases r with
  | error e => cases hr
  | ok k =>
    refine ⟨k, by simp, ?_⟩
    cases hm : windower.getMetadata w k with
    | none => rfl
    | some metadata =>
      replace hr : (windower.getMetadata w k).bind _ = none := hr
      rw [hm] at hr
      cases hr

variable (logic) in
theorem exists_run_onClosed {closed : List (Int × WindowMetadata)} (hnd : (closed.map Prod.fst).Nodup)
    (hmem : ∀ c ∈ closed, c.1 ∈ cur) :
    ∃ cur' es, Runs.run (onClosed logic) cur closed = some (cur', es) ∧
      ∀ k, k ∈ cur' ↔ k ∈ cur ∧ k ∉ closed.map Prod.fst := by
  obtain ⟨cur', hrun, hcur'⟩ := run_onClosed logic closed cur hnd hmem
  refine ⟨cur', _, hrun, fun k => ?_⟩
  rw [TreeMap.mem_iff_isSome_getElem?, TreeMap.mem_iff_isSome_getElem?, hcur']
  by_cases hk : k ∈ closed.map Prod.fst
  · simp [hk]
  · rw [if_neg hk]
    exact (and_iff_left hk).symm

theorem acceptItem_eq_none {s : WindowStatefulLogic C W L} {watermark itemNow : Int}
    {nextValue : Poll (Option V)}
    (h : acceptItem clock windower logic s watermark itemNow nextValue = none) :
    ∃ value, nextValue = .ready (some value) ∧
      (windower.insert s.windower watermark (clock.timeFor s.clock itemNow value).2 = none ∨
      ∃ w results k, windower.insert s.windower watermark (clock.timeFor s.clock itemNow value).2 =
        some (w, results) ∧ .ok k ∈ results ∧ windower.getMetadata w k = none) := by
  rcases nextValue with (_ | value) | _
  · cases h
  · refine ⟨value, rfl, ?_⟩
    replace h : (windower.insert s.windower watermark
      (clock.timeFor s.clock itemNow value).2).bind _ = none := h
    cases hins : windower.insert s.windower watermark (clock.timeFor s.clock itemNow value).2 with
    | none => exact .inl rfl
    | some p =>
      refine .inr ⟨p.1, p.2, ?_⟩
      rw [hins] at h
      replace h : (Runs.run (onResult windower logic p.1 value _) s.currentState p.2).bind _ = none := h
      cases hr : Runs.run (onResult windower logic p.1 value
          (clock.timeFor s.clock itemNow value).2) s.currentState p.2 with
      | none =>
        obtain ⟨k, hk, hnone⟩ := run_onResult_eq_none hr
        exact ⟨k, rfl, hk, hnone⟩
      | some r =>
        rw [hr] at h
        cases h
  · cases h

theorem closeWindows_eq_none {s : WindowStatefulLogic C W L} {watermark : Int}
    (h : closeWindows windower logic s watermark = none) :
    windower.drainClosed s.windower watermark = none ∨
      ∃ w pre c post cur es, windower.drainClosed s.windower watermark = some (w, pre ++ c :: post) ∧
        Runs.run (onClosed logic) s.currentState pre = some (cur, es) ∧ cur[c.1]? = none := by
  replace h : (windower.drainClosed s.windower watermark).bind _ = none := h
  cases hd : windower.drainClosed s.windower watermark with
  | none => exact .inl rfl
  | some p =>
    refine .inr ⟨p.1, ?_⟩
    rw [hd] at h
    replace h : (Runs.run (onClosed logic) s.currentState p.2).bind _ = none := h
    cases hr : Runs.run (onClosed logic) s.currentState p.2 with
    | none =>
      obtain ⟨pre, c, post, cur, es, hsplit, hpre, hc⟩ := Runs.run_eq_none.mp hr
      refine ⟨pre, c, post, cur, es, by rw [← hsplit], hpre, ?_⟩
      cases hl : cur[c.1]? with
      | none => rfl
      | some l =>
        replace hc : cur[c.1]?.bind _ = none := hc
        rw [hl] at hc
        cases hc
    | some r =>
      rw [hr] at h
      cases h

/-- **All the ways that `on_awake` can panic**: the clock's, the windower's two, and its own two. -/
theorem onAwake_panics {s : WindowStatefulLogic C W L} {call : Call V}
    (h : onAwake clock windower logic s call = none) :
    clock.watermark s.clock call.now call.nextValue = none ∨
    (∃ watermark itemTime, Inserts clock s call watermark itemTime ∧
      windower.insert s.windower watermark itemTime = none) ∨
    NoMetadataFound clock windower s call ∨
    (∃ watermark mid, Accepts clock windower logic s call watermark mid ∧
      windower.drainClosed mid.windower watermark = none) ∨
    NoLogicForClosed clock windower logic s call := by
  cases hw : clock.watermark s.clock call.now call.nextValue with
  | none => exact .inl rfl
  | some p =>
    obtain ⟨c, watermark⟩ := p
    refine .inr ?_
    cases ha : acceptItem clock windower logic { s with clock := c } watermark call.itemNow
        call.nextValue with
    | none =>
      obtain ⟨value, hv, hcase⟩ := acceptItem_eq_none ha
      have hitem : Inserts clock s call watermark (clock.timeFor c call.itemNow value).2 :=
        ⟨c, value, hw, hv, rfl⟩
      rcases hcase with hins | ⟨w, results, k, hins, hk, hnone⟩
      · exact .inl ⟨watermark, _, hitem, hins⟩
      · exact .inr (.inl ⟨watermark, _, w, results, k, hitem, hins, hk, hnone⟩)
    | some q =>
      obtain ⟨mid, es⟩ := q
      have hacc : Accepts clock windower logic s call watermark mid := ⟨c, es, hw, ha⟩
      have hclose : closeWindows windower logic mid watermark = none := by
        rw [Option.eq_none_iff_forall_ne_some]
        rintro ⟨s', es'⟩ hc
        rw [onAwake_eq_some.mpr ⟨c, watermark, mid, es, es', hw, ha, hc, rfl⟩] at h
        cases h
      rcases closeWindows_eq_none hclose with hd | ⟨w, pre, p, post, cur, o, hd, hpre, hp⟩
      · exact .inr (.inr (.inl ⟨watermark, mid, hacc, hd⟩))
      · exact .inr (.inr (.inr ⟨watermark, mid, w, pre, p, post, cur, o, hacc, hd, hpre, hp⟩))

end Loops

/-! ### Any windower that keeps its books -/

section Bookkeepers

variable {clock : ResumableClock V CS C} {windower : ResumableWindower WS W}
  {logic : ResumableLogic V R LS L} {Inv : W → Prop} {s s' mid : WindowStatefulLogic C W L}
  {call : Call V} {watermark : Int} {events es : List (WindowEvent V R)}

theorem Bookkeeper.inStep_build (h : Bookkeeper windower Inv) :
    InStep (L := L) windower Inv (WindowStatefulLogic.build clock.toClock windower.toWindower) :=
  ⟨h.build.1, fun k hk => absurd hk (h.build.2 k)⟩

theorem InStep.accept (h : InStep windower Inv s) (hb : Bookkeeper windower Inv) {itemNow : Int}
    {nextValue : Poll (Option V)} (ha : acceptItem clock.toClock windower.toWindower
      logic.toWindowLogic s watermark itemNow nextValue = some (mid, es)) :
    InStep windower Inv mid := by
  rcases nextValue with (_ | value) | _
  · cases ha
    exact h
  · obtain ⟨⟨w, results⟩, hins, ha⟩ := Option.bind_eq_some_iff.mp ha
    obtain ⟨⟨cur, events⟩, hr, ha⟩ := Option.bind_eq_some_iff.mp ha
    cases ha
    obtain ⟨hinv, -, hnew⟩ := hb.insert h.inv hins
    refine ⟨hinv, fun k hk => ?_⟩
    rw [run_onResult_mem hr]
    exact (hnew k hk).imp_left (h.logics k)
  · cases ha
    exact h

theorem InStep.close (h : InStep windower Inv s) (hb : Bookkeeper windower Inv)
    (hc : closeWindows windower.toWindower logic.toWindowLogic s watermark = some (s', es)) :
    InStep windower Inv s' := by
  obtain ⟨⟨w, closed⟩, hd, hc⟩ := Option.bind_eq_some_iff.mp hc
  obtain ⟨⟨cur, events⟩, hr, hc⟩ := Option.bind_eq_some_iff.mp hc
  cases hc
  obtain ⟨hinv, hnd, hhad, hstay⟩ := hb.drainClosed h.inv hd
  obtain ⟨cur', es', hr', hcur'⟩ := exists_run_onClosed logic.toWindowLogic hnd
    fun c hc => h.logics c.1 (hhad c hc)
  rw [hr] at hr'
  cases hr'
  refine ⟨hinv, fun k hk => ?_⟩
  obtain ⟨hhas, hnot⟩ := hstay k hk
  exact (hcur' k).mpr ⟨h.logics k hhas, hnot⟩

theorem InStep.awake (h : InStep windower Inv s) (hb : Bookkeeper windower Inv)
    (ha : onAwake clock.toClock windower.toWindower logic.toWindowLogic s call = some (s', events)) :
    InStep windower Inv s' := by
  obtain ⟨c, watermark, mid, es, es', -, hacc, hclose, -⟩ := onAwake_eq_some.mp ha
  have hc : InStep windower Inv { s with clock := c } := ⟨h.inv, h.logics⟩
  exact (hc.accept hb hacc).close hb hclose

/-- The logics are built again under the same keys. -/
theorem InStep.rebuild (h : InStep windower Inv s) (hb : Bookkeeper windower Inv)
    {state : WindowSnapshot CS WS LS}
    (hs : WindowStatefulLogic.snapshot clock windower logic s = some state) :
    InStep windower Inv (WindowStatefulLogic.resume clock windower logic state) := by
  obtain ⟨clockState, -, hs⟩ := Option.bind_eq_some_iff.mp hs
  obtain ⟨windowerState, hw, hs⟩ := Option.bind_eq_some_iff.mp hs
  cases hs
  obtain ⟨hinv, hhas⟩ := hb.rebuild h.inv hw
  refine ⟨hinv, fun k hk => ?_⟩
  show k ∈ (s.currentState.map fun _ l => logic.snapshot l).map fun _ l => logic.resume l
  rw [TreeMap.mem_map, TreeMap.mem_map]
  exact h.logics k (hhas k hk)

theorem InStep.turn (h : InStep windower Inv s) (hb : Bookkeeper windower Inv) {turn : Turn V}
    (ht : WindowStatefulLogic.turn clock windower logic s turn = some (s', events)) :
    InStep windower Inv s' := by
  cases turn with
  | awake call => exact h.awake hb ht
  | rebuild =>
    obtain ⟨state, hs, ht⟩ := Option.map_eq_some_iff.mp ht
    cases ht
    exact h.rebuild hb hs

/-- **Every window of the windower has a logic**, in every run. -/
theorem Bookkeeper.run (hb : Bookkeeper windower Inv) {turns : List (Turn V)}
    (hr : Runs.run (WindowStatefulLogic.turn clock windower logic)
      (WindowStatefulLogic.build clock.toClock windower.toWindower) turns = some (s, events)) :
    InStep windower Inv s :=
  Runs.run_induct (fun _ _ _ _ h _ ht => h.turn hb ht) hb.inStep_build (Runs.along_true _ _) hr

/-- There is metadata for the windows that an item went into. -/
theorem InStep.metadataFound (h : InStep windower Inv s) (hb : Bookkeeper windower Inv) :
    ¬ NoMetadataFound clock.toClock windower.toWindower s call := by
  rintro ⟨watermark, itemTime, w, results, k, -, hins, hk, hnone⟩
  have hhas := (hb.insert h.inv hins).2.1 k hk
  rw [Windower.HasWindow, hnone] at hhas
  cases hhas

/-- There is a logic for every window that closes. -/
theorem InStep.logicForClosed (h : InStep windower Inv s) (hb : Bookkeeper windower Inv) :
    ¬ NoLogicForClosed clock.toClock windower.toWindower logic.toWindowLogic s call := by
  rintro ⟨watermark, mid, w, pre, c, post, cur, es, ⟨clk, es', -, hacc⟩, hd, hr, hnone⟩
  have hclk : InStep windower Inv { s with clock := clk } := ⟨h.inv, h.logics⟩
  have hmid := hclk.accept hb hacc
  obtain ⟨-, hnd, hhad, -⟩ := hb.drainClosed hmid.inv hd
  obtain ⟨cur', es'', hr', -⟩ := exists_run_onClosed logic.toWindowLogic hnd
    fun c hc => hmid.logics c.1 (hhad c hc)
  have hfail : Runs.run (onClosed logic.toWindowLogic) mid.currentState (pre ++ c :: post) = none := by
    refine Runs.run_eq_none.mpr ⟨pre, c, post, cur, es, rfl, hr, ?_⟩
    unfold onClosed
    rw [hnone]
    rfl
  rw [hfail] at hr'
  cases hr'

end Bookkeepers

/-! ### Sessions -/

namespace SessionWindower

open Session

variable {sorter : UnstableSort} {gap t : Int} {w w' : SessionWindower}

/-- A session that has been through Python. -/
def rebuilt (s : Session) : Session :=
  ⟨s.key, extractUtc (s.start / 1000), extractUtc (s.latestEventTime / 1000)⟩

theorem snapshot_eq_some {s : Session} {state : Int × Int × Int} (h : s.snapshot = some state) :
    InPython s.start ∧ InPython s.latestEventTime ∧ Session.fromSnap state = rebuilt s := by
  obtain ⟨start, hs, h⟩ := Option.bind_eq_some_iff.mp h
  obtain ⟨latest, hl, h⟩ := Option.bind_eq_some_iff.mp h
  cases h
  obtain ⟨hstart, rfl⟩ := intoPy_eq_some.mp hs
  obtain ⟨hlatest, rfl⟩ := intoPy_eq_some.mp hl
  exact ⟨hstart, hlatest, rfl⟩

theorem mapM_snapshot {sessions : List Session} {states : List (Int × Int × Int)}
    (h : sessions.mapM Session.snapshot = some states) :
    states.map Session.fromSnap = sessions.map rebuilt ∧
      ∀ s ∈ sessions, InPython s.start ∧ InPython s.latestEventTime := by
  induction sessions generalizing states with
  | nil =>
    cases h
    exact ⟨rfl, List.forall_mem_nil _⟩
  | cons s sessions ih =>
    obtain ⟨state, states', hs, hrest, rfl⟩ := MapM.cons_eq_some h
    obtain ⟨hstart, hlatest, hsnap⟩ := snapshot_eq_some hs
    obtain ⟨hmap, hin⟩ := ih hrest
    rw [List.map_cons, hsnap, hmap]
    exact ⟨rfl, List.forall_mem_cons.mpr ⟨⟨hstart, hlatest⟩, hin⟩⟩

/-- **Sessions stay apart when they are built again**, as the gap has whole microseconds. -/
theorem Inv.rebuilt (hgap : 0 < gap) (hmicro : 1000 ∣ gap) (hinv : w.Inv gap)
    (hin : ∀ s ∈ w.sessions, InPython s.start ∧ InPython s.latestEventTime) :
    Inv gap ⟨w.sessions.map SessionWindower.rebuilt, w.maxKey⟩ := by
  refine ⟨fun s hs => ?_, ?_, ?_, fun s hs => ?_⟩
  · obtain ⟨q, hq, rfl⟩ := List.mem_map.mp hs
    have hok := hinv.ok q hq
    obtain ⟨hstart, hlatest⟩ := hin q hq
    exact ⟨extractUtc_div_mono hok.span, hok.fits_start.rebuilt hgap hstart,
      hok.fits_latest.rebuilt hgap hlatest⟩
  · rw [List.pairwise_map]
    exact hinv.before.imp fun hab => extractUtc_div_add_le hmicro hab
  · rw [List.map_map]
    exact hinv.nodup
  · obtain ⟨q, hq, rfl⟩ := List.mem_map.mp hs
    exact hinv.le_maxKey q hq

theorem hasWindow_iff {k : Int} : (sessionWindower sorter gap).HasWindow w k ↔
    ∃ q ∈ w.sessions, q.key = k := by
  show ((w.sessions.find? fun s => s.key = k).map Session.metadata).isSome = true ↔ _
  rw [Option.isSome_map, List.find?_isSome]
  simp

/-- **The session windower keeps its books.** -/
theorem bookkeeper (sorter : UnstableSort) (hgap : 0 < gap) (hmicro : 1000 ∣ gap) :
    Bookkeeper (resumableSessionWindower sorter gap) (Inv gap) where
  build := ⟨.build, fun k hk => by
    obtain ⟨q, hq, -⟩ := hasWindow_iff.mp hk
    cases hq⟩
  insert := by
    intro w w' watermark t results hinv hins
    refine ⟨hinv.insert hgap hins, ?_⟩
    by_cases ht : t < watermark
    · have hlate : w.insert sorter gap watermark t = some (w, [.error (.late w.maxKey)]) := if_pos ht
      rw [show w.insert sorter gap watermark t = some (w', results) from hins] at hlate
      cases hlate
      exact ⟨fun k hk => by simp at hk, fun k hk => .inl hk⟩
    · by_cases hfit : Fits t gap
      · obtain ⟨pre, old, post, m, hrep, hinsert⟩ := insert_spec sorter hgap hinv ht hfit
        rw [show w.insert sorter gap watermark t = some (w', results) from hins] at hinsert
        cases hinsert
        refine ⟨fun k hk => ?_, fun k hk => ?_⟩
        · obtain rfl : k = m.key := by simpa using hk
          exact hasWindow_iff.mpr ⟨m, by simp, rfl⟩
        · obtain ⟨q, hq, rfl⟩ := hasWindow_iff.mp hk
          rcases List.mem_cons.mp (List.perm_middle.mem_iff.mp hq) with rfl | hq
          · exact .inr (by simp)
          · exact .inl (hasWindow_iff.mpr ⟨q, hrep.stays.subset hq, rfl⟩)
      · have hnone : w.insert sorter gap watermark t = none := insert_eq_none hgap hinv ht hfit
        rw [show w.insert sorter gap watermark t = some (w', results) from hins] at hnone
        cases hnone
  drainClosed := by
    intro w w' watermark closed hinv hd
    have heq : w.drainClosed gap watermark = some (_, _) := drainClosed_eq hinv
    rw [show w.drainClosed gap watermark = some (w', closed) from hd] at heq
    cases heq
    have hkeys : ((w.sessions.filter fun s => ¬ watermark < s.latestEventTime + gap).map
        fun s => (s.key, s.metadata)).map Prod.fst =
          (w.sessions.filter fun s => ¬ watermark < s.latestEventTime + gap).map Session.key :=
      List.map_map
    refine ⟨hinv.filter _, ?_, fun c hc => ?_, fun k hk => ?_⟩
    · rw [hkeys]
      exact hinv.nodup.sublist (List.filter_sublist.map Session.key)
    · obtain ⟨q, hq, rfl⟩ := List.mem_map.mp hc
      exact hasWindow_iff.mpr ⟨q, List.mem_of_mem_filter hq, rfl⟩
    · obtain ⟨q, hq, rfl⟩ := hasWindow_iff.mp hk
      obtain ⟨hqw, hopen⟩ := List.mem_filter.mp hq
      refine ⟨hasWindow_iff.mpr ⟨q, hqw, rfl⟩, fun hclosed => ?_⟩
      rw [hkeys] at hclosed
      obtain ⟨r, hr, hkey⟩ := List.mem_map.mp hclosed
      obtain ⟨hrw, hshut⟩ := List.mem_filter.mp hr
      obtain rfl := List.inj_on_of_nodup_map hinv.nodup hrw hqw hkey
      exact absurd (of_decide_eq_true hopen) (of_decide_eq_true hshut)
  rebuild := by
    intro w state hinv hs
    obtain ⟨states, hstates, hs⟩ := Option.bind_eq_some_iff.mp hs
    cases hs
    obtain ⟨hmap, hin⟩ := mapM_snapshot hstates
    have hresume : (resumableSessionWindower sorter gap).resume (states, w.maxKey) =
        ⟨w.sessions.map SessionWindower.rebuilt, w.maxKey⟩ := by
      rw [← hmap]
      rfl
    rw [hresume]
    refine ⟨hinv.rebuilt hgap hmicro hin, fun k hk => ?_⟩
    obtain ⟨q, hq, rfl⟩ := hasWindow_iff.mp hk
    obtain ⟨r, hr, rfl⟩ := List.mem_map.mp hq
    exact hasWindow_iff.mpr ⟨r, hr, rfl⟩

/-- "SessionWindower is not generating consistent sessions": no session takes the item in. -/
def InconsistentSessions (clock : Clock V C) (sorter : UnstableSort) (gap : Int)
    (s : WindowStatefulLogic C SessionWindower L) (call : Call V) : Prop :=
  ∃ watermark t w, Inserts clock s call watermark t ∧ ¬ t < watermark ∧
    (s.windower.addSession sorter t).mergeSessions gap = some w ∧
    ∀ q ∈ w.sessions, q.tryInsert t gap = some (q, false)

theorem insertFirst_eq_none {sessions : List Session}
    (h : ∀ q ∈ sessions, q.tryInsert t gap = some (q, false)) :
    insertFirst gap t sessions = none := by
  induction sessions with
  | nil => rfl
  | cons q sessions ih =>
    obtain ⟨hq, hrest⟩ := List.forall_mem_cons.mp h
    rw [insertFirst, hq]
    show (insertFirst gap t sessions).bind _ = none
    rw [ih hrest]
    rfl

/-- Some session takes an item in, or has no close time. -/
theorem exists_tryInsert (hgap : 0 < gap) (hinv : w.Inv gap)
    (hm : (w.addSession sorter t).mergeSessions gap = some w') :
    ∃ q ∈ w'.sessions, q.tryInsert t gap ≠ some (q, false) := by
  by_contra hno
  have hall : ∀ q ∈ w'.sessions, q.tryInsert t gap = some (q, false) := by
    intro q hq
    by_contra hne
    exact hno ⟨q, hq, hne⟩
  by_cases hfit : Fits t gap
  · obtain ⟨pre, old, post, m, -, hinsert⟩ := insert_spec sorter hgap hinv (lt_irrefl t) hfit
    rw [insert, if_neg (lt_irrefl t), hm] at hinsert
    replace hinsert : (insertFirst gap t w'.sessions).bind _ = some _ := hinsert
    rw [insertFirst_eq_none hall] at hinsert
    cases hinsert
  · obtain ⟨pre, old, base, after, h⟩ := exists_pushed sorter hgap hinv t
    have hbase := h.not_fits hinv hfit
    rw [mergeSessions, h.merge] at hm
    cases after with
    | nil =>
      obtain rfl : w' = ⟨pre ++ [base], (w.addSession sorter t).maxKey⟩ := (Option.some.inj hm).symm
      have htry := hall base (by simp)
      rw [tryInsert, contains_eq_none hbase h.joined.start_le] at htry
      cases htry
    | cons q rest =>
      have hq := contains_eq_none hbase (le_trans h.joined.start_le (h.after_ge q (by simp)))
      simp [mergeStep_concat, hq] at hm

theorem consistentSessions {clock : Clock V C} {s : WindowStatefulLogic C SessionWindower L}
    {call : Call V} (hgap : 0 < gap) (hinv : s.windower.Inv gap) :
    ¬ InconsistentSessions clock sorter gap s call := by
  rintro ⟨watermark, t, w, -, -, hm, hall⟩
  obtain ⟨q, hq, hne⟩ := exists_tryInsert hgap hinv hm
  exact hne (hall q hq)

/-- What is left to panic on is the clock, and dates that are out of range. -/
theorem onAwake_eq_none {clock : ResumableClock V CS C} {logic : ResumableLogic V R LS L}
    {s : WindowStatefulLogic C SessionWindower L} {call : Call V} (hgap : 0 < gap)
    (hmicro : 1000 ∣ gap) (h : InStep (resumableSessionWindower sorter gap) (Inv gap) s)
    (hnone : onAwake clock.toClock (sessionWindower sorter gap) logic.toWindowLogic s call = none) :
    clock.watermark s.clock call.now call.nextValue = none ∨
      ∃ watermark t, Inserts clock.toClock s call watermark t ∧ ¬ t < watermark ∧ ¬ Fits t gap := by
  have hb := bookkeeper sorter hgap hmicro
  rcases onAwake_panics hnone with
    hw | ⟨watermark, t, hitem, hins⟩ | hmeta | ⟨watermark, mid, hacc, hd⟩ | hlogic
  · exact .inl hw
  · replace hins : s.windower.insert sorter gap watermark t = none := hins
    refine .inr ⟨watermark, t, hitem, fun ht => ?_, fun hfit => ?_⟩
    · rw [insert, if_pos ht] at hins
      cases hins
    · by_cases ht : t < watermark
      · rw [insert, if_pos ht] at hins
        cases hins
      · obtain ⟨pre, old, post, m, -, hinsert⟩ := insert_spec sorter hgap h.inv ht hfit
        rw [hins] at hinsert
        cases hinsert
  · exact absurd hmeta (h.metadataFound hb)
  · obtain ⟨c, es, -, hacc⟩ := hacc
    have hc : InStep (resumableSessionWindower sorter gap) (Inv gap) { s with clock := c } :=
      ⟨h.inv, h.logics⟩
    replace hd : mid.windower.drainClosed gap watermark = none := hd
    rw [drainClosed_eq (hc.accept hb hacc).inv] at hd
    cases hd
  · exact absurd hlogic (h.logicForClosed hb)

/-- Sessions are sorted and apart, and their keys are distinct and have been issued. -/
structure InOrder (gap : Int) (w : SessionWindower) : Prop where
  sorted : w.sessions.Pairwise fun a b => a.start < b.start
  apart : w.sessions.Pairwise fun a b => a.latestEventTime + gap ≤ b.start
  nodup : (w.sessions.map Session.key).Nodup
  le_maxKey : ∀ s ∈ w.sessions, s.key ≤ w.maxKey

theorem Inv.inOrder (hgap : 0 < gap) (hinv : w.Inv gap) : w.InOrder gap :=
  ⟨hinv.start_lt hgap, hinv.before, hinv.nodup, hinv.le_maxKey⟩

end SessionWindower

/-! ### Sliding windows -/

namespace SlidingWindower

variable {cfg : SlidingConfig} {ct ct' : SlidingWindower}

theorem hasWindow_iff {k : Int} : (slidingWindower cfg).HasWindow ct k ↔ k ∈ ct := by
  show (ct[k]?.map fun bounds : Int × Int => WindowMetadata.mk bounds.1 bounds.2).isSome = true ↔ _
  rw [Option.isSome_map, TreeMap.mem_iff_isSome_getElem?]

/-- The boundaries of windows have whole microseconds. -/
theorem dvd_openTimeOf (hcfg : cfg.InMicroseconds) (k : Int) : 1000 ∣ openTimeOf cfg k :=
  Int.dvd_add hcfg.alignTo_dvd (Dvd.dvd.mul_right hcfg.offset_dvd _)

theorem dvd_closeTimeOf (hcfg : cfg.InMicroseconds) (k : Int) : 1000 ∣ closeTimeOf cfg k :=
  Int.dvd_add (dvd_openTimeOf hcfg k) hcfg.length_dvd

/-- **Boundaries are what they were when the windower is built again.** -/
theorem Stored.rebuilt (hcfg : cfg.InMicroseconds) (h : Stored cfg ct) :
    Stored cfg ((ct.map fun _ bounds => (bounds.1 / 1000, bounds.2 / 1000)).map
      fun _ bounds => (extractUtc bounds.1, extractUtc bounds.2)) := by
  intro k bounds hk
  rw [TreeMap.getElem?_map, TreeMap.getElem?_map, Option.map_map] at hk
  obtain ⟨bounds', hb, rfl⟩ := Option.map_eq_some_iff.mp hk
  obtain rfl := h k bounds' hb
  show (extractUtc (openTimeOf cfg k / 1000), extractUtc (closeTimeOf cfg k / 1000)) = _
  rw [extractUtc_div (dvd_openTimeOf hcfg k), extractUtc_div (dvd_closeTimeOf hcfg k)]

/-- **The sliding windower keeps its books.** -/
theorem bookkeeper (hcfg : cfg.InMicroseconds) :
    Bookkeeper (resumableSlidingWindower cfg) (Stored cfg) where
  build := by
    refine ⟨fun k bounds hk => ?_, fun k hk => ?_⟩
    · simp [resumableSlidingWindower, slidingWindower] at hk
    · have hin : k ∈ (∅ : SlidingWindower) := hasWindow_iff.mp hk
      simp at hin
  insert := by
    intro ct ct' watermark itemTime results hst hins
    cases hi : intersects cfg itemTime with
    | none =>
      have hnone : ct.insert cfg watermark itemTime = none := insert_eq_none hi
      rw [show ct.insert cfg watermark itemTime = some (ct', results) from hins] at hnone
      cases hnone
    | some ws =>
      obtain ⟨ct₁, hins₁, hst₁, hmem⟩ := insert_eq hst hi watermark
      rw [show ct.insert cfg watermark itemTime = some (ct', results) from hins] at hins₁
      cases hins₁
      refine ⟨hst₁, fun k hk => ?_, fun k hk => ?_⟩
      · exact hasWindow_iff.mpr ((hmem k).mpr (.inr hk))
      · exact ((hmem k).mp (hasWindow_iff.mp hk)).imp_left hasWindow_iff.mpr
  drainClosed := by
    intro ct ct' watermark closed hst hd
    cases hd
    have hbounded : Bounded cfg ct := fun k bounds hb => by rw [hst k bounds hb]
    refine ⟨hst.drainClosed watermark, (drainClosed_spec hbounded watermark).2.1, fun c hc => ?_,
      fun k hk => ?_⟩
    · exact hasWindow_iff.mpr ((mem_drainClosed_snd hst).mp (List.mem_map_of_mem hc)).1
    · obtain ⟨hin, hopen⟩ := (mem_drainClosed_fst hst).mp (hasWindow_iff.mp hk)
      exact ⟨hasWindow_iff.mpr hin, fun hc => hopen ((mem_drainClosed_snd hst).mp hc).2⟩
  rebuild := by
    intro ct state hst hs
    obtain ⟨-, hs⟩ := Option.ite_none_right_eq_some.mp hs
    cases hs
    refine ⟨hst.rebuilt hcfg, fun k hk => ?_⟩
    have hin : k ∈ (ct.map fun _ bounds => (bounds.1 / 1000, bounds.2 / 1000)).map
        fun _ bounds => (extractUtc bounds.1, extractUtc bounds.2) := hasWindow_iff.mp hk
    rw [TreeMap.mem_map, TreeMap.mem_map] at hin
    exact hasWindow_iff.mpr hin

/-- "SlidingWindower is not generating consistent boundaries": a window of the item is tracked with
other boundaries. -/
def InconsistentBoundaries (clock : Clock V C) (cfg : SlidingConfig)
    (s : WindowStatefulLogic C SlidingWindower L) (call : Call V) : Prop :=
  ∃ watermark itemTime pre w post ct results, Inserts clock s call watermark itemTime ∧
    intersects cfg itemTime = some (pre ++ w :: post) ∧
    Runs.run (insertIntersecting watermark) s.windower pre = some (ct, results) ∧
    ¬ w.2.2 < watermark ∧ insertWindow ct w.1 w.2.1 w.2.2 = none

/-- The boundaries that are tracked are those of the item's windows. -/
theorem consistentBoundaries {clock : Clock V C} {s : WindowStatefulLogic C SlidingWindower L}
    {call : Call V} (hst : Stored cfg s.windower) : ¬ InconsistentBoundaries clock cfg s call := by
  rintro ⟨watermark, itemTime, pre, w, post, ct, results, -, hi, hr, hopen, hnone⟩
  have hpre : ∀ v ∈ pre, v.2 = (openTimeOf cfg v.1, closeTimeOf cfg v.1) := fun v hv =>
    bounds_of_mem_intersects hi (List.mem_append_left _ hv)
  have hw : w.2 = (openTimeOf cfg w.1, closeTimeOf cfg w.1) :=
    bounds_of_mem_intersects hi (by simp)
  obtain ⟨ct', hr', hst', -⟩ := run_insertIntersecting watermark pre hst hpre
  rw [hr] at hr'
  cases hr'
  unfold insertWindow at hnone
  cases hk : ct[w.1]? with
  | none =>
    rw [hk] at hnone
    cases hnone
  | some bounds =>
    rw [hk, hst' w.1 bounds hk, hw] at hnone
    simp at hnone

/-- What is left to panic on is the clock, and dates that are out of range. -/
theorem onAwake_eq_none {clock : ResumableClock V CS C} {logic : ResumableLogic V R LS L}
    {s : WindowStatefulLogic C SlidingWindower L} {call : Call V} (hcfg : cfg.InMicroseconds)
    (h : InStep (resumableSlidingWindower cfg) (Stored cfg) s)
    (hnone : onAwake clock.toClock (slidingWindower cfg) logic.toWindowLogic s call = none) :
    clock.watermark s.clock call.now call.nextValue = none ∨
      ∃ watermark itemTime, Inserts clock.toClock s call watermark itemTime ∧
        intersects cfg itemTime = none := by
  rcases onAwake_panics hnone with
    hw | ⟨watermark, itemTime, hitem, hins⟩ | hmeta | ⟨watermark, mid, -, hd⟩ | hlogic
  · exact .inl hw
  · refine .inr ⟨watermark, itemTime, hitem, ?_⟩
    cases hi : intersects cfg itemTime with
    | none => rfl
    | some ws =>
      obtain ⟨ct, hsome, -⟩ := insert_eq h.inv hi watermark
      rw [show SlidingWindower.insert cfg s.windower watermark itemTime = none from hins] at hsome
      cases hsome
  · exact absurd hmeta (h.metadataFound (bookkeeper hcfg))
  · cases hd
  · exact absurd hlogic (h.logicForClosed (bookkeeper hcfg))

end SlidingWindower

/-- **The windowing logic does not panic on its own bookkeeping**, with any clock and window logic,
in any run of calls and rebuilds from its snapshot.  Gaps and configurations are made from Python's
timedeltas and datetimes. -/
theorem windowing_keeps_books (clock : ResumableClock V CS C) (logic : ResumableLogic V R LS L) :
    (∀ (sorter : UnstableSort) (gap : Int), GapAccepted gap → 1000 ∣ gap →
      ∀ (turns : List (Turn V)) (s : WindowStatefulLogic C SessionWindower L)
        (events : List (WindowEvent V R)),
        Runs.run (turn clock (resumableSessionWindower sorter gap) logic)
          (WindowStatefulLogic.build clock.toClock (sessionWindower sorter gap)) turns =
            some (s, events) →
        (∀ q ∈ s.windower.sessions, q.key ∈ s.currentState) ∧ s.windower.InOrder gap ∧
        ∀ call : Call V,
          ¬ NoMetadataFound clock.toClock (sessionWindower sorter gap) s call ∧
          ¬ NoLogicForClosed clock.toClock (sessionWindower sorter gap) logic.toWindowLogic s call ∧
          ¬ SessionWindower.InconsistentSessions clock.toClock sorter gap s call ∧
          (onAwake clock.toClock (sessionWindower sorter gap) logic.toWindowLogic s call = none →
            clock.watermark s.clock call.now call.nextValue = none ∨
            ∃ watermark t, Inserts clock.toClock s call watermark t ∧ ¬ t < watermark ∧
              ¬ Fits t gap)) ∧
    ∀ cfg : SlidingConfig, cfg.InMicroseconds →
      ∀ (turns : List (Turn V)) (s : WindowStatefulLogic C SlidingWindower L)
        (events : List (WindowEvent V R)),
        Runs.run (turn clock (resumableSlidingWindower cfg) logic)
          (WindowStatefulLogic.build clock.toClock (slidingWindower cfg)) turns =
            some (s, events) →
        (∀ k ∈ s.windower, k ∈ s.currentState) ∧
        ∀ call : Call V,
          ¬ NoMetadataFound clock.toClock (slidingWindower cfg) s call ∧
          ¬ NoLogicForClosed clock.toClock (slidingWindower cfg) logic.toWindowLogic s call ∧
          ¬ SlidingWindower.InconsistentBoundaries clock.toClock cfg s call ∧
          (onAwake clock.toClock (slidingWindower cfg) logic.toWindowLogic s call = none →
            clock.watermark s.clock call.now call.nextValue = none ∨
            ∃ watermark itemTime, Inserts clock.toClock s call watermark itemTime ∧
              SlidingWindower.intersects cfg itemTime = none) := by
  constructor
  · intro sorter gap hgap hmicro turns s events hr
    have hpos : 0 < gap := pos_of_numMilliseconds_pos hgap
    have hb := SessionWindower.bookkeeper sorter hpos hmicro
    have hs := hb.run hr
    refine ⟨fun q hq => hs.logics q.key (SessionWindower.hasWindow_iff.mpr ⟨q, hq, rfl⟩),
      hs.inv.inOrder hpos, fun call => ⟨hs.metadataFound hb, hs.logicForClosed hb, ?_, fun hnone => ?_⟩⟩
    · exact SessionWindower.consistentSessions hpos hs.inv
    · exact SessionWindower.onAwake_eq_none hpos hmicro hs hnone
  · intro cfg hcfg turns s events hr
    have hb := SlidingWindower.bookkeeper hcfg
    have hs := hb.run hr
    refine ⟨fun k hk => hs.logics k (SlidingWindower.hasWindow_iff.mpr hk),
      fun call => ⟨hs.metadataFound hb, hs.logicForClosed hb, ?_, fun hnone => ?_⟩⟩
    · exact SlidingWindower.consistentBoundaries hs.inv
    · exact SlidingWindower.onAwake_eq_none hcfg hs hnone

/-- The sum of a window's values, which is its own snapshot. -/
def sumWindow : ResumableLogic Int Int (Option Int) (Option Int) where
  toWindowLogic := foldWindowLogic 0 (· + ·)
  resume := id
  snapshot := id

/-- The value `n` arrives, and is read, `n` seconds after the epoch. -/
def arrivesAt (n : Int) : Turn Int :=
  .awake ⟨n * 1000000000, n * 1000000000, .ready (some n)⟩

/-- Items at 0, 5 and 30 seconds, with a rebuild after each of the first two. -/
def threeItems : List (Turn Int) :=
  [arrivesAt 0, .rebuild, arrivesAt 5, .rebuild, arrivesAt 30]

theorem windowing_keeps_books_threeItems :
    (∃ s events, Runs.run (turn (resumableSystemClock Int)
        (resumableSessionWindower insertionSorter 10000000000) sumWindow)
        (WindowStatefulLogic.build (systemClock Int) (sessionWindower insertionSorter 10000000000))
        threeItems = some (s, events) ∧
      s.windower.sessions = [⟨3, 30000000000, 30000000000⟩] ∧
      (∀ q ∈ s.windower.sessions, q.key ∈ s.currentState) ∧ s.windower.InOrder 10000000000) ∧
    ∃ s events, Runs.run (turn (resumableEventClock (fun n : Int => n * 1000000000) 0)
        (resumableSlidingWindower (.tumbling 10000000000 0)) sumWindow)
        (WindowStatefulLogic.build (eventClock (fun n : Int => n * 1000000000) 0)
          (slidingWindower (.tumbling 10000000000 0))) threeItems = some (s, events) ∧
      s.windower.keys = [3] ∧ ∀ k ∈ s.windower, k ∈ s.currentState := by
  constructor
  · have hrun : (Runs.run (turn (resumableSystemClock Int)
        (resumableSessionWindower insertionSorter 10000000000) sumWindow)
        (WindowStatefulLogic.build (systemClock Int) (sessionWindower insertionSorter 10000000000))
        threeItems).map (fun p => p.1.windower.sessions) =
          some [⟨3, 30000000000, 30000000000⟩] := by
      decide +kernel
    obtain ⟨⟨s, events⟩, hr, hsessions⟩ := Option.map_eq_some_iff.mp hrun
    obtain ⟨hlogics, horder, -⟩ := (windowing_keeps_books (resumableSystemClock Int) sumWindow).1
      insertionSorter 10000000000 (by decide) (by decide) threeItems s events hr
    exact ⟨s, events, hr, hsessions, hlogics, horder⟩
  · have hrun : (Runs.run (turn (resumableEventClock (fun n : Int => n * 1000000000) 0)
        (resumableSlidingWindower (.tumbling 10000000000 0)) sumWindow)
        (WindowStatefulLogic.build (eventClock (fun n : Int => n * 1000000000) 0)
          (slidingWindower (.tumbling 10000000000 0))) threeItems).map (fun p => p.1.windower.keys) =
          some [3] := by
      decide +kernel
    obtain ⟨⟨s, events⟩, hr, hkeys⟩ := Option.map_eq_some_iff.mp hrun
    obtain ⟨hlogics, -⟩ := (windowing_keeps_books
      (resumableEventClock (fun n : Int => n * 1000000000) 0) sumWindow).2 (.tumbling 10000000000 0)
      ⟨by decide, by decide, by decide⟩ threeItems s events hr
    exact ⟨s, events, hr, hkeys, hlogics⟩

end Bytewax
