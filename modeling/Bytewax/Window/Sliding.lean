import Bytewax.Lib.MapM
import Bytewax.Lib.Runs
import Bytewax.Window.Windower
import Mathlib.Order.Compare
import Mathlib.Data.Int.Order.Basic
import Std.Data.TreeMap

/-!
# Bytewax.Window.Sliding — sliding and tumbling windows

Windows of a fixed length start every `offset` from `align_to` on.  Window `k` is found by integer
division of whole milliseconds; its open time is computed from `k` as an `i32`, which wraps.  The
windower only keeps the windows that values went into and that have not closed.
-/

namespace Bytewax

open Std (TreeMap)

/-- `i64 as i32`. -/
def asI32 (i : Int) : Int := i.bmod 4294967296

/-- `Integer::div_ceil`. -/
def divCeil (a b : Int) : Int := -((-a).fdiv b)

/-- The configuration fields of `SlidingWindower`. -/
structure SlidingConfig where
  length : Int
  offset : Int
  alignTo : Int
  deriving DecidableEq, Repr

/-- `TumblingWindow::build`. -/
def SlidingConfig.tumbling (length alignTo : Int) : SlidingConfig := ⟨length, length, alignTo⟩

/-- The `close_times` of `SlidingWindower`: the open and the close time of each window. -/
abbrev SlidingWindower := TreeMap Int (Int × Int)

namespace SlidingWindower

variable (cfg : SlidingConfig)

/-- The closure in `intersects`: window number `windowIdx`, unless `time` is before it opens. -/
def window (time windowIdx : Int) : Option (Option (Int × Int × Int)) := do
  let openTime ← addDuration cfg.alignTo (cfg.offset * asI32 windowIdx)
  if time < openTime then
    return none
  else
    let closeTime ← addDuration openTime cfg.length
    return some (windowIdx, openTime, closeTime)

/-- `SlidingWindower::intersects`; a division by zero panics. -/
def intersects (time : Int) : Option (List (Int × Int × Int)) := do
  let closeOfFirstWindow ← addDuration cfg.alignTo cfg.length
  let sinceCloseOfFirstWindow := time - closeOfFirstWindow
  if numMilliseconds cfg.offset = 0 then
    none
  else
    let firstWindowIdx :=
      (numMilliseconds sinceCloseOfFirstWindow).fdiv (numMilliseconds cfg.offset) + 1
    let numWindows := divCeil (numMilliseconds cfg.length) (numMilliseconds cfg.offset)
    let windows ← (List.range numWindows.toNat).mapM fun (i : Nat) =>
      window cfg time (firstWindowIdx + i)
    return windows.filterMap id

/-- `SlidingWindower::insert_window`, with its assertion. -/
def insertWindow (closeTimes : SlidingWindower) (key openTime closeTime : Int) :
    Option SlidingWindower :=
  match closeTimes[key]? with
  | some bounds => if closeTime = bounds.2 ∧ bounds.1 = openTime then some closeTimes else none
  | none => some (closeTimes.insert key (openTime, closeTime))

/-- The closure in `insert`. -/
def insertIntersecting (watermark : Int) (closeTimes : SlidingWindower) :
    Int × Int × Int → Option (SlidingWindower × List (Except InsertError Int))
  | (key, openTime, closeTime) =>
    if closeTime < watermark then
      some (closeTimes, [.error (.late key)])
    else do
      let closeTimes ← insertWindow closeTimes key openTime closeTime
      return (closeTimes, [.ok key])

/-- `SlidingWindower::insert`. -/
def insert (closeTimes : SlidingWindower) (watermark itemTime : Int) :
    Option (SlidingWindower × List (Except InsertError Int)) := do
  let windows ← intersects cfg itemTime
  Runs.run (insertIntersecting watermark) closeTimes windows

/-- `SlidingWindower::get_metadata`. -/
def getMetadata (closeTimes : SlidingWindower) (key : Int) : Option WindowMetadata :=
  closeTimes[key]?.map fun bounds => ⟨bounds.1, bounds.2⟩

/-- `SlidingWindower::drain_closed`. -/
def drainClosed (closeTimes : SlidingWindower) (watermark : Int) :
    SlidingWindower × List (Int × WindowMetadata) :=
  (closeTimes.filter fun _ bounds => ¬ bounds.2 < watermark,
    (closeTimes.toList.filter fun entry => entry.2.2 < watermark).map
      fun entry => (entry.1, ⟨entry.2.1, entry.2.2⟩))

/-- `SlidingWindower::next_close`. -/
def nextClose (closeTimes : SlidingWindower) : Option Int :=
  (closeTimes.values.map Prod.snd).min?

/-! ### Boundaries -/

/-- The close time of window `key`. -/
def closeTimeOf (key : Int) : Int := cfg.alignTo + cfg.offset * asI32 key + cfg.length

/-- The windower has for each window the close time that belongs to its key. -/
def Bounded (closeTimes : SlidingWindower) : Prop :=
  ∀ k bounds, closeTimes[k]? = some bounds → bounds.2 = closeTimeOf cfg k

variable {cfg}

theorem Bounded.empty : Bounded cfg ∅ := by
  intro k bounds h
  simp at h

theorem window_eq_some {time windowIdx : Int} {w : Int × Int × Int}
    (h : window cfg time windowIdx = some (some w)) :
    w.1 = windowIdx ∧ w.2.2 = closeTimeOf cfg windowIdx := by
  obtain ⟨openTime, ho, h⟩ := Option.bind_eq_some_iff.mp h
  obtain ⟨-, rfl⟩ := addDuration_eq_some.mp ho
  by_cases ht : time < cfg.alignTo + cfg.offset * asI32 windowIdx
  · simp [ht] at h
  · rw [if_neg ht] at h
    obtain ⟨closeTime, hc, h⟩ := Option.bind_eq_some_iff.mp h
    obtain ⟨-, rfl⟩ := addDuration_eq_some.mp hc
    simp only [Option.pure_def, Option.some.injEq] at h
    subst h
    exact ⟨rfl, rfl⟩

/-- The close times that `intersects` yields belong to their keys. -/
theorem closeTime_of_mem_intersects {time : Int} {ws : List (Int × Int × Int)}
    (h : intersects cfg time = some ws) {w : Int × Int × Int} (hw : w ∈ ws) :
    w.2.2 = closeTimeOf cfg w.1 := by
  obtain ⟨close, -, h⟩ := Option.bind_eq_some_iff.mp h
  dsimp only at h
  split_ifs at h
  obtain ⟨windows, hwindows, h⟩ := Option.bind_eq_some_iff.mp h
  simp only [Option.pure_def, Option.some.injEq] at h
  subst h
  obtain ⟨ow, how, rfl⟩ := List.mem_filterMap.mp hw
  obtain ⟨i, -, hi⟩ := (MapM.mem_iff hwindows).mp how
  obtain ⟨h₁, h₂⟩ := window_eq_some hi
  rw [h₁, h₂]

theorem insertIntersecting_spec {ct ct' : SlidingWindower} {watermark key openTime : Int}
    {results : List (Except InsertError Int)} (hb : Bounded cfg ct)
    (h : insertIntersecting watermark ct (key, openTime, closeTimeOf cfg key) =
      some (ct', results)) :
    Bounded cfg ct' ∧ (∀ k, .ok k ∈ results → ¬ closeTimeOf cfg k < watermark) ∧
      ∀ k, k ∈ ct' → k ∈ ct ∨ ¬ closeTimeOf cfg k < watermark := by
  unfold insertIntersecting at h
  by_cases hlate : closeTimeOf cfg key < watermark
  · simp only [if_pos hlate, Option.some.injEq, Prod.mk.injEq] at h
    obtain ⟨rfl, rfl⟩ := h
    exact ⟨hb, by simp, fun k hk => .inl hk⟩
  · simp only [if_neg hlate, Option.bind_eq_bind, Option.bind_eq_some_iff, Option.pure_def,
      Option.some.injEq, Prod.mk.injEq] at h
    obtain ⟨ct₁, hw, rfl, rfl⟩ := h
    have hok : ∀ k, Except.ok k ∈ [(Except.ok key : Except InsertError Int)] →
        ¬ closeTimeOf cfg k < watermark := by
      intro k hk
      simp only [List.mem_singleton, Except.ok.injEq] at hk
      exact hk ▸ hlate
    unfold insertWindow at hw
    cases hk : ct[key]? with
    | some bounds =>
      simp only [hk] at hw
      split_ifs at hw
      simp only [Option.some.injEq] at hw
      exact ⟨hw ▸ hb, hok, fun k hk => .inl (hw ▸ hk)⟩
    | none =>
      simp only [hk, Option.some.injEq] at hw
      subst hw
      refine ⟨fun k bounds hget => ?_, hok, fun k hmem => ?_⟩
      · rw [TreeMap.getElem?_insert] at hget
        by_cases he : key = k
        · simp only [Std.LawfulEqCmp.compare_eq_iff_eq, he, if_true, Option.some.injEq] at hget
          exact hget ▸ rfl
        · simp only [Std.LawfulEqCmp.compare_eq_iff_eq, he, if_false] at hget
          exact hb k bounds hget
      · rw [TreeMap.mem_insert] at hmem
        rcases hmem with he | hmem
        · rw [Std.LawfulEqCmp.compare_eq_iff_eq] at he
          exact .inr (he ▸ hlate)
        · exact .inl hmem

/-- **What an insertion does**: it tracks further windows, all of which close no earlier than the
watermark, and those are the windows the item goes into. -/
theorem insert_spec {ct ct' : SlidingWindower} {watermark itemTime : Int}
    {results : List (Except InsertError Int)} (hb : Bounded cfg ct)
    (h : ct.insert cfg watermark itemTime = some (ct', results)) :
    Bounded cfg ct' ∧ (∀ k, .ok k ∈ results → ¬ closeTimeOf cfg k < watermark) ∧
      ∀ k, k ∈ ct' → k ∈ ct ∨ ¬ closeTimeOf cfg k < watermark := by
  obtain ⟨windows, hwindows, hrun⟩ := Option.bind_eq_some_iff.mp h
  have hclose : ∀ w ∈ windows, w.2.2 = closeTimeOf cfg w.1 := fun w hw =>
    closeTime_of_mem_intersects hwindows hw
  refine Runs.run_prefixes (P := fun _ ct' results => Bounded cfg ct' ∧
    (∀ k, .ok k ∈ results → ¬ closeTimeOf cfg k < watermark) ∧
    ∀ k, k ∈ ct' → k ∈ ct ∨ ¬ closeTimeOf cfg k < watermark) ?_
    ⟨hb, by simp, fun k hk => .inl hk⟩ hrun
  rintro pre ⟨key, openTime, closeTime⟩ post m o m₁ o₁ hsplit - ⟨hbm, hok, hmem⟩ hs
  obtain rfl : closeTime = closeTimeOf cfg key :=
    hclose (key, openTime, closeTime) (hsplit ▸ by simp)
  obtain ⟨hb₁, hok₁, hmem₁⟩ := insertIntersecting_spec hbm hs
  refine ⟨hb₁, fun k hk => ?_, fun k hk => ?_⟩
  · rcases List.mem_append.mp hk with hk | hk
    · exact hok k hk
    · exact hok₁ k hk
  · exact (hmem₁ k hk).elim (hmem k) .inr

/-- **What draining does**: the tracked windows that close before the watermark go, each once. -/
theorem drainClosed_spec {ct : SlidingWindower} (hb : Bounded cfg ct) (watermark : Int) :
    Bounded cfg (ct.drainClosed watermark).1 ∧
      (((ct.drainClosed watermark).2).map Prod.fst).Nodup ∧
      (∀ c ∈ (ct.drainClosed watermark).2, c.1 ∈ ct ∧ c.2.closeTime = closeTimeOf cfg c.1 ∧
        closeTimeOf cfg c.1 < watermark) ∧
      ∀ k ∈ (ct.drainClosed watermark).1, k ∈ ct ∧ ¬ closeTimeOf cfg k < watermark := by
  have hget : ∀ (k : Int) (bounds : Int × Int), (ct.drainClosed watermark).1[k]? = some bounds →
      ct[k]? = some bounds ∧ ¬ bounds.2 < watermark := by
    intro k bounds h
    rw [drainClosed, TreeMap.getElem?_filter', Option.filter_eq_some_iff] at h
    simpa using h
  refine ⟨fun k bounds h => hb k bounds (hget k bounds h).1, ?_, fun c hc => ?_, fun k hk => ?_⟩
  · rw [drainClosed, List.map_map]
    have hnd : (ct.toList.map Prod.fst).Nodup := by
      rw [TreeMap.map_fst_toList_eq_keys]
      exact TreeMap.nodup_keys
    exact hnd.sublist (List.filter_sublist.map Prod.fst)
  · obtain ⟨entry, he, rfl⟩ := List.mem_map.mp hc
    obtain ⟨hmem, hlt⟩ := List.mem_filter.mp he
    rw [TreeMap.mem_toList_iff_getElem?_eq_some] at hmem
    have hclose := hb _ _ hmem
    refine ⟨?_, hclose, ?_⟩
    · rw [TreeMap.mem_iff_isSome_getElem?, hmem]
      rfl
    · have := of_decide_eq_true hlt
      dsimp only
      omega
  · rw [TreeMap.mem_iff_isSome_getElem?] at hk
    obtain ⟨bounds, hbounds⟩ := Option.isSome_iff_exists.mp hk
    obtain ⟨hct, hopen⟩ := hget k bounds hbounds
    refine ⟨?_, hb k bounds hct ▸ hopen⟩
    rw [TreeMap.mem_iff_isSome_getElem?, hct]
    rfl

end SlidingWindower

/-- The sliding windower of a configuration. -/
def slidingWindower (cfg : SlidingConfig) : Windower SlidingWindower where
  build := ∅
  insert closeTimes := closeTimes.insert cfg
  getMetadata := SlidingWindower.getMetadata
  drainClosed closeTimes watermark := some (closeTimes.drainClosed watermark)
  isEmpty closeTimes := closeTimes.isEmpty
  nextClose closeTimes := some closeTimes.nextClose

end Bytewax
