import Bytewax.Window.SlidingExact

/-!
# Bytewax.Window.SlidingKeys — window keys and boundaries

The boundaries of a window are a function of its 64-bit key as long as the narrowing of the index
to an `i32` leaves it as it is.  Then the sliding windower keeps and reports the boundaries of its
keys, and an item that is not behind the watermark is not late.
-/

namespace Bytewax

open Std (TreeMap)

namespace SlidingWindower

variable {cfg : SlidingConfig} {ct ct' : SlidingWindower} {watermark time : Int}

/-- The open and the close time are those of window `k`. -/
def IsWindow (cfg : SlidingConfig) (k : Int) (bounds : Int × Int) : Prop :=
  bounds.1 = cfg.alignTo + k * cfg.offset ∧ bounds.2 = bounds.1 + cfg.length

/-- Distinct windows have distinct boundaries. -/
theorem IsWindow.inj (hcfg : WholeMillis cfg) {k k' : Int} {bounds : Int × Int}
    (h : IsWindow cfg k bounds) (h' : IsWindow cfg k' bounds) : k = k' := by
  have he : k * cfg.offset = k' * cfg.offset := by
    have h₁ := h.1
    have h₂ := h'.1
    omega
  exact Int.eq_of_mul_eq_mul_right hcfg.offset_pos.ne' he

theorem isWindow_iff (hcfg : WholeMillis cfg) {k : Int} :
    IsWindow cfg k (cfg.alignTo + cfg.offset * asI32 k, closeTimeOf cfg k) ↔ FitsI32 k := by
  rw [← asI32_eq_iff]
  constructor
  · rintro ⟨h, -⟩
    have he : asI32 k * cfg.offset = k * cfg.offset := by
      rw [mul_comm]
      exact add_left_cancel h
    exact Int.eq_of_mul_eq_mul_right hcfg.offset_pos.ne' he
  · intro h
    unfold IsWindow closeTimeOf
    rw [h, mul_comm]
    exact ⟨rfl, rfl⟩

/-! ### What an insertion does -/

/-- What happens to one window that an item goes into: the item is late for it, or the window is
tracked from then on. -/
theorem insertIntersecting_cases {w : Int × Int × Int} {rs : List (Except InsertError Int)}
    (h : insertIntersecting watermark ct w = some (ct', rs)) :
    (w.2.2 < watermark ∧ ct' = ct ∧ rs = [.error (.late w.1)]) ∨
      (¬ w.2.2 < watermark ∧ rs = [.ok w.1] ∧
        ((ct[w.1]? = some w.2 ∧ ct' = ct) ∨
          (ct[w.1]? = none ∧ ct' = TreeMap.insert ct w.1 w.2))) := by
  obtain ⟨k, o, c⟩ := w
  by_cases hlate : c < watermark
  · simp only [insertIntersecting, if_pos hlate, Option.some.injEq, Prod.mk.injEq] at h
    exact .inl ⟨hlate, h.1.symm, h.2.symm⟩
  · right
    simp only [insertIntersecting, if_neg hlate] at h
    obtain ⟨ct₁, hw, h⟩ := Option.bind_eq_some_iff.mp h
    cases h
    refine ⟨hlate, rfl, ?_⟩
    unfold insertWindow at hw
    cases hk : ct[k]? with
    | some bounds =>
      rw [hk] at hw
      replace hw : (if c = bounds.2 ∧ bounds.1 = o then some ct else none) = some ct' := hw
      by_cases hb : c = bounds.2 ∧ bounds.1 = o
      · rw [if_pos hb] at hw
        exact .inl ⟨by rw [hb.1, ← hb.2], (Option.some.inj hw).symm⟩
      · rw [if_neg hb] at hw
        cases hw
    | none =>
      rw [hk] at hw
      exact .inr ⟨rfl, (Option.some.inj hw).symm⟩

/-- After an insertion the windower tracks what it did and windows that the item is in. -/
theorem insert_entries {rs : List (Except InsertError Int)}
    (h : ct.insert cfg watermark time = some (ct', rs)) :
    ∃ ws, intersects cfg time = some ws ∧
      (∀ (k : Int) bounds, ct'[k]? = some bounds → ct[k]? = some bounds ∨ (k, bounds) ∈ ws) ∧
      ∀ k, .error (.late k) ∈ rs → ∃ bounds, (k, bounds) ∈ ws ∧ bounds.2 < watermark := by
  obtain ⟨ws, hws, hrun⟩ := Option.bind_eq_some_iff.mp h
  refine ⟨ws, hws, ?_⟩
  refine Runs.run_prefixes (P := fun _ ct' rs =>
    (∀ (k : Int) bounds, ct'[k]? = some bounds → ct[k]? = some bounds ∨ (k, bounds) ∈ ws) ∧
    ∀ k, .error (.late k) ∈ rs → ∃ bounds, (k, bounds) ∈ ws ∧ bounds.2 < watermark) ?_
    ⟨fun _ _ hk => .inl hk, nofun⟩ hrun
  rintro pre w post m o m₁ o₁ hsplit - ⟨hentries, hlate⟩ hs
  have hw : w ∈ ws := by rw [hsplit]; simp
  rcases insertIntersecting_cases hs with ⟨hlt, rfl, rfl⟩ | ⟨-, rfl, hct⟩
  · refine ⟨hentries, fun k hk => ?_⟩
    rcases List.mem_append.mp hk with hk | hk
    · exact hlate k hk
    · obtain rfl : k = w.1 := by simpa using hk
      exact ⟨w.2, hw, hlt⟩
  · refine ⟨fun k bounds hk => ?_, fun k hk => ?_⟩
    · rcases hct with ⟨-, rfl⟩ | ⟨-, rfl⟩
      · exact hentries k bounds hk
      · rw [TreeMap.getElem?_insert] at hk
        by_cases he : w.1 = k
        · subst he
          rw [if_pos (by simp)] at hk
          cases hk
          exact .inr hw
        · rw [if_neg (by simpa using he)] at hk
          exact hentries k bounds hk
    · rcases List.mem_append.mp hk with hk | hk
      · exact hlate k hk
      · simp at hk

theorem drainClosed_entries {k : Int} {bounds : Int × Int}
    (h : (ct.drainClosed watermark).1[k]? = some bounds) : ct[k]? = some bounds := by
  rw [drainClosed, TreeMap.getElem?_filter', Option.filter_eq_some_iff] at h
  exact h.1

theorem drainClosed_closed {c : Int × WindowMetadata} (h : c ∈ (ct.drainClosed watermark).2) :
    ct[c.1]? = some (c.2.openTime, c.2.closeTime) := by
  obtain ⟨entry, he, rfl⟩ := List.mem_map.mp h
  obtain ⟨hmem, -⟩ := List.mem_filter.mp he
  exact TreeMap.mem_toList_iff_getElem?_eq_some.mp hmem

/-! ### Runs -/

/-- The boundaries that a windower stores and reports are those of their keys. -/
structure StoresKeys (cfg : SlidingConfig) (ct : SlidingWindower) : Prop where
  stored : ∀ (k : Int) bounds, ct[k]? = some bounds → IsWindow cfg k bounds
  distinct : ∀ (k k' : Int) bounds, ct[k]? = some bounds → ct[k']? = some bounds → k = k'
  reported : ∀ k m, ct.getMetadata k = some m → IsWindow cfg k (m.openTime, m.closeTime)

/-- The boundaries that a call handles are those of their keys, and an item that is not behind
the watermark is not late. -/
structure HandlesKeys (cfg : SlidingConfig) (ct : SlidingWindower) (c : WindowerCall) : Prop where
  stores : StoresKeys cfg ct
  yielded : ∀ watermark time, c = .insert watermark time →
    ∀ ws, intersects cfg time = some ws → ∀ w ∈ ws, IsWindow cfg w.1 w.2
  distinct : ∀ watermark time, c = .insert watermark time →
    ∀ ws, intersects cfg time = some ws → ∀ w ∈ ws, ∀ w' ∈ ws, w.2 = w'.2 → w.1 = w'.1
  onTime : ∀ watermark time, c = .insert watermark time → watermark ≤ time →
    ∀ r, ct.insert cfg watermark time = some r → ∀ k, .error (.late k) ∉ r.2
  closed : ∀ watermark, c = .drainClosed watermark →
    ∀ x ∈ (ct.drainClosed watermark).2, IsWindow cfg x.1 (x.2.openTime, x.2.closeTime)

/-- The windows of an item that are not after it by their narrowed indices have indices that the
narrowing leaves as they are. -/
def IndicesFit (cfg : SlidingConfig) (time : Int) : Prop :=
  ∀ k ∈ windowIdxs cfg time, cfg.alignTo + cfg.offset * asI32 k ≤ time → FitsI32 k

instance (time : Int) : Decidable (IndicesFit cfg time) :=
  inferInstanceAs (Decidable (∀ k ∈ windowIdxs cfg time, _))

theorem yields_iff (hcfg : WholeMillis cfg) {ws : List (Int × Int × Int)}
    (h : intersects cfg time = some ws) :
    (∀ w ∈ ws, IsWindow cfg w.1 w.2) ↔ IndicesFit cfg time := by
  constructor
  · intro hall k hk hle
    have hmem : (k, cfg.alignTo + cfg.offset * asI32 k, closeTimeOf cfg k) ∈ ws :=
      (mem_intersects h).mpr ⟨hk, hle, rfl⟩
    exact (isWindow_iff hcfg).mp (hall _ hmem)
  · intro hfit w hw
    obtain ⟨hk, hle, he⟩ := (mem_intersects h).mp hw
    rw [he]
    exact (isWindow_iff hcfg).mpr (hfit w.1 hk hle)

theorem storesKeys_of_stored (hcfg : WholeMillis cfg)
    (h : ∀ (k : Int) bounds, ct[k]? = some bounds → IsWindow cfg k bounds) : StoresKeys cfg ct where
  stored := h
  distinct k k' bounds hk hk' := (h k bounds hk).inj hcfg (h k' bounds hk')
  reported k m hm := by
    obtain ⟨bounds, hb, rfl⟩ := Option.map_eq_some_iff.mp hm
    exact h k bounds hb

/-- The windows that an item goes into close after it. -/
theorem lt_close_of_mem (hcfg : WholeMillis cfg) {ws : List (Int × Int × Int)}
    (h : intersects cfg time = some ws) {w : Int × Int × Int} (hw : w ∈ ws)
    (hwin : IsWindow cfg w.1 w.2) : time < w.2.2 := by
  obtain ⟨hk, -⟩ := (mem_intersects h).mp hw
  have hfirst : firstOpen cfg time ≤ w.1 := by
    rw [mem_windowIdxs, firstWindowIdx_eq hcfg] at hk
    split_ifs at hk <;> omega
  have := (holds_iff hcfg).mpr hfirst
  rw [hwin.2, hwin.1]
  exact this

theorem handlesKeys (hcfg : WholeMillis cfg) {c : WindowerCall} (hst : StoresKeys cfg ct)
    (hfit : ∀ watermark time, c = .insert watermark time → IndicesFit cfg time) :
    HandlesKeys cfg ct c where
  stores := hst
  yielded watermark time hc ws hws := (yields_iff hcfg hws).mpr (hfit watermark time hc)
  distinct watermark time hc ws hws w hw w' hw' he := by
    have hall := (yields_iff hcfg hws).mpr (hfit watermark time hc)
    exact (hall w hw).inj hcfg (he ▸ hall w' hw')
  onTime watermark time hc hle r hr k hlate := by
    obtain ⟨ws, hws, -, hl⟩ := insert_entries hr
    obtain ⟨bounds, hmem, hlt⟩ := hl k hlate
    have hclose : time < bounds.2 := lt_close_of_mem hcfg hws hmem
      ((yields_iff hcfg hws).mpr (hfit watermark time hc) _ hmem)
    omega
  closed watermark _ x hx := hst.stored x.1 _ (drainClosed_closed hx)

theorem StoresKeys.call (hcfg : WholeMillis cfg) {c : WindowerCall} {o : List WindowerResult}
    (hst : StoresKeys cfg ct)
    (hfit : ∀ watermark time, c = .insert watermark time → IndicesFit cfg time)
    (h : (slidingWindower cfg).call ct c = some (ct', o)) : StoresKeys cfg ct' := by
  refine storesKeys_of_stored hcfg fun k bounds hk => ?_
  cases c with
  | insert watermark time =>
    obtain ⟨r, hr, he⟩ := Option.map_eq_some_iff.mp h
    obtain ⟨rfl, -⟩ := Prod.mk.inj he
    obtain ⟨ws, hws, hentries, -⟩ := insert_entries hr
    rcases hentries k bounds hk with hk | hk
    · exact hst.stored k bounds hk
    · exact (yields_iff hcfg hws).mpr (hfit watermark time rfl) _ hk
  | drainClosed watermark =>
    have he : (ct.drainClosed watermark).1 = ct' := congrArg Prod.fst (Option.some.inj h)
    exact hst.stored k bounds (drainClosed_entries (he ▸ hk))

/-- **When boundaries are those of their keys.**  Along a run they are just when no item goes by a
narrowed index into a window whose index does not fit. -/
theorem handlesKeys_iff (hcfg : WholeMillis cfg) {calls : List WindowerCall}
    {o : List WindowerResult}
    (h : Runs.run (slidingWindower cfg).call (slidingWindower cfg).build calls = some (ct, o)) :
    (Runs.Along (slidingWindower cfg).call (HandlesKeys cfg) (slidingWindower cfg).build calls ∧
        StoresKeys cfg ct) ↔
      ∀ watermark time, .insert watermark time ∈ calls → IndicesFit cfg time := by
  constructor
  · rintro ⟨halong, -⟩ watermark time hmem
    obtain ⟨ct₁, ct₂, o₂, hhandles, hcall⟩ := halong.exists_of_mem h hmem
    obtain ⟨r, hr, -⟩ := Option.map_eq_some_iff.mp hcall
    obtain ⟨ws, hws, -⟩ := insert_entries (show ct₁.insert cfg watermark time = some (r.1, r.2) from hr)
    exact (yields_iff hcfg hws).mp (hhandles.yielded watermark time rfl ws hws)
  · intro hfit
    have h0 : StoresKeys cfg (slidingWindower cfg).build :=
      storesKeys_of_stored hcfg fun k bounds hk => by simp [slidingWindower] at hk
    have hstep : ∀ s, ∀ c ∈ calls, ∀ s₁ o₁, StoresKeys cfg s →
        (slidingWindower cfg).call s c = some (s₁, o₁) → StoresKeys cfg s₁ := by
      intro s c hc s₁ o₁ hs hcall
      exact hs.call hcfg (fun watermark time he => hfit watermark time (he ▸ hc)) hcall
    have hhandles : ∀ s, ∀ c ∈ calls, StoresKeys cfg s → HandlesKeys cfg s c := by
      intro s c hc hs
      exact handlesKeys hcfg hs fun watermark time he => hfit watermark time (he ▸ hc)
    refine ⟨Runs.along_of_invariant hstep hhandles h0, ?_⟩
    refine Runs.run_prefixes (P := fun _ s _ => StoresKeys cfg s) ?_ h0 h
    intro pre c post s _ s₁ o₁ hsplit _ hs hcall
    exact hstep s c (by rw [hsplit]; simp) s₁ o₁ hs hcall

/-- Windows of ten seconds every five seconds, since 1970. -/
def fiveSecondsSince1970 : SlidingConfig := ⟨10000000000, 5000000000, 0⟩

/-- Items of 12 s, 3 s and 31 s after the start of 2024, the last once the windows before 11 s have
been drained. -/
def newYear : List WindowerCall :=
  [.insert 1704067200000000000 1704067212000000000, .insert 1704067200000000000 1704067203000000000,
    .drainClosed 1704067211000000000, .insert 1704067211000000000 1704067231000000000]

theorem handlesKeys_iff_newYear :
    ∃ ct o, Runs.run (slidingWindower fiveSecondsSince1970).call
        (slidingWindower fiveSecondsSince1970).build newYear = some (ct, o) ∧
      ct.toList = [(340813441, 1704067205000000000, 1704067215000000000),
        (340813442, 1704067210000000000, 1704067220000000000),
        (340813445, 1704067225000000000, 1704067235000000000),
        (340813446, 1704067230000000000, 1704067240000000000)] ∧
      Runs.Along (slidingWindower fiveSecondsSince1970).call (HandlesKeys fiveSecondsSince1970)
        (slidingWindower fiveSecondsSince1970).build newYear ∧
      StoresKeys fiveSecondsSince1970 ct := by
  have hrun : (Runs.run (slidingWindower fiveSecondsSince1970).call
      (slidingWindower fiveSecondsSince1970).build newYear).map (fun r => r.1.toList) =
      some [(340813441, 1704067205000000000, 1704067215000000000),
        (340813442, 1704067210000000000, 1704067220000000000),
        (340813445, 1704067225000000000, 1704067235000000000),
        (340813446, 1704067230000000000, 1704067240000000000)] := by decide +kernel
  have hfit : ∀ watermark time, .insert watermark time ∈ newYear →
      IndicesFit fiveSecondsSince1970 time := by
    intro watermark time h
    simp only [newYear, List.mem_cons, WindowerCall.insert.injEq, reduceCtorEq, List.not_mem_nil,
      false_or, or_false] at h
    rcases h with ⟨-, rfl⟩ | ⟨-, rfl⟩ | ⟨-, rfl⟩ <;> decide +kernel
  obtain ⟨⟨ct, o⟩, hrun, hct⟩ := Option.map_eq_some_iff.mp hrun
  exact ⟨ct, o, hrun, hct,
    (handlesKeys_iff ⟨by decide, by decide, by decide, by decide⟩ hrun).mpr hfit⟩

/-- Windows of one second, aligned to the start of 1950. -/
def secondsSince1950 : SlidingConfig := .tumbling 1000000000 (-631152000000000000)

/-- An item at the start of 2024 is number 2335219200 since 1950, which is no `i32`: it goes into
a window of the year 1887 and is late, though it is at the watermark. -/
theorem not_handlesKeys_secondsSince1950 :
    intersects secondsSince1950 1704067200000000000 =
        some [(2335219200, -2590900096000000000, -2590900095000000000)] ∧
      ((slidingWindower secondsSince1950).insert ∅ 1704067200000000000
        1704067200000000000).map Prod.snd = some [.error (.late 2335219200)] ∧
      ¬ HandlesKeys secondsSince1950 ∅ (.insert 1704067200000000000 1704067200000000000) := by
  have hws : intersects secondsSince1950 1704067200000000000 =
      some [(2335219200, -2590900096000000000, -2590900095000000000)] := rfl
  refine ⟨hws, rfl, fun h => ?_⟩
  have hopen := (h.yielded _ _ rfl _ hws _ (List.mem_singleton_self _)).1
  exact absurd hopen (by decide)

end SlidingWindower

end Bytewax
