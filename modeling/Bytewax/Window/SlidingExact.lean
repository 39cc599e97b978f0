import Bytewax.Window.Sliding
import Mathlib.Data.List.Nodup
import Mathlib.Tactic.Ring
import Mathlib.Tactic.Linarith

/-!
# Bytewax.Window.SlidingExact — the windows that a time falls in

`intersects` starts at a first index and looks at a fixed number of windows.  The first index is a
floor division of a count of milliseconds that was rounded towards zero; where that rounding
carries over a multiple of the offset, the first index is one too large and a window is missed.
Elsewhere the windows found are exactly those that hold the time.
-/

namespace Bytewax

namespace SlidingWindower

/-- An index that `as i32` leaves as it is. -/
def FitsI32 (k : Int) : Prop := -2147483648 ≤ k ∧ k < 2147483648

instance (k : Int) : Decidable (FitsI32 k) := inferInstanceAs (Decidable (_ ∧ _))

theorem asI32_eq_iff {k : Int} : asI32 k = k ↔ FitsI32 k := by
  unfold asI32 FitsI32
  rw [Int.bmod_def]
  omega

variable (cfg : SlidingConfig)

/-- The number of windows that `intersects` looks at. -/
def numWindows : Int := divCeil (numMilliseconds cfg.length) (numMilliseconds cfg.offset)

/-- The index that `intersects` starts at. -/
def firstWindowIdx (time : Int) : Int :=
  (numMilliseconds (time - (cfg.alignTo + cfg.length))).fdiv (numMilliseconds cfg.offset) + 1

/-- The indices that `intersects` looks at. -/
def windowIdxs (time : Int) : List Int :=
  (List.range (numWindows cfg).toNat).map fun i : Nat => firstWindowIdx cfg time + i

/-- The window with this index can be computed, unless it opens after the time. -/
def WindowFits (time k : Int) : Prop :=
  Fits cfg.alignTo (cfg.offset * asI32 k) ∧
    (cfg.alignTo + cfg.offset * asI32 k ≤ time →
      Fits (cfg.alignTo + cfg.offset * asI32 k) cfg.length)

variable {cfg} {time : Int}

theorem window_of_lt {k : Int} (ho : Fits cfg.alignTo (cfg.offset * asI32 k))
    (ht : time < cfg.alignTo + cfg.offset * asI32 k) : window cfg time k = some none := by
  unfold window
  rw [addDuration_of_fits ho]
  show (if time < cfg.alignTo + cfg.offset * asI32 k then _ else _) = _
  rw [if_pos ht]
  rfl

theorem window_of_le {k : Int} (ho : Fits cfg.alignTo (cfg.offset * asI32 k))
    (ht : cfg.alignTo + cfg.offset * asI32 k ≤ time) :
    window cfg time k = (addDuration (cfg.alignTo + cfg.offset * asI32 k) cfg.length).map
      fun closeTime => some (k, cfg.alignTo + cfg.offset * asI32 k, closeTime) := by
  unfold window
  rw [addDuration_of_fits ho]
  show (if time < cfg.alignTo + cfg.offset * asI32 k then _ else _) = _
  rw [if_neg (not_lt.mpr ht)]
  cases addDuration (cfg.alignTo + cfg.offset * asI32 k) cfg.length <;> rfl

theorem window_of_not_fits {k : Int} (ho : ¬ Fits cfg.alignTo (cfg.offset * asI32 k)) :
    window cfg time k = none := by
  unfold window
  rw [addDuration_eq_none ho]
  rfl

theorem isSome_window_iff {k : Int} : (window cfg time k).isSome ↔ WindowFits cfg time k := by
  unfold WindowFits
  by_cases ho : Fits cfg.alignTo (cfg.offset * asI32 k)
  · rcases lt_or_ge time (cfg.alignTo + cfg.offset * asI32 k) with ht | ht
    · rw [window_of_lt ho ht]
      exact ⟨fun _ => ⟨ho, fun h => absurd ht (not_lt.mpr h)⟩, fun _ => rfl⟩
    · rw [window_of_le ho ht]
      by_cases hc : Fits (cfg.alignTo + cfg.offset * asI32 k) cfg.length
      · rw [addDuration_of_fits hc]
        exact ⟨fun _ => ⟨ho, fun _ => hc⟩, fun _ => rfl⟩
      · rw [addDuration_eq_none hc]
        exact ⟨fun h => (by cases h), fun h => absurd (h.2 ht) hc⟩
  · rw [window_of_not_fits ho]
    exact ⟨fun h => (by cases h), fun h => absurd h.1 ho⟩

theorem window_eq_some_iff {k : Int} {w : Int × Int × Int} :
    window cfg time k = some (some w) ↔
      WindowFits cfg time k ∧ cfg.alignTo + cfg.offset * asI32 k ≤ time ∧
        w = (k, cfg.alignTo + cfg.offset * asI32 k, closeTimeOf cfg k) := by
  rw [← isSome_window_iff]
  by_cases ho : Fits cfg.alignTo (cfg.offset * asI32 k)
  · rcases lt_or_ge time (cfg.alignTo + cfg.offset * asI32 k) with ht | ht
    · rw [window_of_lt ho ht]
      exact ⟨fun h => (by cases h), fun h => absurd ht (not_lt.mpr h.2.1)⟩
    · rw [window_of_le ho ht]
      by_cases hc : Fits (cfg.alignTo + cfg.offset * asI32 k) cfg.length
      · rw [addDuration_of_fits hc]
        constructor
        · intro h
          exact ⟨rfl, ht, (Option.some.inj (Option.some.inj h)).symm⟩
        · rintro ⟨-, -, rfl⟩
          rfl
      · rw [addDuration_eq_none hc]
        exact ⟨fun h => (by cases h), fun h => (by cases h.1)⟩
  · rw [window_of_not_fits ho]
    exact ⟨fun h => (by cases h), fun h => (by cases h.1)⟩

theorem intersects_eq_some_iff {ws : List (Int × Int × Int)} :
    intersects cfg time = some ws ↔
      Fits cfg.alignTo cfg.length ∧ numMilliseconds cfg.offset ≠ 0 ∧
        ∃ windows : List (Option (Int × Int × Int)),
          (windowIdxs cfg time).map (window cfg time) = windows.map some ∧ ws = windows.filterMap id := by
  have hmap : ∀ windows, (List.range (numWindows cfg).toNat).mapM (fun i : Nat =>
      window cfg time (firstWindowIdx cfg time + i)) = some windows ↔
        (windowIdxs cfg time).map (window cfg time) = windows.map some := by
    intro windows
    rw [MapM.eq_some_iff, windowIdxs, List.map_map]
    rfl
  constructor
  · intro h
    obtain ⟨close, hclose, h⟩ := Option.bind_eq_some_iff.mp h
    obtain ⟨hfits, rfl⟩ := addDuration_eq_some.mp hclose
    by_cases ho : numMilliseconds cfg.offset = 0
    · rw [if_pos ho] at h
      cases h
    · rw [if_neg ho] at h
      obtain ⟨windows, hwindows, h⟩ := Option.bind_eq_some_iff.mp h
      cases h
      exact ⟨hfits, ho, windows, (hmap windows).mp hwindows, rfl⟩
  · rintro ⟨hfits, ho, windows, hwindows, rfl⟩
    refine Option.bind_eq_some_iff.mpr ⟨_, addDuration_of_fits hfits, ?_⟩
    rw [if_neg ho]
    exact Option.bind_eq_some_iff.mpr ⟨windows, (hmap windows).mpr hwindows, rfl⟩

/-- `intersects` returns when each of its sums is an instant. -/
theorem isSome_intersects_iff (ho : numMilliseconds cfg.offset ≠ 0) :
    (intersects cfg time).isSome ↔
      Fits cfg.alignTo cfg.length ∧ ∀ k ∈ windowIdxs cfg time, WindowFits cfg time k := by
  have hall : (∀ k ∈ windowIdxs cfg time, WindowFits cfg time k) ↔
      ∃ windows : List (Option (Int × Int × Int)),
        (windowIdxs cfg time).map (window cfg time) = windows.map some := by
    simp only [← isSome_window_iff, ← MapM.eq_some_iff, ← Option.isSome_iff_exists]
    exact MapM.isSome_iff.symm
  rw [hall]
  simp only [Option.isSome_iff_exists, intersects_eq_some_iff]
  constructor
  · rintro ⟨_, hfits, -, windows, hwindows, -⟩
    exact ⟨hfits, windows, hwindows⟩
  · rintro ⟨hfits, windows, hwindows⟩
    exact ⟨_, hfits, ho, windows, hwindows, rfl⟩

theorem keys_sublist {idxs : List Int} {windows : List (Option (Int × Int × Int))}
    (h : idxs.map (window cfg time) = windows.map some) :
    ((windows.filterMap id).map Prod.fst).Sublist idxs := by
  induction idxs generalizing windows with
  | nil =>
    cases windows with
    | nil => exact List.Sublist.slnil
    | cons _ _ => cases h
  | cons k idxs ih =>
    cases windows with
    | nil => cases h
    | cons ow windows =>
      obtain ⟨hw, hrest⟩ := List.cons.inj h
      cases ow with
      | none => exact (ih hrest).cons k
      | some w =>
        have hk : w.1 = k := (window_eq_some hw).1
        show (w.1 :: (windows.filterMap id).map Prod.fst).Sublist (k :: idxs)
        rw [hk]
        exact (ih hrest).cons_cons k

theorem intersects_sublist {ws : List (Int × Int × Int)} (h : intersects cfg time = some ws) :
    (ws.map Prod.fst).Sublist (windowIdxs cfg time) := by
  obtain ⟨-, -, windows, hwindows, rfl⟩ := intersects_eq_some_iff.mp h
  exact keys_sublist hwindows

/-- What `intersects` yields: the windows it looks at that opened by the time. -/
theorem mem_intersects {ws : List (Int × Int × Int)} (h : intersects cfg time = some ws)
    {w : Int × Int × Int} :
    w ∈ ws ↔ w.1 ∈ windowIdxs cfg time ∧ cfg.alignTo + cfg.offset * asI32 w.1 ≤ time ∧
      w = (w.1, cfg.alignTo + cfg.offset * asI32 w.1, closeTimeOf cfg w.1) := by
  obtain ⟨-, -, windows, hwindows, rfl⟩ := intersects_eq_some_iff.mp h
  have hmem : w ∈ windows.filterMap id ↔
      ∃ k ∈ windowIdxs cfg time, window cfg time k = some (some w) := by
    rw [List.mem_filterMap]
    constructor
    · rintro ⟨ow, how, rfl⟩
      have : some (some w) ∈ windows.map some := List.mem_map_of_mem how
      rw [← hwindows] at this
      exact List.mem_map.mp this
    · rintro ⟨k, hk, hw⟩
      have : some (some w) ∈ (windowIdxs cfg time).map (window cfg time) :=
        hw ▸ List.mem_map_of_mem hk
      rw [hwindows] at this
      obtain ⟨ow, how, he⟩ := List.mem_map.mp this
      exact ⟨ow, how, Option.some.inj he⟩
  rw [hmem]
  constructor
  · rintro ⟨k, hk, hw⟩
    obtain ⟨-, hle, rfl⟩ := window_eq_some_iff.mp hw
    exact ⟨hk, hle, rfl⟩
  · rintro ⟨hk, hle, hw⟩
    refine ⟨w.1, hk, window_eq_some_iff.mpr ⟨?_, hle, hw⟩⟩
    have hall : ∀ k ∈ windowIdxs cfg time, (window cfg time k).isSome :=
      MapM.isSome_iff.mp (by rw [MapM.eq_some_iff.mpr hwindows]; rfl)
    exact isSome_window_iff.mp (hall w.1 hk)

theorem pairwise_windowIdxs : (windowIdxs cfg time).Pairwise (· < ·) := by
  unfold windowIdxs
  rw [List.pairwise_map]
  exact List.pairwise_lt_range.imp fun hab => by omega

theorem mem_windowIdxs {k : Int} : k ∈ windowIdxs cfg time ↔
    firstWindowIdx cfg time ≤ k ∧ k < firstWindowIdx cfg time + numWindows cfg := by
  unfold windowIdxs
  rw [List.mem_map]
  constructor
  · rintro ⟨i, hi, rfl⟩
    have := List.mem_range.mp hi
    omega
  · rintro ⟨hle, hlt⟩
    exact ⟨(k - firstWindowIdx cfg time).toNat, List.mem_range.mpr (by omega), by omega⟩

/-! ### The first window -/

/-- Rounding the time since the first window closed to milliseconds carries over to a multiple of
the offset. -/
def Carries (cfg : SlidingConfig) (time : Int) : Prop :=
  time - (cfg.alignTo + cfg.length) < 0 ∧ ¬ 1000000 ∣ time - (cfg.alignTo + cfg.length) ∧
    numMilliseconds cfg.offset ∣ numMilliseconds (time - (cfg.alignTo + cfg.length))

instance (cfg : SlidingConfig) (time : Int) : Decidable (Carries cfg time) :=
  inferInstanceAs (Decidable (_ ∧ _))

/-- A time since the close of the first window, against its whole milliseconds. -/
theorem numMilliseconds_cases (d : Int) :
    (0 ≤ d ∨ 1000000 ∣ d) ∧ numMilliseconds d * 1000000 ≤ d ∧
        d < (numMilliseconds d + 1) * 1000000 ∨
      (d < 0 ∧ ¬ 1000000 ∣ d) ∧ (numMilliseconds d - 1) * 1000000 ≤ d ∧
        d < numMilliseconds d * 1000000 := by
  unfold numMilliseconds
  rw [Int.tdiv_eq_ediv]
  by_cases h : 0 ≤ d ∨ (1000000 : Int) ∣ d
  · rw [if_pos h]
    omega
  · rw [if_neg h, show Int.sign 1000000 = 1 from rfl]
    omega

/-- A configuration in whole milliseconds. -/
structure WholeMillis (cfg : SlidingConfig) : Prop where
  length_pos : 0 < cfg.length
  offset_pos : 0 < cfg.offset
  length_dvd : 1000000 ∣ cfg.length
  offset_dvd : 1000000 ∣ cfg.offset

theorem numMilliseconds_of_dvd {d : Int} (h : 1000000 ∣ d) :
    d = numMilliseconds d * 1000000 := by
  obtain ⟨c, rfl⟩ := h
  unfold numMilliseconds
  rw [Int.mul_tdiv_cancel_left _ (by decide), mul_comm]

theorem WholeMillis.offsetMillis_pos (hcfg : WholeMillis cfg) :
    0 < numMilliseconds cfg.offset := by
  have := numMilliseconds_of_dvd hcfg.offset_dvd
  have := hcfg.offset_pos
  omega

theorem fdiv_mul_bounds (a : Int) {b : Int} (hb : 0 < b) :
    a.fdiv b * b ≤ a ∧ a < a.fdiv b * b + b := by
  rw [Int.fdiv_eq_ediv_of_nonneg a hb.le]
  refine ⟨Int.ediv_mul_le a hb.ne', ?_⟩
  have := Int.lt_ediv_add_one_mul_self a hb
  rwa [add_mul, one_mul] at this

/-- Only one multiple of the offset is the last one up to a given point. -/
theorem eq_of_mul_bounds {s b p q : Int} (hb : 0 < b) (hp : p * b ≤ s) (hp' : s < p * b + b)
    (hq : q * b ≤ s) (hq' : s < q * b + b) : p = q := by
  have hpq : p < q + 1 := lt_of_mul_lt_mul_right (by rw [add_mul]; omega) hb.le
  have hqp : q < p + 1 := lt_of_mul_lt_mul_right (by rw [add_mul]; omega) hb.le
  omega

/-- The index of the first window that closes after the time. -/
def firstOpen (cfg : SlidingConfig) (time : Int) : Int :=
  (time - (cfg.alignTo + cfg.length)).fdiv cfg.offset + 1

/-- Without a carry `intersects` starts at the first window that closes after the time. -/
theorem firstWindowIdx_eq (hcfg : WholeMillis cfg) (time : Int) :
    firstWindowIdx cfg time = firstOpen cfg time + if Carries cfg time then 1 else 0 := by
  have hom := hcfg.offsetMillis_pos
  have ho := numMilliseconds_of_dvd hcfg.offset_dvd
  have hms := numMilliseconds_cases (time - (cfg.alignTo + cfg.length))
  have hcarry : Carries cfg time ↔ time - (cfg.alignTo + cfg.length) < 0 ∧
    ¬ 1000000 ∣ time - (cfg.alignTo + cfg.length) ∧ numMilliseconds cfg.offset ∣
      numMilliseconds (time - (cfg.alignTo + cfg.length)) := Iff.rfl
  unfold firstWindowIdx firstOpen
  generalize time - (cfg.alignTo + cfg.length) = s at hms hcarry ⊢
  generalize numMilliseconds cfg.offset = om at hom ho hcarry ⊢
  obtain ⟨hq, hq'⟩ := fdiv_mul_bounds (numMilliseconds s) hom
  obtain ⟨hr, hr'⟩ := fdiv_mul_bounds s hcfg.offset_pos
  have hdvd : om ∣ numMilliseconds s ↔ (numMilliseconds s).fdiv om * om = numMilliseconds s := by
    constructor
    · exact fun h => Int.fdiv_mul_cancel h
    · exact fun h => ⟨_, (mul_comm om _).trans h |>.symm⟩
  generalize numMilliseconds s = ms at hq hq' hms hdvd hcarry ⊢
  have hmul : ms.fdiv om * cfg.offset = ms.fdiv om * om * 1000000 := by rw [ho]; ring
  generalize ms.fdiv om = q at hq hq' hdvd hmul ⊢
  by_cases hc : Carries cfg time
  · rw [if_pos hc]
    obtain ⟨hneg, hnd, hd⟩ := hcarry.mp hc
    have hqms := hdvd.mp hd
    have hq₁ : (q - 1) * cfg.offset ≤ s := by rw [sub_mul]; omega
    have hq₂ : s < (q - 1) * cfg.offset + cfg.offset := by rw [sub_mul]; omega
    have := eq_of_mul_bounds hcfg.offset_pos hr hr' hq₁ hq₂
    omega
  · rw [if_neg hc]
    have hq₁ : q * cfg.offset ≤ s := by
      rcases hms with ⟨-, h, -⟩ | ⟨⟨hneg, hnd⟩, h, -⟩
      · omega
      · have hne : q * om ≠ ms := fun he => hc (hcarry.mpr ⟨hneg, hnd, hdvd.mpr he⟩)
        omega
    have hq₂ : s < q * cfg.offset + cfg.offset := by omega
    have := eq_of_mul_bounds hcfg.offset_pos hr hr' hq₁ hq₂
    omega

/-- As many windows as are needed to cover a length. -/
theorem numWindows_bounds (hcfg : WholeMillis cfg) :
    (numWindows cfg - 1) * cfg.offset < cfg.length ∧ cfg.length ≤ numWindows cfg * cfg.offset := by
  have hom := hcfg.offsetMillis_pos
  have ho := numMilliseconds_of_dvd hcfg.offset_dvd
  have hl := numMilliseconds_of_dvd hcfg.length_dvd
  obtain ⟨hq, hq'⟩ := fdiv_mul_bounds (-numMilliseconds cfg.length) hom
  unfold numWindows divCeil
  generalize numMilliseconds cfg.length = lm at hl hq hq' ⊢
  generalize (-lm).fdiv (numMilliseconds cfg.offset) = q at hq hq' ⊢
  have hmul : q * cfg.offset = q * numMilliseconds cfg.offset * 1000000 := by
    conv_lhs => rw [ho]
    ring
  rw [sub_mul, neg_mul]
  omega

/-! ### Exactness -/

/-- `intersects` yields, in order and once each, the windows that hold the time. -/
def IntersectsExactly (cfg : SlidingConfig) (time : Int) : Prop :=
  ∃ ws, intersects cfg time = some ws ∧ (ws.map Prod.fst).Pairwise (· < ·) ∧
    ∀ k, k ∈ ws.map Prod.fst ↔
      cfg.alignTo + k * cfg.offset ≤ time ∧ time < cfg.alignTo + k * cfg.offset + cfg.length

/-- The index is among those of the windows concerned: the first window that closes after the
time and as many as a length needs. -/
def Concerns (cfg : SlidingConfig) (time k : Int) : Prop :=
  firstOpen cfg time ≤ k ∧ (k - firstOpen cfg time) * cfg.offset < cfg.length

/-- The instants of the windows concerned can be computed. -/
def InstantsFit (cfg : SlidingConfig) (time : Int) : Prop :=
  Fits cfg.alignTo cfg.length ∧ ∀ k, Concerns cfg time k →
    Fits cfg.alignTo (cfg.offset * k) ∧
      (cfg.alignTo + cfg.offset * k ≤ time → Fits (cfg.alignTo + cfg.offset * k) cfg.length)

theorem holds_iff (hcfg : WholeMillis cfg) {k : Int} :
    time < cfg.alignTo + k * cfg.offset + cfg.length ↔ firstOpen cfg time ≤ k := by
  unfold firstOpen
  obtain ⟨hr, hr'⟩ := fdiv_mul_bounds (time - (cfg.alignTo + cfg.length)) hcfg.offset_pos
  generalize (time - (cfg.alignTo + cfg.length)).fdiv cfg.offset = q at hr hr' ⊢
  constructor
  · intro h
    have : q < k := lt_of_mul_lt_mul_right (by omega) hcfg.offset_pos.le
    omega
  · intro h
    have : (q + 1) * cfg.offset ≤ k * cfg.offset :=
      mul_le_mul_of_nonneg_right h hcfg.offset_pos.le
    rw [add_mul] at this
    omega

theorem mem_windowIdxs_iff_concerns (hcfg : WholeMillis cfg) (hc : ¬ Carries cfg time) {k : Int} :
    k ∈ windowIdxs cfg time ↔ Concerns cfg time k := by
  rw [mem_windowIdxs, firstWindowIdx_eq hcfg, if_neg hc, add_zero]
  unfold Concerns
  refine and_congr_right fun _ => ?_
  obtain ⟨hn, hn'⟩ := numWindows_bounds hcfg
  generalize numWindows cfg = n at hn hn' ⊢
  constructor
  · intro h
    have : (k - firstOpen cfg time) * cfg.offset ≤ (n - 1) * cfg.offset :=
      mul_le_mul_of_nonneg_right (by omega) hcfg.offset_pos.le
    omega
  · intro h
    have : k - firstOpen cfg time < n := lt_of_mul_lt_mul_right (by omega) hcfg.offset_pos.le
    omega

/-- A window that has opened by the time and not closed is concerned. -/
theorem concerns_of_holds (hcfg : WholeMillis cfg) {k : Int}
    (ho : cfg.alignTo + k * cfg.offset ≤ time)
    (hk : time < cfg.alignTo + k * cfg.offset + cfg.length) : Concerns cfg time k := by
  refine ⟨(holds_iff hcfg).mp hk, ?_⟩
  have hfirst := (holds_iff hcfg).mpr (le_refl (firstOpen cfg time))
  rw [sub_mul]
  omega

/-- Where the rounding carries over, the first window to close after the time holds it. -/
theorem holds_firstOpen_of_carries (hcfg : WholeMillis cfg) (hc : Carries cfg time) :
    cfg.alignTo + firstOpen cfg time * cfg.offset ≤ time := by
  have hidx := firstWindowIdx_eq hcfg time
  rw [if_pos hc] at hidx
  obtain ⟨hneg, hnd, hd⟩ := hc
  have hq : (numMilliseconds (time - (cfg.alignTo + cfg.length))).fdiv
      (numMilliseconds cfg.offset) = firstOpen cfg time := by
    unfold firstWindowIdx at hidx
    omega
  have hmul := Int.fdiv_mul_cancel hd
  rw [hq] at hmul
  have hfirst : firstOpen cfg time * cfg.offset =
      numMilliseconds (time - (cfg.alignTo + cfg.length)) * 1000000 := by
    rw [← hmul]
    conv_lhs => rw [numMilliseconds_of_dvd hcfg.offset_dvd]
    ring
  have hlen : 1000000 ≤ cfg.length := Int.le_of_dvd hcfg.length_pos hcfg.length_dvd
  rcases numMilliseconds_cases (time - (cfg.alignTo + cfg.length)) with ⟨h, -⟩ | ⟨-, h, -⟩
  · rcases h with h | h
    · omega
    · exact absurd h hnd
  · omega

/-- **When `intersects` is exact.**  It misses a window just when the rounding to milliseconds
carries over a multiple of the offset, and it panics just when an instant is out of range. -/
theorem intersectsExactly_iff (hcfg : WholeMillis cfg)
    (hi : ∀ k, Concerns cfg time k → FitsI32 k) :
    IntersectsExactly cfg time ↔ ¬ Carries cfg time ∧ InstantsFit cfg time := by
  have ho : numMilliseconds cfg.offset ≠ 0 := hcfg.offsetMillis_pos.ne'
  by_cases hc : Carries cfg time
  · -- the first window that closes after the time is not looked at
    refine ⟨?_, fun h => absurd hc h.1⟩
    rintro ⟨ws, hws, -, hkeys⟩
    have hmem := (hkeys (firstOpen cfg time)).mpr
      ⟨holds_firstOpen_of_carries hcfg hc, (holds_iff hcfg).mpr le_rfl⟩
    obtain ⟨w, hw, he⟩ := List.mem_map.mp hmem
    have hidx := ((mem_intersects hws).mp hw).1
    rw [mem_windowIdxs, firstWindowIdx_eq hcfg, if_pos hc] at hidx
    omega
  · have hidxs : ∀ k, k ∈ windowIdxs cfg time ↔ Concerns cfg time k := fun k =>
      mem_windowIdxs_iff_concerns hcfg hc
    have hi32 : ∀ k, Concerns cfg time k → asI32 k = k := fun k hk => asI32_eq_iff.mpr (hi k hk)
    have hfits : (intersects cfg time).isSome ↔ InstantsFit cfg time := by
      rw [isSome_intersects_iff ho]
      unfold InstantsFit WindowFits
      refine and_congr_right fun _ => forall_congr' fun k => ?_
      rw [hidxs]
      refine imp_congr_right fun hk => ?_
      rw [hi32 k hk]
    rw [← hfits]
    constructor
    · rintro ⟨ws, hws, -⟩
      exact ⟨hc, by rw [hws]; rfl⟩
    · rintro ⟨-, hsome⟩
      obtain ⟨ws, hws⟩ := Option.isSome_iff_exists.mp hsome
      refine ⟨ws, hws, pairwise_windowIdxs.sublist (intersects_sublist hws), fun k => ?_⟩
      rw [List.mem_map]
      constructor
      · rintro ⟨w, hw, rfl⟩
        obtain ⟨hk, hle, -⟩ := (mem_intersects hws).mp hw
        have hk := (hidxs _).mp hk
        rw [hi32 _ hk, mul_comm] at hle
        exact ⟨hle, (holds_iff hcfg).mpr hk.1⟩
      · rintro ⟨hle, hlt⟩
        have hk := concerns_of_holds hcfg hle hlt
        refine ⟨(k, cfg.alignTo + cfg.offset * asI32 k, closeTimeOf cfg k),
          (mem_intersects hws).mpr ⟨(hidxs k).mpr hk, ?_, rfl⟩, rfl⟩
        show cfg.alignTo + cfg.offset * asI32 k ≤ time
        rw [hi32 k hk, mul_comm]
        exact hle

theorem intersectsExactly_iff_sliding :
    IntersectsExactly ⟨10000000000, 5000000000, 0⟩ 12000000000 ↔
      ¬ Carries ⟨10000000000, 5000000000, 0⟩ 12000000000 ∧
        InstantsFit ⟨10000000000, 5000000000, 0⟩ 12000000000 := by
  refine intersectsExactly_iff ⟨by decide, by decide, by decide, by decide⟩ ?_
  rintro k ⟨hk, hk'⟩
  have hfirst : firstOpen ⟨10000000000, 5000000000, 0⟩ 12000000000 = 1 := by decide
  rw [hfirst] at hk hk'
  replace hk' : (k - 1) * 5000000000 < 10000000000 := hk'
  unfold FitsI32
  omega

/-- Half a millisecond before the first window of ten seconds closes no window is found. -/
theorem not_intersectsExactly_of_carry :
    intersects (.tumbling 10000000000 0) 9999500000 = some [] ∧
      ¬ IntersectsExactly (.tumbling 10000000000 0) 9999500000 := by
  have hnone : intersects (.tumbling 10000000000 0) 9999500000 = some [] := by decide +kernel
  refine ⟨hnone, ?_⟩
  rintro ⟨ws, hws, -, hkeys⟩
  rw [hnone] at hws
  cases hws
  exact List.not_mem_nil ((hkeys 0).mpr (by decide))

/-- With tumbling windows exactness means one window for each time. -/
theorem IntersectsExactly.tumbling {length alignTo : Int} (hpos : 0 < length)
    (h : IntersectsExactly (.tumbling length alignTo) time) :
    ∃ ws k, intersects (.tumbling length alignTo) time = some ws ∧ ws.map Prod.fst = [k] := by
  obtain ⟨ws, hws, hlt, hkeys⟩ := h
  obtain ⟨hr, hr'⟩ := fdiv_mul_bounds (time - alignTo) hpos
  refine ⟨ws, (time - alignTo).fdiv length, hws, ?_⟩
  refine List.Perm.eq_singleton ?_
  refine (List.perm_ext_iff_of_nodup (hlt.imp ne_of_lt) (List.nodup_singleton _)).mpr fun k => ?_
  rw [hkeys, List.mem_singleton]
  show alignTo + k * length ≤ time ∧ time < alignTo + k * length + length ↔ _
  constructor
  · rintro ⟨h₁, h₂⟩
    exact eq_of_mul_bounds hpos (by omega) (by omega) hr hr'
  · rintro rfl
    omega

end SlidingWindower

end Bytewax
