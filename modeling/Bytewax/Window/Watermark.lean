import Bytewax.Lib.Runs
import Bytewax.Window.Clock
import Mathlib.Order.Lattice
import Mathlib.Data.List.MinMax

/-!
# Bytewax.Window.Watermark — the event clock against its whole history

The event clock keeps one event time and the system time that it was read at.  The watermark that
it returns is nevertheless that of all items it has seen: which of two items is further ahead of
system time does not depend on when the question is asked, so an item that once fell behind stays
behind.
-/

namespace Bytewax

namespace EventClock

variable {V : Type}

/-- A call of `watermark`: the system time that it reads, and what has arrived. -/
abbrev Reading (V : Type) := Int × Poll (Option V)

/-- One call, which puts out the watermark it returns. -/
def readStep (dtGetter : V → Int) (wait : Int) (c : Option (Int × Int)) (r : Reading V) :
    Option (Option (Int × Int) × List Int) :=
  (watermark dtGetter wait c r.1 r.2).map fun p => (p.1, [p.2])

/-! ### The watermark of a history -/

/-- The event times of all items, with the system times they were read at. -/
def seen (dtGetter : V → Int) (rs : List (Reading V)) : List (Int × Int) :=
  rs.filterMap fun r =>
    match r.2 with
    | .ready (some event) => some (dtGetter event, r.1)
    | _ => none

/-- The input has ended. -/
def reachedEof (rs : List (Reading V)) : Bool :=
  rs.any fun r =>
    match r.2 with
    | .ready none => true
    | _ => false

/-- How far an item was ahead of system time. -/
def lead (p : Int × Int) : Int := p.1 - p.2

/-- **The watermark by the whole history**, at a reading of system time. -/
def historyWatermark (dtGetter : V → Int) (wait now : Int) (rs : List (Reading V)) : Int :=
  if reachedEof rs then maxUtc
  else
    match ((seen dtGetter rs).map lead).max? with
    | none => minUtc
    | some l => now - wait + l

/-- Python's datetimes and timedeltas have a resolution of one microsecond. -/
structure InMicroseconds (dtGetter : V → Int) (wait : Int) : Prop where
  event_dvd : ∀ event, 1000 ∣ dtGetter event
  wait_dvd : 1000 ∣ wait

/-- The arithmetic of `watermark` on an item does not overflow. -/
def Representable (wait now : Int) (p : Int × Int) : Prop :=
  Fits p.1 (-wait) ∧ Fits (p.1 - wait) (now - p.2)

/-- No call overflows on an item that has been seen. -/
def NoOverflow (dtGetter : V → Int) (wait : Int) (rs : List (Reading V)) : Prop :=
  ∀ pre r post, rs = pre ++ r :: post →
    ∀ p ∈ seen dtGetter (pre ++ [r]), Representable wait r.1 p

section History

variable {dtGetter : V → Int} {wait now : Int} {rs : List (Reading V)}

@[simp] theorem seen_concat_item (event : V) :
    seen dtGetter (rs ++ [(now, .ready (some event))]) =
      seen dtGetter rs ++ [(dtGetter event, now)] := by
  simp [seen]

@[simp] theorem seen_concat_eof :
    seen dtGetter (rs ++ [(now, .ready none)]) = seen dtGetter rs := by
  simp [seen]

@[simp] theorem seen_concat_pending :
    seen dtGetter (rs ++ [(now, .pending)]) = seen dtGetter rs := by
  simp [seen]

@[simp] theorem reachedEof_concat_item (event : V) :
    reachedEof (rs ++ [(now, .ready (some event))]) = reachedEof rs := by
  simp [reachedEof]

@[simp] theorem reachedEof_concat_eof :
    reachedEof (rs ++ [((now, .ready none) : Reading V)]) = true := by
  simp [reachedEof]

@[simp] theorem reachedEof_concat_pending :
    reachedEof (rs ++ [((now, .pending) : Reading V)]) = reachedEof rs := by
  simp [reachedEof]

theorem exists_of_mem_seen {p : Int × Int} (h : p ∈ seen dtGetter rs) :
    ∃ event, p.1 = dtGetter event := by
  obtain ⟨r, -, hr⟩ := List.mem_filterMap.mp h
  rcases r with ⟨now, (_ | event) | _⟩
  · cases hr
  · cases hr
    exact ⟨event, rfl⟩
  · cases hr

theorem historyWatermark_eof (h : reachedEof rs = true) :
    historyWatermark dtGetter wait now rs = maxUtc := if_pos h

theorem historyWatermark_nothing (h : reachedEof rs = false) (hs : seen dtGetter rs = []) :
    historyWatermark dtGetter wait now rs = minUtc := by
  simp [historyWatermark, h, hs]

/-- With items, the watermark is that of an item which was furthest ahead. -/
theorem historyWatermark_item (h : reachedEof rs = false) {p : Int × Int}
    (hp : p ∈ seen dtGetter rs) (hmax : ∀ q ∈ seen dtGetter rs, lead q ≤ lead p) :
    historyWatermark dtGetter wait now rs = now - wait + lead p := by
  have hm : ((seen dtGetter rs).map lead).max? = some (lead p) := by
    rw [List.max?_eq_some_iff]
    refine ⟨List.mem_map_of_mem hp, ?_⟩
    intro l hl
    obtain ⟨q, hq, rfl⟩ := List.mem_map.mp hl
    exact hmax q hq
  simp [historyWatermark, h, hm]

theorem exists_max_lead (h : seen dtGetter rs ≠ []) :
    ∃ p ∈ seen dtGetter rs, ∀ q ∈ seen dtGetter rs, lead q ≤ lead p := by
  obtain ⟨l, hl⟩ := Option.isSome_iff_exists.mp
    (List.isSome_max?_of_ne_nil (l := (seen dtGetter rs).map lead) (by simpa using h))
  rw [List.max?_eq_some_iff] at hl
  obtain ⟨p, hp, rfl⟩ := List.mem_map.mp hl.1
  exact ⟨p, hp, fun q hq => hl.2 _ (List.mem_map_of_mem hq)⟩

/-- As system time goes on and more is read, the watermark does not go back. -/
theorem historyWatermark_mono {rs' : List (Reading V)} {now' : Int} (hpre : rs <+: rs')
    (hnow : now ≤ now') (hmin : minUtc ≤ historyWatermark dtGetter wait now' rs')
    (hmax : historyWatermark dtGetter wait now rs ≤ maxUtc) :
    historyWatermark dtGetter wait now rs ≤ historyWatermark dtGetter wait now' rs' := by
  obtain ⟨more, rfl⟩ := hpre
  cases heof' : reachedEof (rs ++ more) with
  | true => rwa [historyWatermark_eof heof']
  | false =>
    have heof : reachedEof rs = false := by
      rw [reachedEof, List.any_append, Bool.or_eq_false_iff] at heof'
      exact heof'.1
    by_cases hs : seen dtGetter rs = []
    · rwa [historyWatermark_nothing heof hs]
    · have hsub : ∀ p ∈ seen dtGetter rs, p ∈ seen dtGetter (rs ++ more) := by
        intro p hp
        rw [seen, List.filterMap_append]
        exact List.mem_append_left _ hp
      obtain ⟨p, hp, hpm⟩ := exists_max_lead hs
      obtain ⟨p', hp', hpm'⟩ := exists_max_lead (List.ne_nil_of_mem (hsub p hp))
      have hle : lead p ≤ lead p' := hpm' p (hsub p hp)
      rw [historyWatermark_item heof hp hpm, historyWatermark_item heof' hp' hpm']
      omega

end History

/-! ### What one call does to the slot -/

section Slot

variable {dtGetter : V → Int} {wait now w : Int} {c c' : Option (Int × Int)}

/-- The watermark of an item is its lead over system time, less the wait. -/
theorem watermarkOf_item {p : Int × Int} (hp : p.1 ≠ maxUtc)
    (h : watermarkOf wait now p = some w) : w = now - wait + lead p := by
  unfold watermarkOf at h
  dsimp only at h
  rw [if_neg hp] at h
  obtain ⟨start, hstart, hw⟩ := Option.bind_eq_some_iff.mp h
  obtain ⟨-, rfl⟩ := subDuration_eq_some.mp hstart
  obtain ⟨-, rfl⟩ := addDuration_eq_some.mp hw
  unfold lead
  omega

theorem isSome_watermarkOf {p : Int × Int} (h : Representable wait now p) :
    ∃ w, watermarkOf wait now p = some w := by
  unfold watermarkOf
  dsimp only
  split_ifs
  · exact ⟨_, rfl⟩
  · rw [subDuration_eq_some.mpr ⟨h.1, rfl⟩]
    exact ⟨_, addDuration_of_fits h.2⟩

theorem watermarkOf_maxUtc (s : Int) : watermarkOf wait now (maxUtc, s) = some maxUtc := by
  simp [watermarkOf]

theorem le_watermarkOf {p : Int × Int} (h : watermarkOf wait now p = some w) : minUtc ≤ w := by
  unfold watermarkOf at h
  dsimp only at h
  split_ifs at h
  · rw [← Option.some.inj h]
    decide
  · obtain ⟨start, -, hw⟩ := Option.bind_eq_some_iff.mp h
    obtain ⟨hfit, rfl⟩ := addDuration_eq_some.mp hw
    exact hfit.1

/-- Without an item, the slot stays. -/
theorem slot_pending (h : watermark dtGetter wait c now .pending = some (c', w)) : c' = c := by
  rw [watermark_eq] at h
  cases c with
  | none =>
    cases h
    rfl
  | some p =>
    obtain ⟨w', -, h⟩ := Option.map_eq_some_iff.mp h
    cases h
    rfl

/-- The end of the input takes the slot: nothing is past the end of time. -/
theorem slot_eof (h : watermark dtGetter wait c now (.ready none) = some (c', w)) :
    c' = some (maxUtc, now) := by
  rw [watermark_eq] at h
  cases c with
  | none =>
    obtain ⟨w', -, h⟩ := Option.map_eq_some_iff.mp h
    cases h
    rfl
  | some p =>
    obtain ⟨w₁, hw₁, h⟩ := Option.bind_eq_some_iff.mp h
    obtain ⟨w₂, hw₂, h⟩ := Option.bind_eq_some_iff.mp h
    rw [watermarkOf_maxUtc] at hw₂
    cases hw₂
    rw [if_neg (not_lt.mpr (watermarkOf_le hw₁))] at h
    cases h
    rfl

/-- The first item takes the slot. -/
theorem slot_first {event : V}
    (h : watermark dtGetter wait none now (.ready (some event)) = some (c', w)) :
    c' = some (dtGetter event, now) := by
  rw [watermark_eq] at h
  obtain ⟨w', -, h⟩ := Option.map_eq_some_iff.mp h
  cases h
  rfl

/-- A later item takes the slot unless its watermark is behind. -/
theorem slot_item {p : Int × Int} {event : V}
    (h : watermark dtGetter wait (some p) now (.ready (some event)) = some (c', w)) :
    ∃ w₁ w₂, watermarkOf wait now p = some w₁ ∧
      watermarkOf wait now (dtGetter event, now) = some w₂ ∧
      (w₂ < w₁ ∧ c' = some p ∨ w₁ ≤ w₂ ∧ c' = some (dtGetter event, now)) := by
  rw [watermark_eq] at h
  obtain ⟨w₁, hw₁, h⟩ := Option.bind_eq_some_iff.mp h
  obtain ⟨w₂, hw₂, h⟩ := Option.bind_eq_some_iff.mp h
  refine ⟨w₁, w₂, hw₁, hw₂, ?_⟩
  by_cases hlt : w₂ < w₁
  · rw [if_pos hlt] at h
    cases h
    exact .inl ⟨hlt, rfl⟩
  · rw [if_neg hlt] at h
    cases h
    exact .inr ⟨not_lt.mp hlt, rfl⟩

/-- No call panics while the readings it compares are representable. -/
theorem exists_watermark {nextValue : Poll (Option V)}
    (hc : ∀ p, c = some p → ∃ w, watermarkOf wait now p = some w)
    (hn : ∀ q, nextEventTime dtGetter now nextValue = some q →
      ∃ w, watermarkOf wait now q = some w) :
    ∃ c' w, watermark dtGetter wait c now nextValue = some (c', w) := by
  rw [watermark_eq]
  cases c with
  | none =>
    cases hq : nextEventTime dtGetter now nextValue with
    | none => exact ⟨_, _, rfl⟩
    | some q =>
      obtain ⟨w, hw⟩ := hn q hq
      exact ⟨some q, w, by simp only [hw, Option.map_some]⟩
  | some p =>
    obtain ⟨w₁, hw₁⟩ := hc p rfl
    cases hq : nextEventTime dtGetter now nextValue with
    | none => exact ⟨some p, w₁, by simp only [hw₁, Option.map_some]⟩
    | some q =>
      obtain ⟨w₂, hw₂⟩ := hn q hq
      by_cases hlt : w₂ < w₁
      · exact ⟨some p, w₁, by simp [hw₁, hw₂, hlt]⟩
      · exact ⟨some q, w₂, by simp [hw₁, hw₂, hlt]⟩

end Slot

/-! ### One slot for the whole history -/

/-- What the slot says of the items seen so far. -/
inductive Summarizes (dtGetter : V → Int) (rs : List (Reading V)) : Option (Int × Int) → Prop
  | nothing (heof : reachedEof rs = false) (hseen : seen dtGetter rs = []) :
    Summarizes dtGetter rs none
  | item {p : Int × Int} (heof : reachedEof rs = false) (hp : p ∈ seen dtGetter rs)
    (hmax : ∀ q ∈ seen dtGetter rs, lead q ≤ lead p) : Summarizes dtGetter rs (some p)
  | eof {s : Int} (heof : reachedEof rs = true) : Summarizes dtGetter rs (some (maxUtc, s))

section Simulation

variable {dtGetter : V → Int} {wait now w : Int} {c c' : Option (Int × Int)}
  {rs : List (Reading V)}

theorem InMicroseconds.ne_maxUtc (h : InMicroseconds dtGetter wait) (event : V) :
    dtGetter event ≠ maxUtc := by
  intro he
  have hdvd := h.event_dvd event
  rw [he] at hdvd
  exact absurd hdvd (by decide)

theorem InMicroseconds.sub_ne_maxUtc (h : InMicroseconds dtGetter wait) (event : V) :
    dtGetter event - wait ≠ maxUtc := by
  intro he
  have hdvd := Int.dvd_sub (h.event_dvd event) h.wait_dvd
  rw [he] at hdvd
  exact absurd hdvd (by decide)

theorem InMicroseconds.seen_ne (h : InMicroseconds dtGetter wait) {p : Int × Int}
    (hp : p ∈ seen dtGetter rs) : p.1 ≠ maxUtc := by
  obtain ⟨event, he⟩ := exists_of_mem_seen hp
  rw [he]
  exact h.ne_maxUtc event

/-- An item is compared with the slot. -/
theorem Summarizes.item_step (hmicro : InMicroseconds dtGetter wait) (h : Summarizes dtGetter rs c)
    {event : V} (hw : watermark dtGetter wait c now (.ready (some event)) = some (c', w)) :
    Summarizes dtGetter (rs ++ [(now, .ready (some event))]) c' := by
  cases h with
  | nothing heof hseen =>
    obtain rfl := slot_first hw
    exact .item (by simpa using heof) (by simp) (by simp [hseen])
  | @item p heof hp hmax =>
    obtain ⟨w₁, w₂, hw₁, hw₂, hslot⟩ := slot_item hw
    have hw₁ := watermarkOf_item (hmicro.seen_ne hp) hw₁
    have hw₂ := watermarkOf_item (hmicro.ne_maxUtc event) hw₂
    rcases hslot with ⟨hlt, rfl⟩ | ⟨hle, rfl⟩
    · refine .item (by simpa using heof) (by simp [hp]) ?_
      intro q hq
      rw [seen_concat_item, List.mem_append, List.mem_singleton] at hq
      rcases hq with hq | rfl
      · exact hmax q hq
      · omega
    · refine .item (by simpa using heof) (by simp) ?_
      intro q hq
      rw [seen_concat_item, List.mem_append, List.mem_singleton] at hq
      rcases hq with hq | rfl
      · have hq := hmax q hq
        omega
      · exact le_rfl
  | eof heof =>
    -- no item reaches the end of time, so the end of the input keeps the slot
    obtain ⟨w₁, w₂, hw₁, hw₂, hslot⟩ := slot_item hw
    rw [watermarkOf_maxUtc] at hw₁
    cases hw₁
    have hle := watermarkOf_le hw₂
    have hne : w₂ ≠ maxUtc := by
      have hw₂ := watermarkOf_item (hmicro.ne_maxUtc event) hw₂
      have hsub := hmicro.sub_ne_maxUtc event
      unfold lead at hw₂
      omega
    rcases hslot with ⟨-, rfl⟩ | ⟨hge, -⟩
    · exact .eof (by simpa using heof)
    · omega

theorem Summarizes.step (hmicro : InMicroseconds dtGetter wait) (h : Summarizes dtGetter rs c)
    {r : Reading V} (hw : watermark dtGetter wait c r.1 r.2 = some (c', w)) :
    Summarizes dtGetter (rs ++ [r]) c' := by
  rcases r with ⟨now, (_ | event) | _⟩
  · obtain rfl := slot_eof hw
    exact .eof reachedEof_concat_eof
  · exact h.item_step hmicro hw
  · obtain rfl := slot_pending hw
    cases h with
    | nothing heof hseen => exact .nothing (by simpa using heof) (by simpa using hseen)
    | item heof hp hmax => exact .item (by simpa using heof) (by simpa using hp) (by simpa using hmax)
    | eof heof => exact .eof (by simpa using heof)

/-- The watermark of the slot is that of the history. -/
theorem Summarizes.watermarkOf_eq (hmicro : InMicroseconds dtGetter wait) {p : Int × Int}
    (h : Summarizes dtGetter rs (some p)) (hw : watermarkOf wait now p = some w) :
    w = historyWatermark dtGetter wait now rs := by
  cases h with
  | item heof hp hmax =>
    rw [historyWatermark_item heof hp hmax]
    exact watermarkOf_item (hmicro.seen_ne hp) hw
  | eof heof =>
    rw [watermarkOf_maxUtc] at hw
    rw [historyWatermark_eof heof]
    exact (Option.some.inj hw).symm

/-- A call returns the watermark of the history up to it, and it is an instant. -/
theorem Summarizes.watermark_eq (hmicro : InMicroseconds dtGetter wait)
    (h : Summarizes dtGetter rs c) {r : Reading V}
    (hw : watermark dtGetter wait c r.1 r.2 = some (c', w)) :
    w = historyWatermark dtGetter wait r.1 (rs ++ [r]) ∧ minUtc ≤ w ∧ w ≤ maxUtc := by
  have hstep := h.step hmicro hw
  rcases watermark_spec hw with ⟨rfl, rfl, hq⟩ | ⟨p, rfl, hp⟩
  · rw [EventClock.watermark_eq, hq] at hw
    cases hw
    cases hstep with
    | nothing heof hseen => exact ⟨(historyWatermark_nothing heof hseen).symm, le_rfl, by decide⟩
  · exact ⟨hstep.watermarkOf_eq hmicro hp, le_watermarkOf hp, watermarkOf_le hp⟩

/-- The slot can be read again as long as the items can. -/
theorem Summarizes.exists_watermark (h : Summarizes dtGetter rs c) {r : Reading V}
    (hfits : ∀ p ∈ seen dtGetter (rs ++ [r]), Representable wait r.1 p) :
    ∃ c' w, watermark dtGetter wait c r.1 r.2 = some (c', w) := by
  refine EventClock.exists_watermark (fun p hp => ?_) (fun q hq => ?_)
  · subst hp
    cases h with
    | item heof hp hmax =>
      refine isSome_watermarkOf (hfits p ?_)
      rw [seen, List.filterMap_append]
      exact List.mem_append_left _ hp
    | eof heof => exact ⟨_, watermarkOf_maxUtc _⟩
  · rcases r with ⟨now, (_ | event) | _⟩
    · cases hq
      exact ⟨_, watermarkOf_maxUtc _⟩
    · cases hq
      exact isSome_watermarkOf (hfits _ (by simp))
    · cases hq

end Simulation

/-! ### Runs -/

section Run

variable {dtGetter : V → Int} {wait : Int} {rs : List (Reading V)}

/-- What a run of the clock has returned, next to its history. -/
structure Returned (dtGetter : V → Int) (wait : Int) (rs : List (Reading V))
    (c : Option (Int × Int)) (ws : List Int) : Prop where
  slot : Summarizes dtGetter rs c
  length_eq : ws.length = rs.length
  value : ∀ pre r post, rs = pre ++ r :: post →
    ws[pre.length]? = some (historyWatermark dtGetter wait r.1 (pre ++ [r]))
  instant : ∀ w ∈ ws, minUtc ≤ w ∧ w ≤ maxUtc

theorem Returned.init : Returned dtGetter wait [] none [] :=
  ⟨.nothing rfl rfl, rfl, fun pre r post h => by simp at h, by simp⟩

theorem Returned.step (hmicro : InMicroseconds dtGetter wait) {c c' : Option (Int × Int)}
    {ws o : List Int} {r : Reading V} (h : Returned dtGetter wait rs c ws)
    (hs : readStep dtGetter wait c r = some (c', o)) :
    Returned dtGetter wait (rs ++ [r]) c' (ws ++ o) := by
  obtain ⟨⟨c₁, w⟩, hw, he⟩ := Option.map_eq_some_iff.mp hs
  cases he
  obtain ⟨hval, hmin, hmax⟩ := h.slot.watermark_eq hmicro hw
  refine ⟨h.slot.step hmicro hw, by simp [h.length_eq], fun pre r' post he => ?_, fun w' hw' => ?_⟩
  · rcases Runs.split_concat he with ⟨rfl, rfl, -⟩ | ⟨post', -, rfl⟩
    · rw [← h.length_eq, List.getElem?_concat_length, hval]
    · have hlt : pre.length < ws.length := by
        rw [h.length_eq]
        simp
      rw [List.getElem?_append_left hlt]
      exact h.value pre r' post' rfl
  · rcases List.mem_append.mp hw' with hw' | hw'
    · exact h.instant w' hw'
    · obtain rfl := List.mem_singleton.mp hw'
      exact ⟨hmin, hmax⟩

theorem returned_of_run (hmicro : InMicroseconds dtGetter wait) {c : Option (Int × Int)}
    {ws : List Int} (hr : Runs.run (readStep dtGetter wait) none rs = some (c, ws)) :
    Returned dtGetter wait rs c ws :=
  Runs.run_prefixes (P := Returned dtGetter wait)
    (fun _ _ _ _ _ _ _ _ _ h hs => h.step hmicro hs) .init hr

/-- While system time does not go back, the watermark does not. -/
theorem Returned.pairwise {c : Option (Int × Int)} {ws : List Int}
    (h : Returned dtGetter wait rs c ws) (hnow : (rs.map Prod.fst).Pairwise (· ≤ ·)) :
    ws.Pairwise (· ≤ ·) := by
  have hval : ∀ i (hi : i < ws.length), ∃ hi' : i < rs.length,
      ws[i] = historyWatermark dtGetter wait rs[i].1 (rs.take (i + 1)) := by
    intro i hi
    have hi' : i < rs.length := h.length_eq ▸ hi
    have hv := h.value (rs.take i) rs[i] (rs.drop (i + 1)) (by simp)
    rw [List.length_take_of_le hi'.le, List.getElem?_eq_getElem hi, List.take_append_getElem hi'] at hv
    exact ⟨hi', Option.some.inj hv⟩
  rw [List.pairwise_iff_getElem] at hnow ⊢
  intro i j hi hj hij
  obtain ⟨hi', hwi⟩ := hval i hi
  obtain ⟨hj', hwj⟩ := hval j hj
  have hle := hnow i j (by simpa using hi') (by simpa using hj') hij
  simp only [List.getElem_map] at hle
  have hmin := (h.instant _ (List.getElem_mem hj)).1
  have hmax := (h.instant _ (List.getElem_mem hi)).2
  rw [hwi] at hmax ⊢
  rw [hwj] at hmin ⊢
  exact historyWatermark_mono (List.take_prefix_take_left (by omega)) hle hmin hmax

theorem exists_run (hmicro : InMicroseconds dtGetter wait) (h : NoOverflow dtGetter wait rs) :
    ∃ c ws, Runs.run (readStep dtGetter wait) none rs = some (c, ws) := by
  induction rs using List.reverseRecOn with
  | nil => exact ⟨none, [], rfl⟩
  | append_singleton rs r ih =>
    obtain ⟨c, ws, hr⟩ := ih fun pre r' post he => h pre r' (post ++ [r]) (by simp [he])
    obtain ⟨c', w, hw⟩ := (returned_of_run hmicro hr).slot.exists_watermark (h rs r [] rfl)
    have hs : readStep dtGetter wait c r = some (c', [w]) := by
      unfold readStep
      rw [hw]
      rfl
    exact ⟨c', ws ++ [w], Runs.run_append_of_eq_some hr (Runs.run_singleton.trans hs)⟩

end Run

/-- **One slot is enough.**  Whatever arrives at whatever readings of system time, each call of
`watermark` returns the watermark of all items seen so far, the end of time once the input has
ended, and the beginning of time before there is an item; and while system time does not go back,
neither do the watermarks.  The calls only fail where date arithmetic overflows. -/
theorem watermark_of_history (dtGetter : V → Int) (wait : Int)
    (hmicro : InMicroseconds dtGetter wait) (rs : List (Reading V)) :
    (∀ c ws, Runs.run (readStep dtGetter wait) none rs = some (c, ws) →
      ws.length = rs.length ∧
      (∀ pre r post, rs = pre ++ r :: post →
        ws[pre.length]? = some (historyWatermark dtGetter wait r.1 (pre ++ [r]))) ∧
      ((rs.map Prod.fst).Pairwise (· ≤ ·) → ws.Pairwise (· ≤ ·))) ∧
    (NoOverflow dtGetter wait rs →
      ∃ c ws, Runs.run (readStep dtGetter wait) none rs = some (c, ws)) := by
  refine ⟨fun c ws hr => ?_, exists_run hmicro⟩
  have h := returned_of_run hmicro hr
  exact ⟨h.length_eq, h.value, h.pairwise⟩

/-- Readings in seconds: nothing, an item, nothing, a later item, one that is slower than system
time, the end of the input, and once more. -/
def secondReadings : List (Reading Int) :=
  [(100, .pending), (100, .ready (some 40)), (102, .pending), (104, .ready (some 100)),
    (106, .ready (some 101)), (108, .ready none), (110, .ready none)].map
    fun r => (r.1 * 1000000000, r.2)

theorem watermark_of_history_seconds :
    InMicroseconds (· * 1000000000) 10000000000 ∧
    ∀ c ws, Runs.run (readStep (· * 1000000000) 10000000000) none secondReadings = some (c, ws) →
      ws.length = secondReadings.length ∧
      (∀ pre r post, secondReadings = pre ++ r :: post → ws[pre.length]? =
        some (historyWatermark (· * 1000000000) 10000000000 r.1 (pre ++ [r]))) ∧
      ((secondReadings.map Prod.fst).Pairwise (· ≤ ·) → ws.Pairwise (· ≤ ·)) := by
  have hmicro : InMicroseconds (· * 1000000000) 10000000000 :=
    ⟨fun event => Int.dvd_mul_of_dvd_right (by decide), by decide⟩
  exact ⟨hmicro, (watermark_of_history _ _ hmicro secondReadings).1⟩

example : (Runs.run (readStep (· * 1000000000) 10000000000) none secondReadings).map Prod.snd =
    some [minUtc, 30000000000, 32000000000, 90000000000, 92000000000, maxUtc, maxUtc] := by
  decide +kernel

end EventClock

end Bytewax
