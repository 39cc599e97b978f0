import Bytewax.Window.SessionValues
import Bytewax.Window.Sliding

/-!
# Bytewax.Window.NextClose — the next window to close

`next_close` schedules the next awakening of a key.  The sliding windower takes the least of its
close times; the session windower takes the close time of its last session, which is the latest.
-/

namespace Bytewax

open WindowStatefulLogic

variable {V R L C W : Type}

/-- `next` is the least of the instants at which windows close, if there is one. -/
structure IsNextClose (closes : List Int) (next : Option Int) : Prop where
  none_iff : next = none ↔ closes = []
  least : ∀ c, next = some c → c ∈ closes ∧ ∀ c' ∈ closes, c ≤ c'

theorem isNextClose_min? (closes : List Int) : IsNextClose closes closes.min? where
  none_iff := List.min?_eq_none_iff
  least _ h := List.min?_eq_some_iff.mp h

namespace SlidingWindower

/-- The instants at which the windows of a windower close. -/
def closes (ct : SlidingWindower) : List Int := ct.values.map Prod.snd

theorem isNextClose (ct : SlidingWindower) : IsNextClose ct.closes ct.nextClose :=
  isNextClose_min? _

end SlidingWindower

namespace SessionWindower

variable {sorter : UnstableSort} {gap : Int} {w w' : SessionWindower}

/-- The instants at which the sessions of a windower close. -/
def closes (gap : Int) (w : SessionWindower) : List Int :=
  w.sessions.map fun s => s.latestEventTime + gap

/-- Every call that returns keeps the sessions apart. -/
theorem Inv.call {c : WindowerCall} {o : List WindowerResult} (hgap : 0 < gap) (hinv : w.Inv gap)
    (h : (sessionWindower sorter gap).call w c = some (w', o)) : w'.Inv gap := by
  cases c with
  | insert watermark itemTime =>
    obtain ⟨r, hr, he⟩ := Option.map_eq_some_iff.mp h
    obtain ⟨rfl, -⟩ := Prod.mk.inj he
    exact hinv.insert hgap hr
  | drainClosed watermark =>
    obtain ⟨r, hr, he⟩ := Option.map_eq_some_iff.mp h
    obtain ⟨rfl, -⟩ := Prod.mk.inj he
    replace hr : w.drainClosed gap watermark = some r := hr
    rw [drainClosed_eq hinv] at hr
    cases hr
    exact hinv.filter _

theorem Inv.run {calls : List WindowerCall} {o : List WindowerResult} (hgap : 0 < gap)
    (h : Runs.run (sessionWindower sorter gap).call (sessionWindower sorter gap).build calls =
      some (w, o)) : w.Inv gap :=
  Runs.run_induct (fun _ _ _ _ hinv _ hs => hinv.call hgap hs) Inv.build (Runs.along_true _ _) h

theorem nextClose_concat (hinv : w.Inv gap) {pre : List Session} {s : Session}
    (h : w.sessions = pre ++ [s]) : w.nextClose gap = some (some (s.latestEventTime + gap)) := by
  unfold nextClose
  rw [h, List.getLast?_concat]
  have hs : s ∈ w.sessions := by rw [h]; simp
  show (s.currentCloseTime gap).map some = _
  rw [Session.currentCloseTime, addDuration_of_fits (hinv.ok s hs).fits_latest]
  rfl

/-- The last session is the last one to close. -/
theorem closes_lt (hgap : 0 < gap) (hinv : w.Inv gap) {pre : List Session} {s : Session}
    (h : w.sessions = pre ++ [s]) {a : Session} (ha : a ∈ pre) :
    a.latestEventTime + gap < s.latestEventTime + gap := by
  have hbefore := hinv.before
  rw [h, List.pairwise_append] at hbefore
  have hab := hbefore.2.2 a ha s (by simp)
  have := (hinv.ok s (by rw [h]; simp)).span
  unfold Session.Before at hab
  omega

/-- The next close of a session windower is right just when at most one session is open. -/
theorem isNextClose_iff (hgap : 0 < gap) (hinv : w.Inv gap) :
    (∃ next, w.nextClose gap = some next ∧ IsNextClose (w.closes gap) next) ↔
      w.sessions.length ≤ 1 := by
  rcases List.eq_nil_or_concat w.sessions with hnil | ⟨pre, s, h⟩
  · unfold nextClose closes
    rw [hnil]
    exact ⟨fun _ => Nat.zero_le 1, fun _ => ⟨none, rfl, ⟨fun _ => rfl, fun _ => rfl⟩, nofun⟩⟩
  · rw [List.concat_eq_append] at h
    have hcloses : w.closes gap =
        (pre.map fun a => a.latestEventTime + gap) ++ [s.latestEventTime + gap] := by
      rw [closes, h, List.map_append, List.map_singleton]
    rw [nextClose_concat hinv h, hcloses, h, List.length_append, List.length_singleton]
    constructor
    · rintro ⟨next, hnext, hmin⟩
      cases hnext
      cases pre with
      | nil => exact Nat.le_refl 1
      | cons a pre =>
        have hle := (hmin.least _ rfl).2 (a.latestEventTime + gap) (by simp)
        have hlt := closes_lt hgap hinv h (List.mem_cons_self (a := a))
        omega
    · intro hlen
      have hpre : pre = [] := List.length_eq_zero_iff.mp (by omega)
      subst hpre
      refine ⟨_, rfl, ⟨nofun, nofun⟩, ?_⟩
      rintro c ⟨⟩
      exact ⟨List.mem_singleton_self _, fun c' hc' => (List.mem_singleton.mp hc').ge⟩

end SessionWindower

/-! ### The next awakening of a key -/

/-- The instants at which the windows of a key close. -/
def closesOf (closes : W → List Int) (s : KeyState (WindowStatefulLogic C W L)) : List Int :=
  (s.currentLogic.map fun l => closes l.windower).getD []

section Awakening

variable {clock : Clock V C} {logic : WindowLogic V R L} {sorter : UnstableSort} {gap : Int}
  {cfg : SlidingConfig}

theorem isNextClose_of_scheduled {s : KeyState (WindowStatefulLogic C SlidingWindower L)}
    (h : s.Scheduled (stateful clock (slidingWindower cfg) logic)) :
    IsNextClose (closesOf SlidingWindower.closes s) s.currentNextAwake := by
  rcases h with rfl | ⟨l, hl, hnext⟩
  · exact isNextClose_min? []
  · have hawake : l.windower.nextClose = s.currentNextAwake := Option.some.inj hnext
    rw [closesOf, hl, ← hawake]
    exact l.windower.isNextClose

/-- The sessions of a key whose logic is kept are apart. -/
def SessionsApart (gap : Int) (s : KeyState (WindowStatefulLogic C SessionWindower L)) : Prop :=
  ∀ l, s.currentLogic = some l → Tracks gap l

theorem SessionsApart.init :
    SessionsApart gap (KeyState.init : KeyState (WindowStatefulLogic C SessionWindower L)) := by
  rintro l ⟨⟩

theorem SessionsApart.awake (hgap : 0 < gap)
    {s s' : KeyState (WindowStatefulLogic C SessionWindower L)} (hs : SessionsApart gap s)
    {call : Call V} {events : List (WindowEvent V R)}
    (h : KeyState.awake (stateful clock (sessionWindower sorter gap) logic) s call =
      some (s', events)) : SessionsApart gap s' := by
  obtain ⟨l, hcall, ⟨-, rfl⟩ | ⟨-, next, -, rfl⟩⟩ := KeyState.awake_cases h
  · exact .init
  · rintro l' ⟨⟩
    have hbefore : Tracks gap (s.currentLogic.getD
        (stateful clock (sessionWindower sorter gap) logic).build) := by
      cases hl : s.currentLogic with
      | none =>
        have hbuild : Coupled gap logic [] (WindowStatefulLogic.build clock
          (sessionWindower sorter gap)) := .build
        exact hbuild.tracks
      | some l => exact hs l hl
    exact hbefore.step hgap hcall

theorem isNextClose_iff_of_scheduled (hgap : 0 < gap)
    {s : KeyState (WindowStatefulLogic C SessionWindower L)} (hs : SessionsApart gap s)
    (h : s.Scheduled (stateful clock (sessionWindower sorter gap) logic)) :
    IsNextClose (closesOf (SessionWindower.closes gap) s) s.currentNextAwake ↔
      (closesOf (SessionWindower.closes gap) s).length ≤ 1 := by
  rcases h with rfl | ⟨l, hl, hnext⟩
  · exact iff_of_true (isNextClose_min? []) (Nat.zero_le 1)
  · replace hnext : l.windower.nextClose gap = some s.currentNextAwake := hnext
    have hcloses : closesOf (SessionWindower.closes gap) s = l.windower.closes gap := by
      rw [closesOf, hl]
      rfl
    rw [hcloses, SessionWindower.closes, List.length_map, ← SessionWindower.closes,
      ← SessionWindower.isNextClose_iff hgap (hs l hl).inv, hnext]
    simp

end Awakening

/-- **When the next close is the earliest close**, in every reachable state of either windower:
always for sliding windows, and for sessions just when at most one of them is open.  So it is with
the next awakening of a key, which is that of the first of its windows to close. -/
theorem nextClose_iff (sorter : UnstableSort) {gap : Int} (hgap : GapAccepted gap)
    (cfg : SlidingConfig) (calls : List WindowerCall) (clock : Clock V C)
    (logic : WindowLogic V R L) (awakenings : List (Call V)) :
    (∀ ct o, Runs.run (slidingWindower cfg).call (slidingWindower cfg).build calls = some (ct, o) →
      ∃ next, (slidingWindower cfg).nextClose ct = some next ∧ IsNextClose ct.closes next) ∧
    (∀ w o, Runs.run (sessionWindower sorter gap).call (sessionWindower sorter gap).build calls =
        some (w, o) →
      ((∃ next, (sessionWindower sorter gap).nextClose w = some next ∧
        IsNextClose (w.closes gap) next) ↔ w.sessions.length ≤ 1)) ∧
    (∀ s events, Runs.run (KeyState.awake (stateful clock (slidingWindower cfg) logic))
        KeyState.init awakenings = some (s, events) →
      IsNextClose (closesOf SlidingWindower.closes s) s.currentNextAwake) ∧
    ∀ s events, Runs.run (KeyState.awake (stateful clock (sessionWindower sorter gap) logic))
        KeyState.init awakenings = some (s, events) →
      (IsNextClose (closesOf (SessionWindower.closes gap) s) s.currentNextAwake ↔
        (closesOf (SessionWindower.closes gap) s).length ≤ 1) := by
  have hpos : 0 < gap := pos_of_numMilliseconds_pos hgap
  refine ⟨fun ct _ _ => ⟨_, rfl, ct.isNextClose⟩, fun w o h => ?_, fun s events h => ?_,
    fun s events h => ?_⟩
  · exact SessionWindower.isNextClose_iff hpos (SessionWindower.Inv.run hpos h)
  · exact isNextClose_of_scheduled (Runs.run_induct (fun _ _ _ _ _ _ => KeyState.scheduled_awake)
      (.inl rfl) (Runs.along_true _ _) h)
  · obtain ⟨hs, hscheduled⟩ := Runs.run_induct
      (P := fun s => SessionsApart gap s ∧
        s.Scheduled (stateful clock (sessionWindower sorter gap) logic))
      (fun _ _ _ _ hs _ h => ⟨hs.1.awake hpos h, KeyState.scheduled_awake h⟩)
      ⟨.init, .inl rfl⟩ (Runs.along_true _ _) h
    exact isNextClose_iff_of_scheduled hpos hs hscheduled

/-- Items at 0 s, 12 s and 31 s, and then the watermark at 11 s. -/
def apartItems : List WindowerCall :=
  [.insert 0 0, .insert 0 12000000000, .insert 0 31000000000, .drainClosed 11000000000]

/-- Windows of ten seconds, every five seconds. -/
def everyFiveSeconds : SlidingConfig := ⟨10000000000, 5000000000, 0⟩

/-- Of the sliding windows four are open; of the sessions two, and one once the watermark is at
30 s.  A key with one open session is awoken when it closes. -/
theorem nextClose_iff_apartItems :
    (∃ ct o, Runs.run (slidingWindower everyFiveSeconds).call (slidingWindower everyFiveSeconds).build
        apartItems = some (ct, o) ∧
      ct.closes = [15000000000, 20000000000, 35000000000, 40000000000] ∧
      ∃ next, (slidingWindower everyFiveSeconds).nextClose ct = some next ∧
        IsNextClose ct.closes next) ∧
    (∃ w o, Runs.run (sessionWindower insertionSorter 10000000000).call
        (sessionWindower insertionSorter 10000000000).build apartItems = some (w, o) ∧
      w.closes 10000000000 = [22000000000, 41000000000] ∧
      ¬ ∃ next, (sessionWindower insertionSorter 10000000000).nextClose w = some next ∧
        IsNextClose (w.closes 10000000000) next) ∧
    (∃ w o, Runs.run (sessionWindower insertionSorter 10000000000).call
        (sessionWindower insertionSorter 10000000000).build
        (apartItems ++ [.drainClosed 30000000000]) = some (w, o) ∧
      w.closes 10000000000 = [41000000000] ∧
      ∃ next, (sessionWindower insertionSorter 10000000000).nextClose w = some next ∧
        IsNextClose (w.closes 10000000000) next) ∧
    ∃ s events, Runs.run (KeyState.awake (stateful (eventClock id 10000000000)
        (sessionWindower insertionSorter 10000000000) collectLogic)) KeyState.init threeSessions =
        some (s, events) ∧
      closesOf (SessionWindower.closes 10000000000) s = [50000000000] ∧
      IsNextClose (closesOf (SessionWindower.closes 10000000000) s) s.currentNextAwake := by
  have hgap : GapAccepted 10000000000 := by decide
  have hiff := fun calls => nextClose_iff insertionSorter hgap everyFiveSeconds calls
    (eventClock id 10000000000) collectLogic threeSessions
  have hsliding : (Runs.run (slidingWindower everyFiveSeconds).call
      (slidingWindower everyFiveSeconds).build apartItems).map (fun r => r.1.closes) =
      some [15000000000, 20000000000, 35000000000, 40000000000] := by decide +kernel
  have htwo : (Runs.run (sessionWindower insertionSorter 10000000000).call
      (sessionWindower insertionSorter 10000000000).build apartItems).map Prod.fst =
      some ⟨[⟨2, 12000000000, 12000000000⟩, ⟨3, 31000000000, 31000000000⟩], 3⟩ := by decide
  have hone : (Runs.run (sessionWindower insertionSorter 10000000000).call
      (sessionWindower insertionSorter 10000000000).build
      (apartItems ++ [.drainClosed 30000000000])).map Prod.fst =
      some ⟨[⟨3, 31000000000, 31000000000⟩], 3⟩ := by decide
  have hkey : (Runs.run (KeyState.awake (stateful (eventClock id 10000000000)
      (sessionWindower insertionSorter 10000000000) collectLogic)) KeyState.init threeSessions).map
      (fun r => closesOf (SessionWindower.closes 10000000000) r.1) = some [50000000000] := by
    decide +kernel
  obtain ⟨⟨ct, o⟩, hct, hcloses⟩ := Option.map_eq_some_iff.mp hsliding
  obtain ⟨⟨_, o₂⟩, hw₂, rfl⟩ := Option.map_eq_some_iff.mp htwo
  obtain ⟨⟨_, o₁⟩, hw₁, rfl⟩ := Option.map_eq_some_iff.mp hone
  obtain ⟨⟨s, events⟩, hs, hopen⟩ := Option.map_eq_some_iff.mp hkey
  refine ⟨⟨ct, o, hct, hcloses, (hiff apartItems).1 ct o hct⟩, ⟨_, o₂, hw₂, rfl, ?_⟩,
    ⟨_, o₁, hw₁, rfl, ?_⟩, s, events, hs, hopen, ?_⟩
  · exact fun h => absurd (((hiff apartItems).2.1 _ _ hw₂).mp h) (by decide)
  · exact ((hiff _).2.1 _ _ hw₁).mpr (by decide)
  · exact ((hiff []).2.2.2 s events hs).mpr (by rw [hopen]; decide)

/-- Two sessions, at 0 s and at 20 s: the one that closes at 10 s is passed over. -/
theorem not_isNextClose_two_sessions :
    ∃ w o, Runs.run (sessionWindower insertionSorter 10000000000).call ⟨[], 0⟩
        [.insert 0 0, .insert 0 20000000000] = some (w, o) ∧
      (sessionWindower insertionSorter 10000000000).nextClose w = some (some 30000000000) ∧
      w.closes 10000000000 = [10000000000, 30000000000] ∧
      ¬ IsNextClose (w.closes 10000000000) (some 30000000000) := by
  refine ⟨⟨[⟨1, 0, 0⟩, ⟨2, 20000000000, 20000000000⟩], 2⟩, _, rfl, by decide, by decide, ?_⟩
  intro h
  exact absurd ((h.least _ rfl).2 10000000000 (by decide)) (by decide)

end Bytewax
