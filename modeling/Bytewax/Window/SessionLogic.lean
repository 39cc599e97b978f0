import Bytewax.Window.Logic
import Bytewax.Window.SessionInv

/-!
# Bytewax.Window.SessionLogic — `on_awake` with a session windower

The accumulators of the open sessions live in `current_state`, under the session's key.  A call
that keeps the open sessions apart keeps the two in step (`Coupled.step`).  An insertion that makes
one session swallow the next drops the key of the later one from the windower (`merge_with` keeps
the earlier key) but leaves its accumulator where it is, for good (`Orphaned.step`).
-/

namespace Bytewax

open Std (TreeMap)
open WindowStatefulLogic SessionWindower Session

variable {V R L C W : Type}

/-! ### One call -/

/-- The condition on a call: the clock can be read, and an item that is on time has a close time
and reaches no session that is open after it. -/
def KeepsSessionsApart (clock : Clock V C) (sorter : UnstableSort) (gap : Int)
    (s : WindowStatefulLogic C SessionWindower L) (call : Call V) : Prop :=
  ∃ c watermark, clock.watermark s.clock call.now call.nextValue = some (c, watermark) ∧
    ∀ value, call.nextValue = .ready (some value) →
      ¬ (clock.timeFor c call.itemNow value).2 < watermark →
      Fits (clock.timeFor c call.itemNow value).2 gap ∧
      KeepsApart sorter gap s.windower (clock.timeFor c call.itemNow value).2

theorem keepsSessionsApart_iff {clock : Clock V C} {sorter : UnstableSort} {gap : Int}
    {s : WindowStatefulLogic C SessionWindower L} {call : Call V} {c : C} {watermark : Int}
    (hw : clock.watermark s.clock call.now call.nextValue = some (c, watermark)) :
    KeepsSessionsApart clock sorter gap s call ↔ ∀ value, call.nextValue = .ready (some value) →
      ¬ (clock.timeFor c call.itemNow value).2 < watermark →
      Fits (clock.timeFor c call.itemNow value).2 gap ∧
      KeepsApart sorter gap s.windower (clock.timeFor c call.itemNow value).2 := by
  constructor
  · rintro ⟨c', watermark', hw', hitem⟩
    rw [hw] at hw'
    obtain ⟨rfl, rfl⟩ := Prod.mk.inj (Option.some.inj hw')
    exact hitem
  · exact fun hitem => ⟨c, watermark, hw, hitem⟩

instance (clock : Clock V C) (sorter : UnstableSort) (gap : Int)
    (s : WindowStatefulLogic C SessionWindower L) (call : Call V) :
    Decidable (KeepsSessionsApart clock sorter gap s call) :=
  match hw : clock.watermark s.clock call.now call.nextValue with
  | none => isFalse fun ⟨_, _, h, _⟩ => by simp [hw] at h
  | some (c, watermark) =>
    match hv : call.nextValue with
    | .ready (some value) => decidable_of_iff
        (¬ (clock.timeFor c call.itemNow value).2 < watermark →
          Fits (clock.timeFor c call.itemNow value).2 gap ∧
          KeepsApart sorter gap s.windower (clock.timeFor c call.itemNow value).2)
        (by simp [keepsSessionsApart_iff hw, hv])
    | .ready none => isTrue ⟨c, watermark, hw, fun value h => by simp [hv] at h⟩
    | .pending => isTrue ⟨c, watermark, hw, fun value h => by simp [hv] at h⟩

section Steps

variable {clock : Clock V C} {sorter : UnstableSort} {gap : Int} {logic : WindowLogic V R L}
  {s s' : WindowStatefulLogic C SessionWindower L} {events : List (WindowEvent V R)}

/-- The windower is in order and every session it tracks has its logic. -/
structure Tracks (gap : Int) (s : WindowStatefulLogic C SessionWindower L) : Prop where
  inv : s.windower.Inv gap
  tracked : ∀ q ∈ s.windower.sessions, q.key ∈ s.currentState

/-- The state after an item was folded into the session `m`. -/
def afterFold (logic : WindowLogic V R L) (s : WindowStatefulLogic C SessionWindower L) (c : C)
    (pre post : List Session) (m : Session) (value : V) (t : Int) :
    WindowStatefulLogic C SessionWindower L where
  clock := c
  windower := ⟨pre ++ m :: post, s.windower.maxKey + 1⟩
  currentState := s.currentState.insert m.key
    (logic.withNext (s.currentState.getD m.key logic.build) (some (value, t))).1

/-- The event of folding an item into the session `m`. -/
def foldEvent (logic : WindowLogic V R L) (s : WindowStatefulLogic C SessionWindower L)
    (m : Session) (value : V) (t : Int) : WindowEvent V R :=
  .folded m.key value t m.metadata
    (logic.withNext (s.currentState.getD m.key logic.build) (some (value, t))).2

/-- **What an item does.** -/
theorem acceptItem_item (sorter : UnstableSort) (logic : WindowLogic V R L) (hgap : 0 < gap)
    (hinv : s.windower.Inv gap) {watermark itemNow : Int}
    {value : V} {c : C} {t : Int} (htime : clock.timeFor s.clock itemNow value = (c, t)) :
    (t < watermark ∧ acceptItem clock (sessionWindower sorter gap) logic s watermark itemNow
        (.ready (some value)) = some ({ s with clock := c }, [.late s.windower.maxKey value])) ∨
    (¬ t < watermark ∧ ¬ Fits t gap ∧ acceptItem clock (sessionWindower sorter gap) logic s
        watermark itemNow (.ready (some value)) = none) ∨
    (¬ t < watermark ∧ Fits t gap ∧ ∃ pre old post m,
      Replaces sorter gap s.windower t pre old post m ∧
      acceptItem clock (sessionWindower sorter gap) logic s watermark itemNow
        (.ready (some value)) = some (afterFold logic s c pre post m value t,
          [foldEvent logic s m value t])) := by
  by_cases ht : t < watermark
  · refine .inl ⟨ht, ?_⟩
    simp [acceptItem, htime, sessionWindower, SessionWindower.insert, ht, Runs.run, onResult]
  · by_cases hfit : Fits t gap
    · obtain ⟨pre, old, post, m, hrep, hinsert⟩ :=
        insert_spec sorter hgap hinv ht hfit
      refine .inr (.inr ⟨ht, hfit, pre, old, post, m, hrep, ?_⟩)
      simp only [acceptItem, htime, sessionWindower, hinsert, Option.bind_eq_bind,
        Option.bind_some, Runs.run_singleton, onResult, hrep.getMetadata hinv]
      rfl
    · refine .inr (.inl ⟨ht, hfit, ?_⟩)
      simp [acceptItem, htime, sessionWindower, insert_eq_none hgap hinv ht hfit]

theorem acceptItem_cases (hgap : 0 < gap) (hinv : s.windower.Inv gap) {watermark itemNow : Int}
    {nextValue : Poll (Option V)} (h : acceptItem clock (sessionWindower sorter gap) logic s
      watermark itemNow nextValue = some (s', events)) :
    (∃ c, s' = { s with clock := c } ∧ foldList events = [] ∧ closes events = []) ∨
    ∃ c value t pre old post m, nextValue = .ready (some value) ∧
      clock.timeFor s.clock itemNow value = (c, t) ∧ ¬ t < watermark ∧ Fits t gap ∧
      Replaces sorter gap s.windower t pre old post m ∧
      s' = afterFold logic s c pre post m value t ∧ events = [foldEvent logic s m value t] := by
  rcases nextValue with (_ | value) | _
  · simp only [acceptItem, Option.some.injEq, Prod.mk.injEq] at h
    exact .inl ⟨s.clock, h.1.symm, by simp [← h.2, foldList], by simp [← h.2, closes]⟩
  · rcases htime : clock.timeFor s.clock itemNow value with ⟨c, t⟩
    rcases acceptItem_item sorter logic hgap hinv htime with
      ⟨-, hacc⟩ | ⟨-, -, hacc⟩ | ⟨ht, hfit, pre, old, post, m, hrep, hacc⟩ <;>
      rw [hacc] at h
    · simp only [Option.some.injEq, Prod.mk.injEq] at h
      exact .inl ⟨c, h.1.symm, by simp [← h.2, foldList, WindowEvent.fold?],
        by simp [← h.2, closes, WindowEvent.close?]⟩
    · exact absurd h (by simp)
    · simp only [Option.some.injEq, Prod.mk.injEq] at h
      exact .inr ⟨c, value, t, pre, old, post, m, rfl, htime, ht, hfit, hrep, h.1.symm, h.2.symm⟩
  · simp only [acceptItem, Option.some.injEq, Prod.mk.injEq] at h
    exact .inl ⟨s.clock, h.1.symm, by simp [← h.2, foldList], by simp [← h.2, closes]⟩

/-- **What closing windows does.** -/
theorem closeWindows_eq (sorter : UnstableSort) (logic : WindowLogic V R L) (h : Tracks gap s)
    (watermark : Int) :
    ∃ cur', closeWindows (sessionWindower sorter gap) logic s watermark =
        some ({ s with
            windower := ⟨s.windower.sessions.filter
              fun q => watermark < q.latestEventTime + gap, s.windower.maxKey⟩,
            currentState := cur' },
          closeEvents logic (fun k => s.currentState.getD k logic.build)
            ((s.windower.sessions.filter fun q => ¬ watermark < q.latestEventTime + gap).map
              fun q => (q.key, q.metadata))) ∧
      ∀ k, cur'[k]? = if ∃ q ∈ s.windower.sessions, ¬ watermark < q.latestEventTime + gap ∧
        q.key = k then none else s.currentState[k]? := by
  obtain ⟨cur', hrun, hcur'⟩ := run_onClosed logic
    ((s.windower.sessions.filter fun q => ¬ watermark < q.latestEventTime + gap).map
      fun q => (q.key, q.metadata)) s.currentState
    (by
      rw [List.map_map]
      exact h.inv.nodup.sublist (List.filter_sublist.map Session.key))
    (by
      intro c hc
      obtain ⟨q, hq, rfl⟩ := List.mem_map.mp hc
      exact h.tracked q (List.mem_of_mem_filter hq))
  refine ⟨cur', ?_, fun k => ?_⟩
  · simp only [closeWindows, sessionWindower, drainClosed_eq h.inv, Option.bind_eq_bind,
      Option.bind_some, hrun]
    rfl
  · rw [hcur' k]
    congr 1
    simp only [List.map_map, List.mem_map, List.mem_filter, Function.comp_apply, and_assoc,
      decide_eq_true_eq]

/-! ### Tracked and orphaned logics -/

theorem Tracks.accept (hgap : 0 < gap) (h : Tracks gap s) {watermark itemNow : Int}
    {nextValue : Poll (Option V)} (ha : acceptItem clock (sessionWindower sorter gap) logic s
      watermark itemNow nextValue = some (s', events)) : Tracks gap s' := by
  rcases acceptItem_cases hgap h.inv ha with
    ⟨c, rfl, -⟩ | ⟨c, value, t, pre, old, post, m, -, -, -, hfit, hrep, rfl, -⟩
  · exact ⟨h.inv, h.tracked⟩
  · refine ⟨hrep.inv h.inv hfit, fun q hq => ?_⟩
    rw [afterFold, TreeMap.mem_insert]
    rcases List.mem_append.mp hq with hq | hq
    · exact .inr (h.tracked q (hrep.stays.subset (List.mem_append_left _ hq)))
    · rcases List.mem_cons.mp hq with rfl | hq
      · exact .inl (by simp)
      · exact .inr (h.tracked q (hrep.stays.subset (List.mem_append_right _ hq)))

theorem Tracks.close (h : Tracks gap s) {watermark : Int}
    (hc : closeWindows (sessionWindower sorter gap) logic s watermark = some (s', events)) :
    Tracks gap s' := by
  obtain ⟨cur', heq, hcur'⟩ := closeWindows_eq sorter logic h watermark
  rw [heq] at hc
  simp only [Option.some.injEq, Prod.mk.injEq] at hc
  obtain ⟨rfl, -⟩ := hc
  refine ⟨h.inv.filter _, fun q hq => ?_⟩
  obtain ⟨hqs, hopen⟩ := List.mem_filter.mp hq
  rw [TreeMap.mem_iff_isSome_getElem?, hcur', if_neg, ← TreeMap.mem_iff_isSome_getElem?]
  · exact h.tracked q hqs
  · rintro ⟨r, hr, hclosed, hkey⟩
    obtain rfl := List.inj_on_of_nodup_map h.inv.nodup hr hqs hkey
    exact hclosed (by simpa using hopen)

theorem Tracks.step (hgap : 0 < gap) (h : Tracks gap s) {call : Call V}
    (hs : onAwake clock (sessionWindower sorter gap) logic s call = some (s', events)) :
    Tracks gap s' := by
  obtain ⟨c, watermark, mid, es, es', -, ha, hc, -⟩ := onAwake_eq_some.mp hs
  have h₀ : Tracks gap { s with clock := c } := ⟨h.inv, h.tracked⟩
  exact (h₀.accept hgap ha).close hc

/-- There is a logic in `current_state` whose session is gone for good. -/
def Orphaned (s : WindowStatefulLogic C SessionWindower L) : Prop :=
  ∃ k ∈ s.currentState, k ≤ s.windower.maxKey ∧ ∀ q ∈ s.windower.sessions, q.key ≠ k

theorem Orphaned.accept (hgap : 0 < gap) (h : Tracks gap s) (ho : Orphaned s)
    {watermark itemNow : Int} {nextValue : Poll (Option V)}
    (ha : acceptItem clock (sessionWindower sorter gap) logic s watermark itemNow nextValue =
      some (s', events)) : Orphaned s' := by
  obtain ⟨k, hk, hle, hne⟩ := ho
  rcases acceptItem_cases hgap h.inv ha with
    ⟨c, rfl, -⟩ | ⟨c, value, t, pre, old, post, m, -, -, -, hfit, hrep, rfl, -⟩
  · exact ⟨k, hk, hle, hne⟩
  · refine ⟨k, ?_, by dsimp only [afterFold]; omega, fun q hq => ?_⟩
    · rw [afterFold, TreeMap.mem_insert]
      exact .inr hk
    · rcases List.mem_cons.mp (List.perm_middle.mem_iff.mp hq) with rfl | hq
      · rcases hrep.joined.key_eq with he | ⟨o, hold, he⟩
        · omega
        · exact he ▸ hne o (hrep.split ▸ by simp [hold])
      · exact hne q (hrep.stays.subset hq)

theorem Orphaned.close (h : Tracks gap s) (ho : Orphaned s) {watermark : Int}
    (hc : closeWindows (sessionWindower sorter gap) logic s watermark = some (s', events)) :
    Orphaned s' := by
  obtain ⟨k, hk, hle, hne⟩ := ho
  obtain ⟨cur', heq, hcur'⟩ := closeWindows_eq sorter logic h watermark
  rw [heq] at hc
  simp only [Option.some.injEq, Prod.mk.injEq] at hc
  obtain ⟨rfl, -⟩ := hc
  refine ⟨k, ?_, hle, fun q hq => hne q (List.mem_of_mem_filter hq)⟩
  rw [TreeMap.mem_iff_isSome_getElem?, hcur', if_neg, ← TreeMap.mem_iff_isSome_getElem?]
  · exact hk
  · exact fun ⟨r, hr, _, hkey⟩ => hne r hr hkey

theorem Orphaned.step (hgap : 0 < gap) (h : Tracks gap s) (ho : Orphaned s) {call : Call V}
    (hs : onAwake clock (sessionWindower sorter gap) logic s call = some (s', events)) :
    Orphaned s' := by
  obtain ⟨c, watermark, mid, es, es', -, ha, hc, -⟩ := onAwake_eq_some.mp hs
  have h₀ : Tracks gap { s with clock := c } := ⟨h.inv, h.tracked⟩
  have hmid : Orphaned mid := Orphaned.accept hgap h₀ ho ha
  exact hmid.close (h₀.accept hgap ha) hc

/-- A session that is swallowed leaves its logic behind. -/
theorem orphaned_of_not_keepsApart (hgap : 0 < gap) (h : Tracks gap s) {call : Call V}
    (hnot : ¬ KeepsSessionsApart clock sorter gap s call)
    (hs : onAwake clock (sessionWindower sorter gap) logic s call = some (s', events)) :
    Orphaned s' := by
  obtain ⟨c, watermark, mid, es, es', hw, ha, hc, -⟩ := onAwake_eq_some.mp hs
  have h₀ : Tracks gap { s with clock := c } := ⟨h.inv, h.tracked⟩
  have hmid : Orphaned mid := by
    have hitem : ∃ value, call.nextValue = .ready (some value) ∧
        ¬ (clock.timeFor c call.itemNow value).2 < watermark ∧
        ¬ (Fits (clock.timeFor c call.itemNow value).2 gap ∧
          KeepsApart sorter gap s.windower (clock.timeFor c call.itemNow value).2) := by
      by_contra hno
      refine hnot ⟨c, watermark, hw, fun value hv ht => ?_⟩
      by_contra hbad
      exact hno ⟨value, hv, ht, hbad⟩
    obtain ⟨value, hv, ht, hbad⟩ := hitem
    rw [hv] at ha
    rcases htime : clock.timeFor c call.itemNow value with ⟨c', t⟩
    rw [htime] at ht hbad
    rcases acceptItem_item sorter logic hgap h₀.inv htime with
      ⟨hlate, -⟩ | ⟨-, -, hnone⟩ | ⟨-, hfit, pre, old, post, m, hrep, hacc⟩
    · exact absurd hlate ht
    · rw [hnone] at ha
      exact absurd ha (by simp)
    · rw [hacc] at ha
      simp only [Option.some.injEq, Prod.mk.injEq] at ha
      obtain ⟨rfl, -⟩ := ha
      -- some session that `m` replaces has another key
      obtain ⟨o, ho, hne⟩ : ∃ o ∈ old, o.key ≠ m.key := by
        by_contra hall
        refine hbad ⟨hfit, hrep.apart.mpr fun o ho => ?_⟩
        by_contra hne
        exact hall ⟨o, ho, hne⟩
      have hos : o ∈ s.windower.sessions := by
        have := hrep.split
        simp only at this
        rw [this]
        simp [ho]
      refine ⟨o.key, ?_, ?_, fun q hq => ?_⟩
      · rw [afterFold, TreeMap.mem_insert]
        exact .inr (h.tracked o hos)
      · have := h.inv.le_maxKey o hos
        dsimp only [afterFold]
        omega
      · rcases List.mem_cons.mp (List.perm_middle.mem_iff.mp hq) with rfl | hq
        · exact hne.symm
        · exact hrep.old_key_ne h₀.inv ho hq
  exact hmid.close (h₀.accept hgap ha) hc

/-! ### Runs without a swallowed session -/

/-- The windower, the logics and the events of a run so far are in step: each open session has the
logic of the values folded into it, and each closed one emitted the output of those. -/
structure Coupled (gap : Int) (logic : WindowLogic V R L) (events : List (WindowEvent V R))
    (s : WindowStatefulLogic C SessionWindower L) : Prop where
  inv : s.windower.Inv gap
  logic_of : ∀ k, s.currentState[k]? = if k ∈ s.windower.sessions.map Session.key then
    some (logic.after (folds k events)) else none
  covers : ∀ q ∈ s.windower.sessions, ∀ p ∈ folds q.key events, q.metadata.Covers p.2
  closed : ∀ c ∈ closes events, c.2.2 = logic.closeOutput (folds c.1 events) ∧
    ∀ p ∈ folds c.1 events, c.2.1.Covers p.2
  closed_nodup : ((closes events).map Prod.fst).Nodup
  closed_key : ∀ c ∈ closes events, c.1 ≤ s.windower.maxKey ∧
    c.1 ∉ s.windower.sessions.map Session.key
  fold_key : ∀ p ∈ foldList events, p.1 ∈ s.windower.sessions.map Session.key ∨
    p.1 ∈ (closes events).map Prod.fst

theorem Coupled.tracks {es : List (WindowEvent V R)} (h : Coupled gap logic es s) :
    Tracks gap s := by
  refine ⟨h.inv, fun q hq => ?_⟩
  rw [TreeMap.mem_iff_isSome_getElem?, h.logic_of, if_pos (List.mem_map_of_mem hq)]
  rfl

/-- No value was folded under a key that is still to be issued. -/
theorem Coupled.folds_newKey {es : List (WindowEvent V R)} (h : Coupled gap logic es s) {k : Int}
    (hk : s.windower.maxKey < k) : folds k es = [] := by
  refine Keyed.valuesOf_eq_nil fun hmem => ?_
  obtain ⟨p, hp, rfl⟩ := List.mem_map.mp hmem
  rcases h.fold_key p hp with hq | hc
  · obtain ⟨q, hq, he⟩ := List.mem_map.mp hq
    have := h.inv.le_maxKey q hq
    omega
  · obtain ⟨c, hc, he⟩ := List.mem_map.mp hc
    have := (h.closed_key c hc).1
    omega

theorem foldList_foldEvent (m : Session) (value : V) (t : Int) :
    foldList [foldEvent logic s m value t] = [(m.key, value, t)] := rfl

@[simp] theorem closes_foldEvent (m : Session) (value : V) (t : Int) :
    closes [foldEvent logic s m value t] = [] := rfl

theorem folds_foldEvent (m : Session) (value : V) (t : Int) (k : Int) :
    folds k [foldEvent logic s m value t] = if m.key = k then [(value, t)] else [] := by
  rw [folds, foldList_foldEvent, Keyed.valuesOf_cons]
  rfl

/-- What was known of the key under which an item is folded. -/
theorem Coupled.before_fold {es : List (WindowEvent V R)} (h : Coupled gap logic es s)
    {t : Int} {pre old post : List Session} {m : Session}
    (hrep : Replaces sorter gap s.windower t pre old post m) :
    s.currentState.getD m.key logic.build = logic.after (folds m.key es) ∧
      (∀ p ∈ folds m.key es, m.metadata.Covers p.2) ∧
      m.key ∉ (closes es).map Prod.fst := by
  rcases hrep.joined.key_eq with he | ⟨o, ho, he⟩
  · have hnil := h.folds_newKey (k := m.key) (by omega)
    have hnot : m.key ∉ s.windower.sessions.map Session.key := fun hmem => by
      obtain ⟨q, hq, hkey⟩ := List.mem_map.mp hmem
      have := h.inv.le_maxKey q hq
      omega
    refine ⟨?_, by simp [hnil], fun hmem => ?_⟩
    · rw [TreeMap.getD_eq_getD_getElem?, h.logic_of, if_neg hnot, hnil]
      rfl
    · obtain ⟨c, hc, hkey⟩ := List.mem_map.mp hmem
      have := (h.closed_key c hc).1
      omega
  · have hos : o ∈ s.windower.sessions := hrep.split ▸ by simp [ho]
    have hmem : m.key ∈ s.windower.sessions.map Session.key := he ▸ List.mem_map_of_mem hos
    refine ⟨?_, fun p hp => ?_, fun hc => ?_⟩
    · rw [TreeMap.getD_eq_getD_getElem?, h.logic_of, if_pos hmem]
      rfl
    · have hcov := h.covers o hos p (he ▸ hp)
      have hom := hrep.joined.covers o ho
      exact ⟨le_trans hom.1 hcov.1, le_trans hcov.2 hom.2⟩
    · obtain ⟨c, hc, hkey⟩ := List.mem_map.mp hc
      exact (h.closed_key c hc).2 (hkey ▸ hmem)

theorem Coupled.fold {es : List (WindowEvent V R)} (h : Coupled gap logic es s) {c : C}
    {t : Int} {pre old post : List Session} {m : Session} {value : V}
    (hrep : Replaces sorter gap s.windower t pre old post m) (hfit : Fits t gap)
    (hapart : KeepsApart sorter gap s.windower t) :
    Coupled gap logic (es ++ [foldEvent logic s m value t])
      (afterFold logic s c pre post m value t) := by
  obtain ⟨hlogic, hcovers, hnotClosed⟩ := h.before_fold hrep
  have hold := hrep.apart.mp hapart
  -- the keys that are tracked are those from before, with the key of `m`
  have hkeys : ∀ k, k ∈ (pre ++ m :: post).map Session.key ↔
      k = m.key ∨ k ∈ s.windower.sessions.map Session.key := by
    intro k
    simp only [hrep.split, List.map_append, List.map_cons, List.mem_append, List.mem_cons]
    constructor
    · rintro (hk | hk | hk)
      · exact .inr (.inl (.inl hk))
      · exact .inl hk
      · exact .inr (.inr hk)
    · rintro (hk | (hk | hk) | hk)
      · exact .inr (.inl hk)
      · exact .inl hk
      · obtain ⟨o, ho, rfl⟩ := List.mem_map.mp hk
        exact .inr (.inl (hold o ho))
      · exact .inr (.inr hk)
  have hcloses : closes (es ++ [foldEvent logic s m value t]) = closes es := by simp
  refine ⟨hrep.inv h.inv hfit, fun k => ?_, fun q hq p hp => ?_, fun d hd => ?_,
    hcloses ▸ h.closed_nodup, fun d hd => ?_, fun p hp => ?_⟩
  · rw [afterFold, TreeMap.getElem?_insert, folds_append, folds_foldEvent]
    by_cases hk : m.key = k
    · subst hk
      rw [if_pos (by simp), if_pos ((hkeys _).mpr (.inl rfl)), if_pos rfl, WindowLogic.after_concat,
        hlogic]
    · rw [if_neg (by simpa using hk), if_neg hk, List.append_nil, h.logic_of]
      have hiff := hkeys k
      rw [or_iff_right (Ne.symm hk)] at hiff
      simp only [hiff]
  · rw [folds_append, folds_foldEvent] at hp
    rcases List.mem_cons.mp (List.perm_middle.mem_iff.mp hq) with rfl | hq
    · rw [if_pos rfl] at hp
      rcases List.mem_append.mp hp with hp | hp
      · exact hcovers p hp
      · obtain rfl := List.mem_singleton.mp hp
        exact ⟨hrep.joined.start_le, hrep.joined.le_latest⟩
    · rw [if_neg (hrep.key_ne h.inv hq).symm, List.append_nil] at hp
      exact h.covers q (hrep.stays.subset hq) p hp
  · rw [hcloses] at hd
    have hne : m.key ≠ d.1 := fun he => hnotClosed (he ▸ List.mem_map_of_mem hd)
    rw [folds_append, folds_foldEvent, if_neg hne, List.append_nil]
    exact h.closed d hd
  · rw [hcloses] at hd
    obtain ⟨hle, hnot⟩ := h.closed_key d hd
    refine ⟨by dsimp only [afterFold]; omega, fun hmem => ?_⟩
    rcases (hkeys _).mp hmem with he | hmem
    · exact hnotClosed (he ▸ List.mem_map_of_mem hd)
    · exact hnot hmem
  · rw [foldList_append, foldList_foldEvent, List.mem_append, List.mem_singleton] at hp
    rw [hcloses]
    rcases hp with hp | rfl
    · exact (h.fold_key p hp).imp_left fun hmem => (hkeys _).mpr (.inr hmem)
    · exact .inl ((hkeys _).mpr (.inl rfl))

theorem Coupled.close {es : List (WindowEvent V R)} (h : Coupled gap logic es s)
    {watermark : Int}
    (hc : closeWindows (sessionWindower sorter gap) logic s watermark = some (s', events)) :
    Coupled gap logic (es ++ events) s' := by
  obtain ⟨cur', heq, hcur'⟩ :=
    closeWindows_eq sorter logic h.tracks watermark
  rw [heq] at hc
  simp only [Option.some.injEq, Prod.mk.injEq] at hc
  obtain ⟨rfl, rfl⟩ := hc
  -- the keys that stay are those of before without those that close
  have hstay : ∀ k, k ∈ (s.windower.sessions.filter
      fun q => watermark < q.latestEventTime + gap).map Session.key ↔
      k ∈ s.windower.sessions.map Session.key ∧ ¬ ∃ q ∈ s.windower.sessions,
        ¬ watermark < q.latestEventTime + gap ∧ q.key = k := by
    intro k
    simp only [List.mem_map, List.mem_filter, decide_eq_true_eq]
    constructor
    · rintro ⟨q, ⟨hq, hopen⟩, rfl⟩
      refine ⟨⟨q, hq, rfl⟩, fun ⟨r, hr, hclosed, hkey⟩ => ?_⟩
      obtain rfl := List.inj_on_of_nodup_map h.inv.nodup hr hq hkey
      exact hclosed hopen
    · rintro ⟨⟨q, hq, rfl⟩, hno⟩
      refine ⟨q, ⟨hq, ?_⟩, rfl⟩
      by_contra hclosed
      exact hno ⟨q, hq, hclosed, rfl⟩
  have hlogic : ∀ q ∈ s.windower.sessions,
      s.currentState.getD q.key logic.build = logic.after (folds q.key es) := fun q hq => by
    rw [TreeMap.getD_eq_getD_getElem?, h.logic_of, if_pos (List.mem_map_of_mem hq)]
    rfl
  refine ⟨h.inv.filter _, fun k => ?_, fun q hq p hp => ?_, fun d hd => ?_, ?_, fun d hd => ?_,
    fun p hp => ?_⟩
  · rw [hcur' k, h.logic_of]
    simp only [folds_append, folds_closeEvents, List.append_nil]
    have hiff := hstay k
    by_cases hgone : ∃ q ∈ s.windower.sessions, ¬ watermark < q.latestEventTime + gap ∧ q.key = k
    · rw [if_pos hgone, if_neg fun hmem => (hiff.mp hmem).2 hgone]
    · rw [if_neg hgone]
      simp only [hiff, hgone, not_false_eq_true, and_true]
  · simp only [folds_append, folds_closeEvents, List.append_nil] at hp
    exact h.covers q (List.mem_of_mem_filter hq) p hp
  · simp only [folds_append, folds_closeEvents, List.append_nil]
    rw [closes_append, closes_closeEvents, List.mem_append] at hd
    rcases hd with hd | hd
    · exact h.closed d hd
    · simp only [List.map_map, List.mem_map, Function.comp_apply] at hd
      obtain ⟨q, hq, rfl⟩ := hd
      have hq := List.mem_of_mem_filter hq
      exact ⟨by rw [hlogic q hq]; rfl, h.covers q hq⟩
  · rw [closes_append, closes_closeEvents, List.map_append, List.nodup_append]
    refine ⟨h.closed_nodup, ?_, fun a ha b hb hab => ?_⟩
    · simp only [List.map_map]
      exact h.inv.nodup.sublist (List.filter_sublist.map Session.key)
    · subst hab
      obtain ⟨d, hd, rfl⟩ := List.mem_map.mp ha
      simp only [List.map_map, List.mem_map, Function.comp_apply] at hb
      obtain ⟨q, hq, he⟩ := hb
      exact (h.closed_key d hd).2 (he ▸ List.mem_map_of_mem (List.mem_of_mem_filter hq))
  · rw [closes_append, closes_closeEvents, List.mem_append] at hd
    rcases hd with hd | hd
    · exact ⟨(h.closed_key d hd).1, fun hmem => (h.closed_key d hd).2 ((hstay _).mp hmem).1⟩
    · simp only [List.map_map, List.mem_map, Function.comp_apply] at hd
      obtain ⟨q, hq, rfl⟩ := hd
      obtain ⟨hq, hclosed⟩ := List.mem_filter.mp hq
      exact ⟨h.inv.le_maxKey q hq, fun hmem =>
        ((hstay _).mp hmem).2 ⟨q, hq, by simpa using hclosed, rfl⟩⟩
  · rw [foldList_append, foldList_closeEvents, List.append_nil] at hp
    rw [closes_append, closes_closeEvents, List.map_append, List.mem_append]
    rcases h.fold_key p hp with hopen | hd
    · by_cases hgone : ∃ q ∈ s.windower.sessions, ¬ watermark < q.latestEventTime + gap ∧
        q.key = p.1
      · obtain ⟨q, hq, hclosed, he⟩ := hgone
        refine .inr (.inr ?_)
        simp only [List.map_map, List.mem_map, Function.comp_apply]
        exact ⟨q, List.mem_filter.mpr ⟨hq, by simpa using hclosed⟩, he⟩
      · exact .inl ((hstay _).mpr ⟨hopen, hgone⟩)
    · exact .inr (.inl hd)

theorem Coupled.withClock {es : List (WindowEvent V R)} (h : Coupled gap logic es s) (c : C) :
    Coupled gap logic es { s with clock := c } :=
  ⟨h.inv, h.logic_of, h.covers, h.closed, h.closed_nodup, h.closed_key, h.fold_key⟩

/-- Events that fold and close nothing do not matter. -/
theorem Coupled.append {es : List (WindowEvent V R)} (h : Coupled gap logic es s)
    (hf : foldList events = []) (hc : closes events = []) :
    Coupled gap logic (es ++ events) s := by
  have hfolds : ∀ k, folds k (es ++ events) = folds k es := fun k => by simp [folds, hf]
  have hcloses : closes (es ++ events) = closes es := by simp [hc]
  have hlist : foldList (es ++ events) = foldList es := by simp [hf]
  constructor
  · exact h.inv
  · simpa only [hfolds] using h.logic_of
  · simpa only [hfolds] using h.covers
  · simpa only [hfolds, hcloses] using h.closed
  · simpa only [hcloses] using h.closed_nodup
  · simpa only [hcloses] using h.closed_key
  · simpa only [hlist, hcloses] using h.fold_key

/-- **A call that keeps the sessions apart** keeps the windower and the logics in step. -/
theorem Coupled.step (hgap : 0 < gap) {es : List (WindowEvent V R)} (h : Coupled gap logic es s)
    {call : Call V} (hsafe : KeepsSessionsApart clock sorter gap s call)
    (hs : onAwake clock (sessionWindower sorter gap) logic s call = some (s', events)) :
    Coupled gap logic (es ++ events) s' := by
  obtain ⟨c, watermark, mid, es₁, es₂, hw, ha, hc, rfl⟩ := onAwake_eq_some.mp hs
  have h₀ := h.withClock c
  have hmid : Coupled gap logic (es ++ es₁) mid := by
    rcases acceptItem_cases hgap h₀.inv ha with ⟨c', rfl, hf, hcl⟩ |
      ⟨c', value, t, pre, old, post, m, hv, htime, ht, hfit, hrep, rfl, rfl⟩
    · exact (h₀.withClock c').append hf hcl
    · refine h₀.fold hrep hfit ?_
      have hitem := (keepsSessionsApart_iff hw).mp hsafe value hv
      dsimp only at htime
      rw [htime] at hitem
      exact (hitem ht).2
  rw [← List.append_assoc]
  exact hmid.close hc

/-- A call that keeps the sessions apart does not panic. -/
theorem onAwake_isSome (logic : WindowLogic V R L) (hgap : 0 < gap) (h : Tracks gap s) {call : Call V}
    (hsafe : KeepsSessionsApart clock sorter gap s call) :
    ∃ s' es, onAwake clock (sessionWindower sorter gap) logic s call = some (s', es) := by
  obtain ⟨c, watermark, hw, hitem⟩ := hsafe
  have h₀ : Tracks gap { s with clock := c } := ⟨h.inv, h.tracked⟩
  have hacc : ∃ mid es, acceptItem clock (sessionWindower sorter gap) logic { s with clock := c }
      watermark call.itemNow call.nextValue = some (mid, es) := by
    rcases hv : call.nextValue with (_ | value) | _
    · exact ⟨_, _, rfl⟩
    · rcases htime : clock.timeFor c call.itemNow value with ⟨c', t⟩
      rcases acceptItem_item sorter logic hgap h₀.inv htime with
        ⟨-, hacc⟩ | ⟨ht, hfit, -⟩ | ⟨-, -, pre, old, post, m, -, hacc⟩
      · exact ⟨_, _, hacc⟩
      · have := hitem value hv
        rw [htime] at this
        exact absurd (this ht).1 hfit
      · exact ⟨_, _, hacc⟩
    · exact ⟨_, _, rfl⟩
  obtain ⟨mid, es, ha⟩ := hacc
  obtain ⟨cur', hc, -⟩ :=
    closeWindows_eq sorter logic (h₀.accept hgap ha) watermark
  exact ⟨_, _, onAwake_eq_some.mpr ⟨c, watermark, mid, es, _, hw, ha, hc, rfl⟩⟩

end Steps

end Bytewax
