import Bytewax.Lib.Chains
import Bytewax.Window.NextClose
import Mathlib.Algebra.Order.Group.Int

/-!
# Bytewax.Window.SessionChains — sessions are components

Whatever the order in which the accepted items arrive and the sessions are drained, the sessions
that were drained and those that are open are the components of the accepted times: the maximal
chains of times whose neighbours are less than a gap apart.
-/

namespace Bytewax

open Chains (IsChain IsComponent)

/-- The extent of a session. -/
def Session.span (s : Session) : Int × Int := (s.start, s.latestEventTime)

namespace WindowerCall

def watermark : WindowerCall → Int
  | .insert watermark _ => watermark
  | .drainClosed watermark => watermark

/-- The time of an item that is on time. -/
def acceptedTime? : WindowerCall → Option Int
  | .insert watermark itemTime => if itemTime < watermark then none else some itemTime
  | .drainClosed _ => none

end WindowerCall

/-- The times of the items that are on time. -/
def acceptedTimes (calls : List WindowerCall) : List Int :=
  calls.filterMap WindowerCall.acceptedTime?

/-- The open and close times that a drain reports. -/
def WindowerResult.span? : WindowerResult → Option (Int × Int)
  | .inserted _ => none
  | .closed _ metadata => some (metadata.openTime, metadata.closeTime)

namespace SessionWindower

variable {sorter : UnstableSort} {gap t watermark : Int} {w w' : SessionWindower} {T : Set Int}

/-- The open and close times of the sessions drained so far. -/
def drainedSpans (o : List WindowerResult) : List (Int × Int) := o.filterMap WindowerResult.span?

/-- The sessions drained so far and those that are open. -/
def spans (o : List WindowerResult) (w : SessionWindower) : List (Int × Int) :=
  drainedSpans o ++ w.sessions.map Session.span

/-! ### Chains -/

theorem of_contains {s : Session} (h : s.contains t gap = some true) :
    s.start ≤ t ∧ t < s.latestEventTime + gap := by
  unfold Session.contains at h
  by_cases hs : t ≥ s.start
  · rw [if_pos hs] at h
    obtain ⟨close, hclose, h⟩ := Option.bind_eq_some_iff.mp h
    obtain ⟨-, rfl⟩ := addDuration_eq_some.mp hclose
    exact ⟨hs, of_decide_eq_true (Option.some.inj h)⟩
  · rw [if_neg hs] at h
    cases h

theorem mergeStep_chains {acc acc' : List Session} {s : Session}
    (hacc : ∀ a ∈ acc, IsChain gap T a.span) (hs : IsChain gap T s.span)
    (h : mergeStep gap acc s = some acc') : ∀ a ∈ acc', IsChain gap T a.span := by
  rcases List.eq_nil_or_concat acc with rfl | ⟨l, p, rfl⟩
  · cases h
    intro a ha
    rw [List.mem_singleton.mp ha]
    exact hs
  · rw [List.concat_eq_append, mergeStep_concat] at h
    rw [List.concat_eq_append] at hacc
    obtain ⟨inside, hin, rfl⟩ := Option.map_eq_some_iff.mp h
    have hl : ∀ a ∈ l, IsChain gap T a.span := fun a ha => hacc a (List.mem_append_left _ ha)
    have hp : IsChain gap T p.span := hacc p (by simp)
    intro a ha
    cases inside with
    | false =>
      rcases List.mem_append.mp ha with ha | ha
      · exact hl a ha
      · rcases List.mem_cons.mp ha with rfl | ha
        · exact hp
        · rw [List.mem_singleton.mp ha]
          exact hs
    | true =>
      rcases List.mem_append.mp ha with ha | ha
      · exact hl a ha
      · obtain ⟨hle, hlt⟩ := of_contains hin
        rw [List.mem_singleton.mp ha]
        have hspan : (p.mergeWith s).span = (p.span.1, max p.span.2 s.span.2) :=
          Prod.ext (min_eq_left hle) rfl
        rw [hspan]
        exact hp.join hs hle hlt

theorem foldlM_mergeStep_chains {l acc acc' : List Session}
    (hacc : ∀ a ∈ acc, IsChain gap T a.span) (hl : ∀ s ∈ l, IsChain gap T s.span)
    (h : l.foldlM (mergeStep gap) acc = some acc') : ∀ a ∈ acc', IsChain gap T a.span := by
  induction l generalizing acc with
  | nil =>
    cases h
    exact hacc
  | cons s l ih =>
    rw [List.foldlM_cons] at h
    obtain ⟨acc₁, h₁, h₂⟩ := Option.bind_eq_some_iff.mp h
    rw [List.forall_mem_cons] at hl
    exact ih (mergeStep_chains hacc hl.1 h₁) hl.2 h₂

theorem insertFirst_chains {l l' : List Session} {key : Int} (ht : t ∈ T)
    (hl : ∀ s ∈ l, IsChain gap T s.span) (h : insertFirst gap t l = some (l', key)) :
    ∀ s ∈ l', IsChain gap T s.span := by
  induction l generalizing l' with
  | nil => cases h
  | cons s rest ih =>
    rw [List.forall_mem_cons] at hl
    obtain ⟨⟨s', inserted⟩, htry, h⟩ := Option.bind_eq_some_iff.mp h
    obtain ⟨inside, hin, htry⟩ := Option.bind_eq_some_iff.mp htry
    cases inside with
    | true =>
      cases htry
      cases h
      rw [List.forall_mem_cons]
      obtain ⟨hle, hlt⟩ := of_contains hin
      exact ⟨hl.1.join (Chains.IsChain.singleton ht) hle hlt, hl.2⟩
    | false =>
      cases htry
      obtain ⟨⟨rest', key'⟩, hrest, h⟩ := Option.bind_eq_some_iff.mp h
      cases h
      rw [List.forall_mem_cons]
      exact ⟨hl.1, ih hl.2 hrest⟩

/-- An insertion keeps the sessions chained, whatever the sort does. -/
theorem insert_chains {r : List (Except InsertError Int)} (hlate : ¬ t < watermark) (ht : t ∈ T)
    (hw : ∀ s ∈ w.sessions, IsChain gap T s.span)
    (h : w.insert sorter gap watermark t = some (w', r)) :
    ∀ s ∈ w'.sessions, IsChain gap T s.span := by
  rw [insert, if_neg hlate] at h
  obtain ⟨w₁, hmerge, h⟩ := Option.bind_eq_some_iff.mp h
  obtain ⟨sessions, hfold, hmerge⟩ := Option.bind_eq_some_iff.mp hmerge
  obtain ⟨⟨sessions', key⟩, hfirst, h⟩ := Option.bind_eq_some_iff.mp h
  cases hmerge
  cases h
  refine insertFirst_chains ht (foldlM_mergeStep_chains (by simp) ?_ hfold) hfirst
  intro s hs
  rcases List.mem_append.mp ((sorter.perm _).mem_iff.mp hs) with hs | hs
  · exact hw s hs
  · rw [List.mem_singleton.mp hs]
    exact Chains.IsChain.singleton ht

/-! ### Runs -/

/-- The accepted times, as a set. -/
def times (calls : List WindowerCall) : Set Int := fun t => t ∈ acceptedTimes calls

theorem times_concat_accepted {calls : List WindowerCall} {c : WindowerCall}
    (h : c.acceptedTime? = some t) {u : Int} : u ∈ times (calls ++ [c]) ↔ u ∈ times calls ∨ u = t := by
  show u ∈ acceptedTimes (calls ++ [c]) ↔ u ∈ acceptedTimes calls ∨ u = t
  unfold acceptedTimes
  rw [List.filterMap_append, List.mem_append, List.filterMap_cons, h]
  exact or_congr_right List.mem_singleton

theorem times_concat_none {calls : List WindowerCall} {c : WindowerCall}
    (h : c.acceptedTime? = none) : times (calls ++ [c]) = times calls := by
  unfold times acceptedTimes
  rw [List.filterMap_append, List.filterMap_cons, h, List.filterMap_nil, List.append_nil]

/-- What holds after the calls of a run: the sessions drained and open are chains of the accepted
times, a gap apart and in order, that cover them, and those drained closed by some watermark. -/
structure Tracks (gap : Int) (calls : List WindowerCall) (w : SessionWindower)
    (o : List WindowerResult) : Prop where
  inv : w.Inv gap
  chain : ∀ p ∈ spans o w, IsChain gap (times calls) p
  before : (spans o w).Pairwise (Chains.Before gap)
  cover : ∀ t ∈ times calls, ∃ p ∈ spans o w, p.1 ≤ t ∧ t ≤ p.2
  drained : ∀ p ∈ drainedSpans o, ∃ c ∈ calls, p.2 + gap ≤ c.watermark

theorem Tracks.build (gap : Int) : Tracks gap [] ⟨[], 0⟩ [] where
  inv := Inv.build
  chain _ hp := absurd hp List.not_mem_nil
  before := List.Pairwise.nil
  cover _ ht := absurd ht List.not_mem_nil
  drained _ hp := absurd hp List.not_mem_nil

variable {calls : List WindowerCall} {o o' : List WindowerResult}

theorem drainedSpans_append (o o' : List WindowerResult) :
    drainedSpans (o ++ o') = drainedSpans o ++ drainedSpans o' := List.filterMap_append

theorem drainedSpans_inserted (rs : List (Except InsertError Int)) :
    drainedSpans (rs.map .inserted) = [] := by
  rw [drainedSpans, List.filterMap_map, List.filterMap_eq_nil_iff]
  exact fun _ _ => rfl

theorem drainedSpans_closed (l : List Session) :
    drainedSpans ((l.map fun s => (s.key, s.metadata)).map fun c => .closed c.1 c.2) =
      l.map Session.span := by
  rw [drainedSpans, List.map_map, List.filterMap_map]
  exact congrFun (List.filterMap_eq_map (f := Session.span)) l

theorem drainedSpans_append_inserted (o : List WindowerResult)
    (rs : List (Except InsertError Int)) :
    drainedSpans (o ++ rs.map .inserted) = drainedSpans o := by
  rw [drainedSpans_append, drainedSpans_inserted, List.append_nil]

/-- A late item changes nothing. -/
theorem Tracks.late (h : Tracks gap calls w o) (hlate : t < watermark)
    (rs : List (Except InsertError Int)) :
    Tracks gap (calls ++ [.insert watermark t]) w (o ++ rs.map .inserted) := by
  have htimes : times (calls ++ [.insert watermark t]) = times calls :=
    times_concat_none (if_pos hlate)
  have hdrained := drainedSpans_append_inserted o rs
  have hspans : spans (o ++ rs.map .inserted) w = spans o w := by rw [spans, hdrained, spans]
  refine ⟨h.inv, ?_, hspans ▸ h.before, ?_, ?_⟩
  · rw [hspans, htimes]
    exact h.chain
  · rw [hspans, htimes]
    exact h.cover
  · rw [hdrained]
    intro p hp
    obtain ⟨c, hc, hle⟩ := h.drained p hp
    exact ⟨c, List.mem_append_left _ hc, hle⟩

/-- An accepted item goes into a session that replaces neighbouring ones. -/
theorem Tracks.insert (hgap : 0 < gap) (h : Tracks gap calls w o) (ht : ¬ t < watermark)
    (hmono : ∀ c ∈ calls, c.watermark ≤ watermark) {rs : List (Except InsertError Int)}
    (hins : w.insert sorter gap watermark t = some (w', rs)) :
    Tracks gap (calls ++ [.insert watermark t]) w' (o ++ rs.map .inserted) := by
  have hacc : (WindowerCall.insert watermark t).acceptedTime? = some t := if_neg ht
  have hsub : times calls ⊆ times (calls ++ [.insert watermark t]) := fun u hu =>
    (times_concat_accepted hacc).mpr (.inl hu)
  have hmem : t ∈ times (calls ++ [.insert watermark t]) :=
    (times_concat_accepted hacc).mpr (.inr rfl)
  have hinv' : w'.Inv gap := h.inv.insert hgap hins
  have hfit : Fits t gap := by
    by_contra hfit
    rw [insert_eq_none hgap h.inv ht hfit] at hins
    cases hins
  obtain ⟨pre, old, post, m, hrep, hins'⟩ := insert_spec sorter hgap h.inv ht hfit
  rw [hins'] at hins
  obtain ⟨hw, -⟩ := Prod.mk.inj (Option.some.inj hins)
  have hchain' : ∀ s ∈ w'.sessions, IsChain gap (times (calls ++ [.insert watermark t])) s.span := by
    refine insert_chains ht hmem (fun s hs => ?_) (hw ▸ hins')
    exact (h.chain s.span (List.mem_append_right _ (List.mem_map_of_mem hs))).mono hsub
  have hdrained := drainedSpans_append_inserted o rs
  have hmid : ∀ s ∈ w'.sessions, s = m ∨ s ∈ w.sessions := by
    rw [← hw]
    intro s hs
    rcases List.mem_append.mp hs with hs | hs
    · exact .inr (hrep.stays.subset (List.mem_append_left _ hs))
    · rcases List.mem_cons.mp hs with hs | hs
      · exact .inl hs
      · exact .inr (hrep.stays.subset (List.mem_append_right _ hs))
  obtain ⟨hb₁, hb₂, hb₃⟩ := List.pairwise_append.mp h.before
  have hold : ∀ d ∈ drainedSpans o, ∀ s ∈ w.sessions, d.2 + gap ≤ s.start := fun d hd s hs =>
    hb₃ d hd s.span (List.mem_map_of_mem hs)
  constructor
  · exact hinv'
  · intro p hp
    rw [spans, hdrained] at hp
    rcases List.mem_append.mp hp with hp | hp
    · exact (h.chain p (List.mem_append_left _ hp)).mono hsub
    · obtain ⟨s, hs, rfl⟩ := List.mem_map.mp hp
      exact hchain' s hs
  · rw [spans, hdrained, List.pairwise_append]
    refine ⟨hb₁, List.pairwise_map.mpr hinv'.before, ?_⟩
    intro d hd p hp
    obtain ⟨s, hs, rfl⟩ := List.mem_map.mp hp
    show d.2 + gap ≤ s.start
    rcases hmid s hs with rfl | hs
    · rcases hrep.joined.start_eq with he | ⟨s', hs', he⟩
      · obtain ⟨c, hc, hle⟩ := h.drained d hd
        have := hmono c hc
        omega
      · rw [he]
        exact hold d hd s' (hrep.split ▸ by simp [hs'])
    · exact hold d hd s hs
  · intro u hu
    rw [spans, hdrained]
    have hm : m.span ∈ w'.sessions.map Session.span :=
      List.mem_map_of_mem (by rw [← hw]; simp)
    rcases (times_concat_accepted hacc).mp hu with hu | rfl
    · obtain ⟨p, hp, hpu, hup⟩ := h.cover u hu
      rcases List.mem_append.mp hp with hp | hp
      · exact ⟨p, List.mem_append_left _ hp, hpu, hup⟩
      · obtain ⟨s, hs, rfl⟩ := List.mem_map.mp hp
        rw [hrep.split, List.append_assoc] at hs
        by_cases hso : s ∈ old
        · obtain ⟨h₁, h₂⟩ := hrep.joined.covers s hso
          exact ⟨m.span, List.mem_append_right _ hm, le_trans h₁ hpu, le_trans hup h₂⟩
        · have hs' : s ∈ w'.sessions := by
            rw [← hw]
            simp only [List.mem_append, List.mem_cons] at hs ⊢
            tauto
          exact ⟨s.span, List.mem_append_right _ (List.mem_map_of_mem hs'), hpu, hup⟩
    · exact ⟨m.span, List.mem_append_right _ hm, hrep.joined.start_le, hrep.joined.le_latest⟩
  · rw [hdrained]
    intro p hp
    obtain ⟨c, hc, hle⟩ := h.drained p hp
    exact ⟨c, List.mem_append_left _ hc, hle⟩

/-- A test that stays true along a list splits it. -/
theorem filter_not_append_filter {α : Type} {q : α → Bool} {l : List α}
    (h : l.Pairwise fun a b => q a = true → q b = true) :
    (l.filter fun a => !q a) ++ l.filter q = l := by
  induction l with
  | nil => rfl
  | cons a l ih =>
    obtain ⟨ha, hl⟩ := List.pairwise_cons.mp h
    cases hq : q a with
    | true =>
      have hall : ∀ b ∈ l, q b = true := fun b hb => ha b hb hq
      have hnone : l.filter (fun b => !q b) = [] := by
        rw [List.filter_eq_nil_iff]
        intro b hb
        rw [hall b hb]
        decide
      rw [List.filter_cons_of_neg (by rw [hq]; decide), List.filter_cons_of_pos hq, hnone,
        List.filter_eq_self.mpr hall, List.nil_append]
    | false =>
      rw [List.filter_cons_of_pos (by rw [hq]; rfl), List.filter_cons_of_neg (by rw [hq]; decide),
        List.cons_append, ih hl]

/-- A drain takes sessions from the front: they close before those that stay open. -/
theorem drainClosed_split (hgap : 0 < gap) (hinv : w.Inv gap)
    {closed : List (Int × WindowMetadata)}
    (h : w.drainClosed gap watermark = some (w', closed)) :
    w'.Inv gap ∧ ∃ old, w.sessions = old ++ w'.sessions ∧
      closed = old.map (fun s => (s.key, s.metadata)) ∧ ∀ s ∈ old, s.latestEventTime + gap ≤ watermark := by
  rw [drainClosed_eq hinv] at h
  obtain ⟨rfl, rfl⟩ := Prod.mk.inj (Option.some.inj h)
  refine ⟨hinv.filter _, w.sessions.filter fun s => !decide (watermark < s.latestEventTime + gap),
    ?_, ?_, ?_⟩
  · refine (filter_not_append_filter (hinv.before.imp_of_mem fun {a b} _ hb hab hopen => ?_)).symm
    have := (hinv.ok b hb).span
    have := of_decide_eq_true hopen
    unfold Session.Before at hab
    exact decide_eq_true (by omega)
  · congr 2
    ext s
    rw [decide_not]
  · intro s hs
    obtain ⟨-, hclosed⟩ := List.mem_filter.mp hs
    rw [Bool.not_eq_true', decide_eq_false_iff_not] at hclosed
    exact not_lt.mp hclosed

theorem Tracks.drainClosed (hgap : 0 < gap) (h : Tracks gap calls w o)
    {closed : List (Int × WindowMetadata)}
    (hdrain : w.drainClosed gap watermark = some (w', closed)) :
    Tracks gap (calls ++ [.drainClosed watermark]) w' (o ++ closed.map fun c => .closed c.1 c.2) := by
  have htimes : times (calls ++ [.drainClosed watermark]) = times calls := times_concat_none rfl
  obtain ⟨hinv', old, hsplit, rfl, hclosed⟩ := drainClosed_split hgap h.inv hdrain
  have hdrained : drainedSpans (o ++ (old.map fun s => (s.key, s.metadata)).map
      fun c => .closed c.1 c.2) = drainedSpans o ++ old.map Session.span := by
    rw [drainedSpans_append, drainedSpans_closed]
  have hspans : spans (o ++ (old.map fun s => (s.key, s.metadata)).map
      fun c => .closed c.1 c.2) w' = spans o w := by
    rw [spans, hdrained, spans, hsplit, List.map_append, List.append_assoc]
  refine ⟨hinv', ?_, hspans ▸ h.before, ?_, ?_⟩
  · rw [hspans, htimes]
    exact h.chain
  · rw [hspans, htimes]
    exact h.cover
  · rw [hdrained]
    intro p hp
    rcases List.mem_append.mp hp with hp | hp
    · obtain ⟨c, hc, hle⟩ := h.drained p hp
      exact ⟨c, List.mem_append_left _ hc, hle⟩
    · obtain ⟨s, hs, rfl⟩ := List.mem_map.mp hp
      exact ⟨.drainClosed watermark, by simp, hclosed s hs⟩

/-- The watermarks of the calls do not go back. -/
def Forward (calls : List WindowerCall) : Prop :=
  (calls.map WindowerCall.watermark).Pairwise (· ≤ ·)

theorem tracks_of_run (sorter : UnstableSort) (hgap : 0 < gap) (hfwd : Forward calls)
    (h : Runs.run (sessionWindower sorter gap).call (sessionWindower sorter gap).build calls =
      some (w, o)) : Tracks gap calls w o := by
  refine Runs.run_prefixes (P := Tracks gap) ?_ (Tracks.build gap) h
  rintro pre c post s o s₁ o₁ rfl - htr hcall
  have hmono : ∀ c' ∈ pre, c'.watermark ≤ c.watermark := by
    unfold Forward at hfwd
    rw [List.map_append, List.map_cons, List.pairwise_append] at hfwd
    exact fun c' hc' => hfwd.2.2 _ (List.mem_map_of_mem hc') _ List.mem_cons_self
  cases c with
  | insert watermark itemTime =>
    obtain ⟨r, hr, he⟩ := Option.map_eq_some_iff.mp hcall
    obtain ⟨rfl, rfl⟩ := Prod.mk.inj he
    by_cases hlate : itemTime < watermark
    · replace hr : s.insert sorter gap watermark itemTime = some r := hr
      rw [SessionWindower.insert, if_pos hlate] at hr
      cases hr
      exact htr.late hlate _
    · exact htr.insert hgap hlate hmono hr
  | drainClosed watermark =>
    obtain ⟨r, hr, he⟩ := Option.map_eq_some_iff.mp hcall
    obtain ⟨rfl, rfl⟩ := Prod.mk.inj he
    exact htr.drainClosed hgap hr

/-- A call returns when the close time of its item can be represented. -/
theorem exists_call (sorter : UnstableSort) (hgap : 0 < gap) (hinv : w.Inv gap) {c : WindowerCall}
    (hfits : ∀ t, c.acceptedTime? = some t → Fits t gap) :
    ∃ r, (sessionWindower sorter gap).call w c = some r := by
  cases c with
  | insert watermark itemTime =>
    have hins : ∃ r, w.insert sorter gap watermark itemTime = some r := by
      by_cases hlate : itemTime < watermark
      · exact ⟨_, if_pos hlate⟩
      · obtain ⟨pre, old, post, m, -, hins⟩ :=
          insert_spec sorter hgap hinv hlate (hfits itemTime (if_neg hlate))
        exact ⟨_, hins⟩
    obtain ⟨r, hr⟩ := hins
    exact ⟨_, Option.map_eq_some_iff.mpr ⟨r, hr, rfl⟩⟩
  | drainClosed watermark =>
    exact ⟨_, Option.map_eq_some_iff.mpr ⟨_, drainClosed_eq hinv, rfl⟩⟩

/-- The run returns just when the accepted times have representable close times. -/
theorem isSome_run_iff (sorter : UnstableSort) (hgap : 0 < gap) (calls : List WindowerCall) :
    (Runs.run (sessionWindower sorter gap).call (sessionWindower sorter gap).build calls).isSome ↔
      ∀ t ∈ acceptedTimes calls, Fits t gap := by
  constructor
  · intro hsome t ht
    obtain ⟨⟨w, o⟩, h⟩ := Option.isSome_iff_exists.mp hsome
    obtain ⟨c, hc, hct⟩ := List.mem_filterMap.mp ht
    have halong : Runs.Along (sessionWindower sorter gap).call (fun s _ => s.Inv gap)
        (sessionWindower sorter gap).build calls :=
      Runs.along_of_invariant (fun _ _ _ _ _ hinv hcall => hinv.call hgap hcall)
        (fun _ _ _ hinv => hinv) Inv.build
    obtain ⟨s, s₁, o₁, hinv, hcall⟩ := halong.exists_of_mem h hc
    cases c with
    | insert watermark itemTime =>
      obtain ⟨r, hr, -⟩ := Option.map_eq_some_iff.mp hcall
      by_cases hlate : itemTime < watermark
      · rw [WindowerCall.acceptedTime?, if_pos hlate] at hct
        cases hct
      · rw [WindowerCall.acceptedTime?, if_neg hlate] at hct
        cases hct
        by_contra hfit
        replace hr : s.insert sorter gap watermark t = some r := hr
        rw [insert_eq_none hgap hinv hlate hfit] at hr
        cases hr
    | drainClosed watermark => cases hct
  · intro hfits
    have hstep : ∀ (s : SessionWindower) (c : WindowerCall) (calls : List WindowerCall),
        (s.Inv gap ∧ ∀ t ∈ acceptedTimes (c :: calls), Fits t gap) →
        ∃ s₁ o₁, (sessionWindower sorter gap).call s c = some (s₁, o₁) ∧
          s₁.Inv gap ∧ ∀ t ∈ acceptedTimes calls, Fits t gap := by
      rintro s c calls ⟨hinv, hfits⟩
      have hrest : ∀ t ∈ acceptedTimes calls, Fits t gap := fun t ht =>
        hfits t (((List.sublist_cons_self c calls).filterMap _).subset ht)
      obtain ⟨r, hr⟩ := exists_call sorter hgap hinv (c := c) fun t ht =>
        hfits t (List.mem_filterMap.mpr ⟨c, List.mem_cons_self, ht⟩)
      exact ⟨r.1, r.2, hr, hinv.call hgap hr, hrest⟩
    obtain ⟨w, o, h, -⟩ := Runs.run_total_rest (sessionWindower sorter gap).call
      (P := fun s calls => s.Inv gap ∧ ∀ t ∈ acceptedTimes calls, Fits t gap) hstep
      (s := (sessionWindower sorter gap).build) ⟨Inv.build, hfits⟩
    rw [h]
    rfl

end SessionWindower

open SessionWindower in
/-- **Sessions are the gap-connected components** of the accepted times, and so do not depend on
the order of their arrival. -/
theorem sessions_are_components (sorter : UnstableSort) {gap : Int} (hgap : GapAccepted gap)
    {calls : List WindowerCall} (hfwd : Forward calls) :
    ((Runs.run (sessionWindower sorter gap).call (sessionWindower sorter gap).build calls).isSome ↔
      ∀ t ∈ acceptedTimes calls, Fits t gap) ∧
    ∀ w o, Runs.run (sessionWindower sorter gap).call (sessionWindower sorter gap).build calls =
        some (w, o) →
      (∀ p, p ∈ spans o w ↔ IsComponent gap (times calls) p) ∧ (spans o w).Nodup ∧
      ∀ sorter' calls' w' o', Forward calls' →
        Runs.run (sessionWindower sorter' gap).call (sessionWindower sorter' gap).build calls' =
          some (w', o') →
        (∀ t, t ∈ acceptedTimes calls' ↔ t ∈ acceptedTimes calls) → spans o' w' = spans o w := by
  have hpos : 0 < gap := pos_of_numMilliseconds_pos hgap
  refine ⟨isSome_run_iff sorter hpos calls, fun w o h => ?_⟩
  have htr := tracks_of_run sorter hpos hfwd h
  have hcomp : ∀ p, p ∈ spans o w ↔ IsComponent gap (times calls) p := fun p =>
    Chains.mem_iff_isComponent htr.chain htr.before htr.cover
  refine ⟨hcomp, ?_, fun sorter' calls' w' o' hfwd' h' hsame => ?_⟩
  · exact Chains.nodup_of_before hpos (fun p hp => (htr.chain p hp).le) htr.before
  · have htr' := tracks_of_run sorter' hpos hfwd' h'
    have htimes : times calls' = times calls := Set.ext hsame
    refine Chains.eq_of_before hpos (fun p hp => (htr'.chain p hp).le)
      (fun p hp => (htr.chain p hp).le) htr'.before htr.before fun p => ?_
    rw [hcomp, ← htimes]
    exact Chains.mem_iff_isComponent htr'.chain htr'.before htr'.cover

open SessionWindower in
/-- Items at 0 s, 25 s and 18 s, a drain at 11 s, a late item and one that joins the two sessions
left. -/
theorem sessions_are_components_ten_seconds :
    ∃ w o, Runs.run (sessionWindower insertionSorter 10000000000).call
        (sessionWindower insertionSorter 10000000000).build
        [.insert 0 0, .insert 0 25000000000, .insert 0 12000000000, .drainClosed 11000000000,
          .insert 11000000000 5000000000, .insert 11000000000 18000000000] = some (w, o) ∧
      ∀ p, p ∈ spans o w ↔ IsComponent 10000000000 (times [.insert 0 0, .insert 0 25000000000,
        .insert 0 12000000000, .drainClosed 11000000000, .insert 11000000000 5000000000,
        .insert 11000000000 18000000000]) p :=
  ⟨_, _, rfl, ((sessions_are_components insertionSorter (by decide)
    (by unfold Forward; decide)).2 _ _ rfl).1⟩

end Bytewax
