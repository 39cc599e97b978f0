import Bytewax.Window.Session
import Mathlib.Data.List.Nodup

/-!
# Bytewax.Window.SessionInv — what an insertion does to the sessions

Between calls the sessions of a windower are at least a gap apart (`SessionWindower.Inv`).  So the
session made for an item can only be merged into the last one that starts no later, and can only
swallow the first one that starts no earlier: an insertion replaces zero, one or two neighbouring
sessions by one (`insert_spec`).  It panics exactly when the item's time plus the gap is out of
range.
-/

namespace Bytewax

namespace Session

variable {gap t : Int} {a b p q s : Session}

/-- `a` has closed by the time `b` starts. -/
def Before (gap : Int) (a b : Session) : Prop := a.latestEventTime + gap ≤ b.start

/-- A session with values: it has an extent, and its close time can be computed. -/
structure Ok (gap : Int) (s : Session) : Prop where
  span : s.start ≤ s.latestEventTime
  fits_start : Fits s.start gap
  fits_latest : Fits s.latestEventTime gap

theorem Ok.new {key : Int} (h : Fits t gap) : (new key t).Ok gap := ⟨le_rfl, h, h⟩

theorem isOpenAt_eq (h : Fits s.latestEventTime gap) :
    s.isOpenAt t gap = some (decide (t < s.latestEventTime + gap)) := by
  simp [isOpenAt, currentCloseTime, addDuration_of_fits h]

theorem contains_eq (h : Fits s.latestEventTime gap) :
    s.contains t gap = some (decide (s.start ≤ t ∧ t < s.latestEventTime + gap)) := by
  unfold contains
  by_cases hs : s.start ≤ t <;> simp [hs, isOpenAt_eq h]

theorem contains_eq_none (h : ¬ Fits s.latestEventTime gap) (hs : s.start ≤ t) :
    s.contains t gap = none := by
  rw [contains, if_pos hs]
  simp [isOpenAt, currentCloseTime, addDuration_eq_none h]

/-- A session that has closed by `t` does not contain it. -/
theorem contains_of_le (h : Fits s.latestEventTime gap) (ht : s.latestEventTime + gap ≤ t) :
    s.contains t gap = some false := by
  rw [contains_eq h]
  simp only [Option.some.injEq, decide_eq_false_iff_not, not_and]
  omega

theorem Before.start_lt (hgap : 0 < gap) (ha : a.Ok gap) (h : a.Before gap b) :
    a.start < b.start := by
  have := ha.span
  unfold Before at h
  omega

end Session

open Session

namespace SessionWindower

variable {sorter : UnstableSort} {gap t watermark : Int} {w w' : SessionWindower}

/-- The sessions of a windower between calls. -/
structure Inv (gap : Int) (w : SessionWindower) : Prop where
  ok : ∀ s ∈ w.sessions, s.Ok gap
  before : w.sessions.Pairwise (Before gap)
  nodup : (w.sessions.map Session.key).Nodup
  le_maxKey : ∀ s ∈ w.sessions, s.key ≤ w.maxKey

theorem Inv.build : Inv gap ⟨[], 0⟩ :=
  ⟨by simp, List.Pairwise.nil, List.nodup_nil, by simp⟩

/-! ### Sorting -/

theorem Inv.start_lt (hgap : 0 < gap) (hinv : w.Inv gap) :
    w.sessions.Pairwise fun a b => a.start < b.start :=
  hinv.before.imp_of_mem fun ha _ hab => hab.start_lt hgap (hinv.ok _ ha)

theorem Inv.eq_of_start_eq (hgap : 0 < gap) (hinv : w.Inv gap) {a b : Session}
    (ha : a ∈ w.sessions) (hb : b ∈ w.sessions) (h : a.start = b.start) : a = b :=
  have hstrict := hinv.start_lt hgap
  List.Pairwise.forall_of_forall_of_flip (R := fun a b => a.start = b.start → a = b)
    (fun _ _ _ => rfl) (hstrict.imp fun hlt heq => absurd heq (ne_of_lt hlt))
    (hstrict.imp fun hlt heq => absurd heq.symm (ne_of_lt hlt)) ha hb h

/-- The sort puts the pushed session in its place and leaves the others where they are. -/
theorem sort_concat (sorter : UnstableSort) (hgap : 0 < gap) (hinv : w.Inv gap) (n : Session) :
    ∃ before after, w.sessions = before ++ after ∧
      sorter.sort (w.sessions ++ [n]) = before ++ n :: after ∧
      (∀ s ∈ before, s.start ≤ n.start) ∧ ∀ s ∈ after, n.start ≤ s.start := by
  have hperm := sorter.perm (w.sessions ++ [n])
  have hsorted := sorter.sorted (w.sessions ++ [n])
  have hn : n ∈ sorter.sort (w.sessions ++ [n]) := hperm.mem_iff.mpr (by simp)
  obtain ⟨before, after, hsplit⟩ := List.append_of_mem hn
  rw [hsplit] at hperm hsorted
  have hrest : (before ++ after).Perm w.sessions := by
    have h1 : (n :: (before ++ after)).Perm (w.sessions ++ [n]) :=
      List.perm_middle.symm.trans hperm
    exact (h1.trans (List.perm_append_singleton n w.sessions)).cons_inv
  rw [List.pairwise_append, List.pairwise_cons] at hsorted
  obtain ⟨hbefore, ⟨hafter, hafters⟩, hcross⟩ := hsorted
  have heq : w.sessions = before ++ after := by
    have hle : w.sessions.Pairwise fun a b => a.start ≤ b.start :=
      (hinv.start_lt hgap).imp le_of_lt
    have hle' : (before ++ after).Pairwise fun a b => a.start ≤ b.start :=
      List.pairwise_append.mpr
        ⟨hbefore, hafters, fun a ha b hb => hcross a ha b (List.mem_cons_of_mem _ hb)⟩
    exact List.Perm.eq_of_pairwise (fun a b ha hb hab hba =>
      hinv.eq_of_start_eq hgap ha (hrest.mem_iff.mp hb) (le_antisymm hab hba)) hle hle' hrest.symm
  exact ⟨before, after, heq, hsplit, fun s hs => hcross s hs n List.mem_cons_self, hafter⟩

/-! ### Merging -/

theorem mergeStep_concat (l : List Session) (p s : Session) :
    mergeStep gap (l ++ [p]) s =
      (p.contains s.start gap).map fun inside =>
        if inside then l ++ [p.mergeWith s] else l ++ [p, s] := by
  simp only [mergeStep, List.getLast?_concat, List.dropLast_concat]
  cases p.contains s.start gap with
  | none => rfl
  | some inside => cases inside <;> rfl

theorem mergeStep_before (l : List Session) {p s : Session} (hp : p.Ok gap)
    (h : p.Before gap s) : mergeStep gap (l ++ [p]) s = some (l ++ [p, s]) := by
  rw [mergeStep_concat, contains_of_le hp.fits_latest h]
  rfl

/-- Sessions a gap apart are not merged. -/
theorem foldlM_mergeStep_before : ∀ (rest l : List Session) (p : Session),
    (∀ s ∈ p :: rest, s.Ok gap) → (p :: rest).Pairwise (Before gap) →
    rest.foldlM (mergeStep gap) (l ++ [p]) = some (l ++ p :: rest)
  | [], l, p, _, _ => rfl
  | s :: rest, l, p, hok, hpw => by
    rw [List.pairwise_cons] at hpw
    rw [List.foldlM_cons, mergeStep_before l (hok p (by simp)) (hpw.1 s (by simp))]
    have ih := foldlM_mergeStep_before rest (l ++ [p]) s
      (fun q hq => hok q (List.mem_cons_of_mem _ hq)) hpw.2
    simpa using ih

theorem foldlM_mergeStep_nil (l : List Session) (hok : ∀ s ∈ l, s.Ok gap)
    (hpw : l.Pairwise (Before gap)) : l.foldlM (mergeStep gap) [] = some l := by
  cases l with
  | nil => rfl
  | cons p rest =>
    rw [List.foldlM_cons]
    exact foldlM_mergeStep_before rest [] p hok hpw

/-! ### The session an item ends up in -/

/-- `m` takes the place of the neighbouring sessions `old` and of a new one for an item at `t`. -/
structure Joined (t newKey : Int) (old : List Session) (m : Session) : Prop where
  start_le : m.start ≤ t
  le_latest : t ≤ m.latestEventTime
  covers : ∀ s ∈ old, m.start ≤ s.start ∧ s.latestEventTime ≤ m.latestEventTime
  start_eq : m.start = t ∨ ∃ s ∈ old, m.start = s.start
  latest_eq : m.latestEventTime = t ∨ ∃ s ∈ old, m.latestEventTime = s.latestEventTime
  key_eq : m.key = newKey ∨ ∃ s ∈ old, m.key = s.key

theorem Joined.ok {newKey : Int} {old : List Session} {m : Session}
    (h : Joined t newKey old m) (hfit : Fits t gap) (hok : ∀ s ∈ old, s.Ok gap) : m.Ok gap where
  span := le_trans h.start_le h.le_latest
  fits_start := by
    rcases h.start_eq with he | ⟨s, hs, he⟩
    · exact he ▸ hfit
    · exact he ▸ (hok s hs).fits_start
  fits_latest := by
    rcases h.latest_eq with he | ⟨s, hs, he⟩
    · exact he ▸ hfit
    · exact he ▸ (hok s hs).fits_latest

/-- The new session stays one of its own. -/
theorem Joined.new {newKey : Int} : Joined t newKey [] (Session.new newKey t) where
  start_le := le_rfl
  le_latest := le_rfl
  covers := by simp
  start_eq := .inl rfl
  latest_eq := .inl rfl
  key_eq := .inl rfl

/-- The new session is merged into the one before it. -/
theorem Joined.join {newKey : Int} {p : Session} (hp : p.start ≤ t) :
    Joined t newKey [p] (p.mergeWith (Session.new newKey t)) where
  start_le := min_le_right _ _
  le_latest := le_max_right _ _
  covers := by
    intro s hs
    obtain rfl := List.mem_singleton.mp hs
    exact ⟨min_le_left _ _, le_max_left _ _⟩
  start_eq := .inr ⟨p, by simp, min_eq_left hp⟩
  latest_eq := by
    rcases le_total t p.latestEventTime with h | h
    · exact .inr ⟨p, by simp, max_eq_left h⟩
    · exact .inl (max_eq_right h)
  key_eq := .inr ⟨p, by simp, rfl⟩

theorem Joined.latest_le {newKey : Int} {old : List Session} {m q : Session}
    (h : Joined t newKey old m) (hgap : 0 < gap) (hq : t ≤ q.start)
    (hold : ∀ s ∈ old, s.Before gap q) : m.latestEventTime ≤ q.start := by
  rcases h.latest_eq with he | ⟨s, hs, he⟩
  · omega
  · have := hold s hs
    unfold Before at this
    omega

/-- The joined session swallows the one after it. -/
theorem Joined.swallow {newKey : Int} {old : List Session} {m q : Session}
    (h : Joined t newKey old m) (hgap : 0 < gap) (hq : t ≤ q.start) (hspan : q.Ok gap)
    (hold : ∀ s ∈ old, s.Before gap q) :
    Joined t newKey (old ++ [q]) (m.mergeWith q) ∧
      (m.mergeWith q).latestEventTime = q.latestEventTime := by
  have hlatest : m.latestEventTime ≤ q.latestEventTime :=
    le_trans (h.latest_le hgap hq hold) hspan.span
  have hstart : (m.mergeWith q).start = m.start := min_eq_left (le_trans h.start_le hq)
  have hmax : (m.mergeWith q).latestEventTime = q.latestEventTime := max_eq_right hlatest
  refine ⟨⟨hstart ▸ h.start_le, hmax ▸ le_trans h.le_latest hlatest, ?_, ?_, ?_, ?_⟩, hmax⟩
  · intro s hs
    rw [hstart, hmax]
    rcases List.mem_append.mp hs with hs | hs
    · exact ⟨(h.covers s hs).1, le_trans (h.covers s hs).2 hlatest⟩
    · obtain rfl := List.mem_singleton.mp hs
      exact ⟨le_trans h.start_le hq, le_rfl⟩
  · rw [hstart]
    rcases h.start_eq with he | ⟨s, hs, he⟩
    · exact .inl he
    · exact .inr ⟨s, List.mem_append_left _ hs, he⟩
  · exact .inr ⟨q, by simp, hmax⟩
  · rcases h.key_eq with he | ⟨s, hs, he⟩
    · exact .inl he
    · exact .inr ⟨s, List.mem_append_left _ hs, he⟩

/-- What merging makes of the sessions up to and with the pushed one. -/
theorem foldlM_mergeStep_pushed {l : List Session} (newKey : Int)
    (hok : ∀ s ∈ l, s.Ok gap) (hpw : l.Pairwise (Before gap)) (hstart : ∀ s ∈ l, s.start ≤ t) :
    ∃ pre old m, l = pre ++ old ∧
      (l ++ [Session.new newKey t]).foldlM (mergeStep gap) [] = some (pre ++ [m]) ∧
      Joined t newKey old m ∧ (∀ a ∈ pre, a.Before gap m) ∧ (∀ s ∈ old, s.key = m.key) := by
  have hfold := foldlM_mergeStep_nil l hok hpw
  rw [List.foldlM_append, hfold]
  cases l using List.reverseRecOn with
  | nil =>
    exact ⟨[], [], Session.new newKey t, rfl, rfl, Joined.new, by simp, by simp⟩
  | append_singleton pre p =>
    have hp := hok p (by simp)
    have hpt := hstart p (by simp)
    have hprep : ∀ a ∈ pre, a.Before gap p := fun a ha =>
      (List.pairwise_append.mp hpw).2.2 a ha p (by simp)
    by_cases hin : t < p.latestEventTime + gap
    · refine ⟨pre, [p], p.mergeWith (Session.new newKey t), rfl, ?_, Joined.join hpt, ?_, ?_⟩
      · have hcontains : p.contains (Session.new newKey t).start gap = some true := by
          rw [contains_eq hp.fits_latest]
          simp [Session.new, hpt, hin]
        simp [mergeStep_concat, hcontains]
      · intro a ha
        exact le_min (hprep a ha) (le_trans (hprep a ha) hpt)
      · simp [Session.mergeWith]
    · have hbefore : p.Before gap (Session.new newKey t) := by
        unfold Before Session.new
        dsimp only
        omega
      refine ⟨pre ++ [p], [], Session.new newKey t, by simp, ?_, Joined.new, ?_, by simp⟩
      · simp [mergeStep_before pre hp hbefore]
      · intro a ha
        rcases List.mem_append.mp ha with ha | ha
        · exact le_trans (hprep a ha) hpt
        · exact List.mem_singleton.mp ha ▸ hbefore

/-- Sessions that do not take the item are passed over. -/
theorem insertFirst_append {pre : List Session} (rest : List Session)
    (hpre : ∀ s ∈ pre, s.contains t gap = some false) :
    insertFirst gap t (pre ++ rest) = (insertFirst gap t rest).map fun r => (pre ++ r.1, r.2) := by
  induction pre with
  | nil => simp
  | cons s pre ih =>
    have ih := ih fun a ha => hpre a (List.mem_cons_of_mem _ ha)
    rw [List.cons_append, insertFirst, tryInsert, hpre s List.mem_cons_self]
    simp only [Option.bind_eq_bind, Option.bind_some, Bool.false_eq_true, if_false, ih]
    cases insertFirst gap t rest <;> rfl

/-! ### Insertion -/

/-- An item at `t` reaches no open session that starts after it; one that starts with it is left
before the session pushed for it. -/
def KeepsApart (sorter : UnstableSort) (gap : Int) (w : SessionWindower) (t : Int) : Prop :=
  ∀ q ∈ w.sessions, t ≤ q.start → q.start < t + gap →
    q.start = t ∧ [q, Session.new (w.maxKey + 1) t].Sublist (w.addSession sorter t).sessions

instance (t : Int) : Decidable (KeepsApart sorter gap w t) := by
  unfold KeepsApart
  infer_instance

theorem keepsApart_iff (hinv : w.Inv gap) {before after : List Session}
    (hsplit : w.sessions = before ++ after)
    (hsort : (w.addSession sorter t).sessions = before ++ Session.new (w.maxKey + 1) t :: after)
    (hbefore : ∀ s ∈ before, s.start ≤ t) (hafter : ∀ s ∈ after, t ≤ s.start) :
    KeepsApart sorter gap w t ↔ ∀ q ∈ after, t + gap ≤ q.start := by
  have hnew : ∀ s ∈ w.sessions, s ≠ Session.new (w.maxKey + 1) t := by
    rintro s hs rfl
    have := hinv.le_maxKey _ hs
    simp only [Session.new] at this
    omega
  rw [hsplit] at hnew
  constructor
  · intro h q hq
    by_contra hlt
    obtain ⟨-, hsub⟩ := h q (hsplit ▸ List.mem_append_right _ hq) (hafter q hq) (by omega)
    rw [hsort] at hsub
    -- only the sessions of `before` stand before the new one
    have hpw : (before ++ Session.new (w.maxKey + 1) t :: after).Pairwise
        fun a b => b = Session.new (w.maxKey + 1) t → a ∈ before := by
      rw [List.pairwise_append, List.pairwise_cons]
      refine ⟨?_, ⟨?_, ?_⟩, fun a ha _ _ _ => ha⟩
      · exact List.pairwise_of_forall_mem_list fun a ha _ _ _ => ha
      · exact fun b hb he => absurd he (hnew b (List.mem_append_right _ hb))
      · exact List.pairwise_of_forall_mem_list fun _ _ b hb he =>
          absurd he (hnew b (List.mem_append_right _ hb))
    have hqb : q ∈ before := hpw.forall_sublist hsub rfl
    have hnd : w.sessions.Nodup := List.Nodup.of_map _ hinv.nodup
    rw [hsplit] at hnd
    exact (List.nodup_append.mp hnd).2.2 q hqb q hq rfl
  · intro h q hq htq hqt
    rw [hsplit] at hq
    rcases List.mem_append.mp hq with hq | hq
    · refine ⟨le_antisymm (hbefore q hq) htq, ?_⟩
      rw [hsort]
      exact (List.singleton_sublist.mpr hq).append (by simp)
    · exact absurd (h q hq) (by omega)

/-- The situation of an insertion once the pushed session has met the sessions before it: `base`
stands for it and for `old`, and `after` is still to be merged. -/
structure Pushed (sorter : UnstableSort) (gap : Int) (w : SessionWindower) (t : Int)
    (pre old : List Session) (base : Session) (after : List Session) : Prop where
  split : w.sessions = pre ++ old ++ after
  merge : (w.addSession sorter t).sessions.foldlM (mergeStep gap) [] =
    after.foldlM (mergeStep gap) (pre ++ [base])
  joined : Joined t (w.maxKey + 1) old base
  before : ∀ a ∈ pre, a.Before gap base
  old_le : ∀ s ∈ old, s.start ≤ t
  after_ge : ∀ q ∈ after, t ≤ q.start
  keys : ∀ s ∈ old, s.key = base.key
  apart : KeepsApart sorter gap w t ↔ ∀ q ∈ after, t + gap ≤ q.start

theorem exists_pushed (sorter : UnstableSort) (hgap : 0 < gap) (hinv : w.Inv gap) (t : Int) :
    ∃ pre old base after, Pushed sorter gap w t pre old base after := by
  obtain ⟨before, after, hsplit, hsort, hbefore, hafter⟩ :=
    sort_concat sorter hgap hinv (Session.new (w.maxKey + 1) t)
  replace hsort : (w.addSession sorter t).sessions = _ := hsort
  replace hbefore : ∀ s ∈ before, s.start ≤ t := hbefore
  have hapart := keepsApart_iff hinv hsplit hsort hbefore hafter
  have hok := hinv.ok
  have hpw := hinv.before
  rw [hsplit] at hok hpw
  obtain ⟨pre, old, base, rfl, hfold, hjoin, hpre, hkeys⟩ := foldlM_mergeStep_pushed
    (w.maxKey + 1) (fun s hs => hok s (List.mem_append_left _ hs))
    (List.pairwise_append.mp hpw).1 hbefore
  refine ⟨pre, old, base, after, hsplit, ?_, hjoin, hpre,
    fun s hs => hbefore s (List.mem_append_right _ hs), hafter, hkeys, hapart⟩
  rw [hsort, List.append_cons, List.foldlM_append, hfold]
  rfl

namespace Pushed

variable {pre old after rest : List Session} {base q : Session}

theorem ok (h : Pushed sorter gap w t pre old base after) (hinv : w.Inv gap) {s : Session}
    (hs : s ∈ pre ++ old ++ after) : s.Ok gap := hinv.ok s (h.split ▸ hs)

theorem base_ok (h : Pushed sorter gap w t pre old base after) (hinv : w.Inv gap)
    (hfit : Fits t gap) : base.Ok gap :=
  h.joined.ok hfit fun _ hs => h.ok hinv (by simp [hs])

theorem pairwise (h : Pushed sorter gap w t pre old base after) (hinv : w.Inv gap) :
    (pre ++ old ++ after).Pairwise (Before gap) := h.split ▸ hinv.before

theorem cross (h : Pushed sorter gap w t pre old base after) (hinv : w.Inv gap) {a b : Session}
    (ha : a ∈ pre ++ old) (hb : b ∈ after) : a.Before gap b :=
  (List.pairwise_append.mp (h.pairwise hinv)).2.2 a ha b hb

/-- A session that was swallowed had a key of its own. -/
theorem key_ne (h : Pushed sorter gap w t pre old base after) (hinv : w.Inv gap)
    (hq : q ∈ after) : q.key ≠ base.key := by
  have hnd := hinv.nodup
  rw [h.split, List.map_append, List.nodup_append] at hnd
  rcases h.joined.key_eq with he | ⟨s, hs, he⟩
  · have := hinv.le_maxKey q (h.split ▸ List.mem_append_right _ hq)
    omega
  · exact fun hne => hnd.2.2 s.key (List.mem_map_of_mem (by simp [hs])) q.key
      (List.mem_map_of_mem hq) (he.symm.trans hne.symm)

/-- Only an item that is close enough to the next session makes the joined session reach it. -/
theorem near_of_reach (h : Pushed sorter gap w t pre old base after) (hinv : w.Inv gap)
    (hq : q ∈ after) (hreach : q.start < base.latestEventTime + gap) : q.start < t + gap := by
  rcases h.joined.latest_eq with he | ⟨s, hs, he⟩
  · omega
  · have := h.cross hinv (List.mem_append_right _ hs) hq
    unfold Before at this
    omega

end Pushed

theorem insert_of_merge {pre old post : List Session} {m : Session} (ht : ¬ t < watermark)
    (hmerge : (w.addSession sorter t).sessions.foldlM (mergeStep gap) [] =
      some (pre ++ m :: post))
    (hjoin : Joined t (w.maxKey + 1) old m) (hgap : 0 < gap) (hm : m.Ok gap)
    (hok : ∀ a ∈ pre, a.Ok gap) (hpre : ∀ a ∈ pre, a.Before gap m) :
    w.insert sorter gap watermark t =
      some (⟨pre ++ m :: post, w.maxKey + 1⟩, [.ok m.key]) := by
  have hfind : insertFirst gap t (pre ++ m :: post) = some (pre ++ m :: post, m.key) := by
    have hle := hjoin.le_latest
    have hinside : m.contains t gap = some true := by
      rw [contains_eq hm.fits_latest]
      simp only [Option.some.injEq, decide_eq_true_eq]
      exact ⟨hjoin.start_le, by omega⟩
    rw [insertFirst_append _ fun s hs =>
      contains_of_le (hok s hs).fits_latest (le_trans (hpre s hs) hjoin.start_le)]
    simp [insertFirst, tryInsert, hinside, max_eq_left hle]
  rw [insert, if_neg ht, mergeSessions, hmerge]
  simp [hfind, addSession]

/-- The joined session reaches the one after it, which is swallowed. -/
theorem Pushed.swallow {pre old rest : List Session} {base q : Session}
    (h : Pushed sorter gap w t pre old base (q :: rest)) (hgap : 0 < gap) (hinv : w.Inv gap)
    (hfit : Fits t gap) (ht : ¬ t < watermark) (hreach : q.start < base.latestEventTime + gap) :
    ∃ m, w.insert sorter gap watermark t =
        some (⟨pre ++ m :: rest, w.maxKey + 1⟩, [.ok m.key]) ∧
      Joined t (w.maxKey + 1) (old ++ [q]) m ∧ (∀ a ∈ pre, a.Before gap m) ∧
      (∀ b ∈ rest, m.Before gap b) ∧ m.key = base.key := by
  have hbase := h.base_ok hinv hfit
  have hqok : q.Ok gap := h.ok hinv (by simp)
  have hqt := h.after_ge q (by simp)
  have hqrest := List.pairwise_cons.mp (List.pairwise_append.mp (h.pairwise hinv)).2.1
  obtain ⟨hjoin, hlatest⟩ := h.joined.swallow hgap hqt hqok fun s hs =>
    h.cross hinv (List.mem_append_right _ hs) (by simp)
  have hm : (base.mergeWith q).Ok gap := hjoin.ok hfit fun s hs => h.ok hinv (by
    simp only [List.mem_append, List.mem_cons] at hs ⊢
    tauto)
  have hpre : ∀ a ∈ pre, a.Before gap (base.mergeWith q) := fun a ha =>
    le_min (h.before a ha) (h.cross hinv (List.mem_append_left _ ha) (by simp))
  have hrest : ∀ b ∈ rest, (base.mergeWith q).Before gap b := fun b hb => by
    have := hqrest.1 b hb
    unfold Before at *
    omega
  refine ⟨base.mergeWith q, ?_, hjoin, hpre, hrest, rfl⟩
  have hinside : base.contains q.start gap = some true := by
    rw [contains_eq hbase.fits_latest]
    simpa [hreach] using le_trans h.joined.start_le hqt
  refine insert_of_merge ht (h.merge.trans ?_) hjoin hgap hm
    (fun a ha => h.ok hinv (by simp [ha])) hpre
  rw [List.foldlM_cons, mergeStep_concat, hinside]
  refine foldlM_mergeStep_before rest pre _ ?_ (List.pairwise_cons.mpr ⟨hrest, hqrest.2⟩)
  intro s hs
  rcases List.mem_cons.mp hs with rfl | hs
  · exact hm
  · exact h.ok hinv (by simp [hs])

/-- The joined session closes before the ones after it start. -/
theorem Pushed.far {pre old after : List Session} {base : Session}
    (h : Pushed sorter gap w t pre old base after) (hgap : 0 < gap) (hinv : w.Inv gap)
    (hfit : Fits t gap) (ht : ¬ t < watermark) (hfar : ∀ q ∈ after, base.Before gap q) :
    w.insert sorter gap watermark t =
      some (⟨pre ++ base :: after, w.maxKey + 1⟩, [.ok base.key]) := by
  have hbase := h.base_ok hinv hfit
  refine insert_of_merge ht (h.merge.trans ?_) h.joined hgap hbase
    (fun a ha => h.ok hinv (by simp [ha])) h.before
  refine foldlM_mergeStep_before after pre base ?_
    (List.pairwise_cons.mpr ⟨hfar, (List.pairwise_append.mp (h.pairwise hinv)).2.1⟩)
  intro s hs
  rcases List.mem_cons.mp hs with rfl | hs
  · exact hbase
  · exact h.ok hinv (by simp [hs])

/-- The neighbouring sessions `old` have been replaced by the session `m` of an item at `t`. -/
structure Replaces (sorter : UnstableSort) (gap : Int) (w : SessionWindower) (t : Int)
    (pre old post : List Session) (m : Session) : Prop where
  split : w.sessions = pre ++ old ++ post
  joined : Joined t (w.maxKey + 1) old m
  before_m : ∀ a ∈ pre, a.Before gap m
  m_before : ∀ b ∈ post, m.Before gap b
  apart : KeepsApart sorter gap w t ↔ ∀ s ∈ old, s.key = m.key

/-- **What an insertion does.**  An item on time, whose close time can be computed, replaces
neighbouring sessions by one session and is inserted there. -/
theorem insert_spec (sorter : UnstableSort) (hgap : 0 < gap) (hinv : w.Inv gap)
    (ht : ¬ t < watermark) (hfit : Fits t gap) :
    ∃ pre old post m, Replaces sorter gap w t pre old post m ∧
      w.insert sorter gap watermark t =
        some (⟨pre ++ m :: post, w.maxKey + 1⟩, [.ok m.key]) := by
  obtain ⟨pre, old, base, after, h⟩ := exists_pushed sorter hgap hinv t
  cases after with
  | nil =>
    exact ⟨pre, old, [], base,
      ⟨h.split, h.joined, h.before, by simp, fun _ => h.keys, fun _ => h.apart.mpr (by simp)⟩,
      h.far hgap hinv hfit ht (by simp)⟩
  | cons q rest =>
    by_cases hreach : q.start < base.latestEventTime + gap
    · obtain ⟨m, hinsert, hjoin, hpre, hrest, hkey⟩ := h.swallow hgap hinv hfit ht hreach
      refine ⟨pre, old ++ [q], rest, m, ⟨by simp [h.split], hjoin, hpre, hrest, ?_, ?_⟩, hinsert⟩
      · intro hapart
        have := h.apart.mp hapart q (by simp)
        have := h.near_of_reach hinv (by simp) hreach
        omega
      · intro hkeys
        exact absurd (hkey ▸ hkeys q (by simp)) (h.key_ne hinv (by simp))
    · have hqrest := List.pairwise_cons.mp (List.pairwise_append.mp (h.pairwise hinv)).2.1
      have hfar : ∀ r ∈ q :: rest, base.latestEventTime + gap ≤ r.start := fun r hr => by
        rcases List.mem_cons.mp hr with rfl | hr
        · exact not_lt.mp hreach
        · have := (hqrest.1 r hr).start_lt hgap (h.ok hinv (by simp))
          omega
      refine ⟨pre, old, q :: rest, base,
        ⟨h.split, h.joined, h.before, hfar, fun _ => h.keys, fun _ => h.apart.mpr fun r hr => ?_⟩,
        h.far hgap hinv hfit ht hfar⟩
      have := hfar r hr
      have := h.joined.le_latest
      omega

/-- If the item has no close time, the session it is joined to has none. -/
theorem Pushed.not_fits {pre old after : List Session} {base : Session}
    (h : Pushed sorter gap w t pre old base after) (hinv : w.Inv gap) (hfit : ¬ Fits t gap) :
    ¬ Fits base.latestEventTime gap := by
  rcases h.joined.latest_eq with he | ⟨s, hs, he⟩
  · exact he ▸ hfit
  · have hs' := h.ok hinv (s := s) (by simp [hs])
    exact fun _ => hfit (hs'.fits_start.between hs'.fits_latest (h.old_le s hs)
      (he ▸ h.joined.le_latest))

/-- An item whose close time is out of range makes the insertion panic. -/
theorem insert_eq_none (hgap : 0 < gap) (hinv : w.Inv gap) (ht : ¬ t < watermark)
    (hfit : ¬ Fits t gap) : w.insert sorter gap watermark t = none := by
  obtain ⟨pre, old, base, after, h⟩ := exists_pushed sorter hgap hinv t
  have hbase := h.not_fits hinv hfit
  rw [insert, if_neg ht, mergeSessions, h.merge]
  cases after with
  | nil =>
    have hnone := contains_eq_none hbase h.joined.start_le
    have hfind : insertFirst gap t (pre ++ [base]) = none := by
      rw [insertFirst_append _ fun s hs => contains_of_le (h.ok hinv (by simp [hs])).fits_latest
        (le_trans (h.before s hs) h.joined.start_le)]
      simp [insertFirst, tryInsert, hnone]
    simp [hfind]
  | cons q rest =>
    have hnone := contains_eq_none hbase (le_trans h.joined.start_le (h.after_ge q (by simp)))
    simp [mergeStep_concat, hnone]

namespace Replaces

variable {pre old post : List Session} {m : Session}

theorem m_ok (h : Replaces sorter gap w t pre old post m) (hinv : w.Inv gap)
    (hfit : Fits t gap) : m.Ok gap :=
  h.joined.ok hfit fun s hs => hinv.ok s (h.split ▸ by simp [hs])

/-- The sessions that stay are among those that were there. -/
theorem stays (h : Replaces sorter gap w t pre old post m) :
    (pre ++ post).Sublist w.sessions :=
  h.split ▸ (List.sublist_append_left pre old).append_right post

/-- A session that stays has another key than one that is replaced. -/
theorem old_key_ne (h : Replaces sorter gap w t pre old post m) (hinv : w.Inv gap) {o s : Session}
    (ho : o ∈ old) (hs : s ∈ pre ++ post) : s.key ≠ o.key := by
  have hnd := hinv.nodup
  simp only [h.split, List.map_append, List.nodup_append, List.mem_append, List.mem_map] at hnd
  obtain ⟨⟨-, -, hpo⟩, -, hop⟩ := hnd
  rcases List.mem_append.mp hs with hs | hs
  · exact hpo s.key ⟨s, hs, rfl⟩ o.key ⟨o, ho, rfl⟩
  · exact (hop o.key (.inr ⟨o, ho, rfl⟩) s.key ⟨s, hs, rfl⟩).symm

theorem key_ne (h : Replaces sorter gap w t pre old post m) (hinv : w.Inv gap) {s : Session}
    (hs : s ∈ pre ++ post) : s.key ≠ m.key := by
  rcases h.joined.key_eq with he | ⟨o, ho, he⟩
  · have := hinv.le_maxKey s (h.stays.subset hs)
    omega
  · exact he ▸ h.old_key_ne hinv ho hs

theorem key_le (h : Replaces sorter gap w t pre old post m) (hinv : w.Inv gap) :
    m.key ≤ w.maxKey + 1 := by
  rcases h.joined.key_eq with he | ⟨o, ho, he⟩
  · exact he.le
  · have := hinv.le_maxKey o (h.split ▸ by simp [ho])
    omega

/-- An insertion keeps the sessions apart. -/
theorem inv (h : Replaces sorter gap w t pre old post m) (hinv : w.Inv gap)
    (hfit : Fits t gap) : Inv gap ⟨pre ++ m :: post, w.maxKey + 1⟩ := by
  have hperm : (pre ++ m :: post).Perm (m :: (pre ++ post)) := List.perm_middle
  refine ⟨fun s hs => ?_, ?_, ?_, fun s hs => ?_⟩
  · rcases List.mem_cons.mp (hperm.mem_iff.mp hs) with rfl | hs
    · exact h.m_ok hinv hfit
    · exact hinv.ok s (h.stays.subset hs)
  · have hpw := List.pairwise_append.mp (hinv.before.sublist h.stays)
    rw [List.pairwise_append, List.pairwise_cons]
    refine ⟨hpw.1, ⟨h.m_before, hpw.2.1⟩, fun a ha b hb => ?_⟩
    rcases List.mem_cons.mp hb with rfl | hb
    · exact h.before_m a ha
    · exact hpw.2.2 a ha b hb
  · refine (hperm.map Session.key).nodup_iff.mpr ?_
    rw [List.map_cons, List.nodup_cons]
    refine ⟨fun hmem => ?_, hinv.nodup.sublist (h.stays.map Session.key)⟩
    obtain ⟨s, hs, he⟩ := List.mem_map.mp hmem
    exact h.key_ne hinv hs he
  · rcases List.mem_cons.mp (hperm.mem_iff.mp hs) with rfl | hs
    · exact h.key_le hinv
    · have := hinv.le_maxKey s (h.stays.subset hs)
      dsimp only
      omega

/-- The windower has the metadata of the session it inserted into. -/
theorem getMetadata (h : Replaces sorter gap w t pre old post m) (hinv : w.Inv gap) :
    SessionWindower.getMetadata ⟨pre ++ m :: post, w.maxKey + 1⟩ m.key = some m.metadata := by
  have hpre : pre.find? (fun s => s.key = m.key) = none := by
    rw [List.find?_eq_none]
    exact fun s hs => by simpa using h.key_ne hinv (List.mem_append_left _ hs)
  simp [SessionWindower.getMetadata, List.find?_append, hpre]

end Replaces

/-- Every insertion that does not panic keeps the sessions apart. -/
theorem Inv.insert {r : List (Except InsertError Int)} (hgap : 0 < gap) (hinv : w.Inv gap)
    (h : w.insert sorter gap watermark t = some (w', r)) : w'.Inv gap := by
  by_cases ht : t < watermark
  · rw [SessionWindower.insert, if_pos ht] at h
    simp only [Option.some.injEq, Prod.mk.injEq] at h
    exact h.1 ▸ hinv
  · by_cases hfit : Fits t gap
    · obtain ⟨pre, old, post, m, hrep, hinsert⟩ :=
        insert_spec sorter hgap hinv ht hfit
      rw [hinsert] at h
      simp only [Option.some.injEq, Prod.mk.injEq] at h
      exact h.1 ▸ hrep.inv hinv hfit
    · rw [insert_eq_none hgap hinv ht hfit] at h
      exact absurd h (by simp)

/-! ### Draining -/

/-- Draining never panics: the sessions that are open at the watermark stay. -/
theorem drainClosed_eq (hinv : w.Inv gap) :
    w.drainClosed gap watermark = some
      (⟨w.sessions.filter fun s => watermark < s.latestEventTime + gap, w.maxKey⟩,
        (w.sessions.filter fun s => ¬ watermark < s.latestEventTime + gap).map
          fun s => (s.key, s.metadata)) := by
  have hretain : ∀ l : List Session, (∀ s ∈ l, s.Ok gap) → retainOpen gap watermark l = some
      (l.filter fun s => watermark < s.latestEventTime + gap,
        (l.filter fun s => ¬ watermark < s.latestEventTime + gap).map
          fun s => (s.key, s.metadata)) := by
    intro l hl
    induction l with
    | nil => rfl
    | cons s l ih =>
      rw [retainOpen, isOpenAt_eq (hl s (by simp)).fits_latest, ih fun a ha => hl a (by simp [ha])]
      by_cases hs : watermark < s.latestEventTime + gap
      · simp [hs]
      · simp [hs, not_lt.mp hs]
  simp [drainClosed, hretain w.sessions hinv.ok]

theorem Inv.filter (hinv : w.Inv gap) (p : Session → Bool) :
    Inv gap ⟨w.sessions.filter p, w.maxKey⟩ where
  ok s hs := hinv.ok s (List.mem_of_mem_filter hs)
  before := hinv.before.filter p
  nodup := hinv.nodup.sublist (List.filter_sublist.map Session.key)
  le_maxKey s hs := hinv.le_maxKey s (List.mem_of_mem_filter hs)

/-- At the end of time every session has closed. -/
theorem drainClosed_maxUtc (hinv : w.Inv gap) :
    w.drainClosed gap maxUtc = some
      (⟨[], w.maxKey⟩, w.sessions.map fun s => (s.key, s.metadata)) := by
  have hclosed : ∀ s ∈ w.sessions, ¬ maxUtc < s.latestEventTime + gap := fun s hs =>
    not_lt.mpr (hinv.ok s hs).fits_latest.2
  rw [drainClosed_eq hinv, List.filter_eq_nil_iff.mpr (by simpa using hclosed),
    List.filter_eq_self.mpr (by simpa using hclosed)]

end SessionWindower
end Bytewax
