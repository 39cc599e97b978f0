import Bytewax.Window.SessionLogic
import Mathlib.Data.List.Sort

/-!
# Bytewax.Window.SessionValues — which session windows lose values

A run of `on_awake` calls for one key up to the end of the input conserves the accepted values
exactly when every call keeps the open sessions apart: no item is so close to the start of a later
open session that the two are merged.
-/

namespace Bytewax

open WindowStatefulLogic SessionWindower Session

variable {V R L C W : Type}

/-- Every accepted value is folded into exactly one window logic whose output is emitted when a
window closes, and the metadata it is emitted with covers the times of the values. -/
def ConservesValues (logic : WindowLogic V R L) (events : List (WindowEvent V R)) : Prop :=
  ∃ parts : List (List (V × Int)),
    List.Forall₂ (fun closed part => closed.2.2 = logic.closeOutput part ∧
      ∀ p ∈ part, closed.2.1.Covers p.2) (closes events) parts ∧
    parts.flatten.Perm (accepted events)

/-- The calls conserve the values, and whenever no window is tracked there is no window logic. -/
structure LosesNoValue (clock : Clock V C) (windower : Windower W) (logic : WindowLogic V R L)
    (calls : List (Call V)) : Prop where
  conserves : ∃ s events, Runs.run (onAwake clock windower logic)
    (build clock windower) calls = some (s, events) ∧ ConservesValues logic events
  empty : ∀ pre s events, pre <+: calls → Runs.run (onAwake clock windower logic)
    (build clock windower) pre = some (s, events) →
    windower.isEmpty s.windower = true → s.currentState.isEmpty = true

/-- The last call of a run. -/
def Call.eof (now itemNow : Int) : Call V := ⟨now, itemNow, .ready none⟩

section

variable {clock : Clock V C} {sorter : UnstableSort} {gap : Int} {logic : WindowLogic V R L}
  {s s' : WindowStatefulLogic C SessionWindower L} {events : List (WindowEvent V R)}

/-- At the end of the input no session stays open. -/
theorem sessions_eof (hgap : 0 < gap) (h : Tracks gap s) {now itemNow : Int}
    (hs : onAwake clock (sessionWindower sorter gap) logic s (Call.eof now itemNow) =
      some (s', events)) : s'.windower.sessions = [] := by
  obtain ⟨c, watermark, mid, es, es', hw, ha, hc, -⟩ := onAwake_eq_some.mp hs
  obtain rfl := clock.watermark_eof hw
  have h₀ : Tracks gap { s with clock := c } := ⟨h.inv, h.tracked⟩
  have hmid := h₀.accept hgap ha
  simp only [closeWindows, sessionWindower, drainClosed_maxUtc hmid.inv, Option.bind_eq_bind,
    Option.bind_some, Option.bind_eq_some_iff, Prod.exists, Option.pure_def, Option.some.injEq,
    Prod.mk.injEq] at hc
  obtain ⟨cur, evs, -, rfl, -⟩ := hc
  rfl

/-- Once nothing is open, all accepted values have been emitted. -/
theorem Coupled.conservesValues (h : Coupled gap logic events s)
    (hempty : s.windower.sessions = []) : ConservesValues logic events := by
  refine ⟨(closes events).map fun c => folds c.1 events, ?_, ?_⟩
  · rw [List.forall₂_map_right_iff, List.forall₂_same]
    exact h.closed
  · have hperm := Keyed.flatten_valuesOf_perm ((closes events).map Prod.fst) (foldList events)
      h.closed_nodup fun p hp => (h.fold_key p hp).resolve_left (by simp [hempty])
    rw [List.map_map] at hperm
    exact hperm

theorem Coupled.isEmpty (h : Coupled gap logic events s) (hempty : s.windower.sessions = []) :
    s.currentState.isEmpty = true := by
  rw [Std.TreeMap.isEmpty_iff_forall_not_mem]
  intro k
  rw [Std.TreeMap.mem_iff_isSome_getElem?, h.logic_of]
  simp [hempty]

theorem Orphaned.not_isEmpty (h : Orphaned s) : s.currentState.isEmpty ≠ true := by
  obtain ⟨k, hk, -⟩ := h
  rw [ne_eq, Std.TreeMap.isEmpty_iff_forall_not_mem]
  exact fun hall => hall k hk

theorem Coupled.build : Coupled gap logic []
    (WindowStatefulLogic.build clock (sessionWindower sorter gap)) where
  inv := SessionWindower.Inv.build
  logic_of k := by simp [WindowStatefulLogic.build, sessionWindower]
  covers q hq := by simp [WindowStatefulLogic.build, sessionWindower] at hq
  closed c hc := by simp [closes] at hc
  closed_nodup := List.nodup_nil
  closed_key c hc := by simp [closes] at hc
  fold_key p hp := by simp [foldList] at hp

end

/-- **Session windows lose no value exactly when no item joins two sessions**: the calls of a run
up to the end of the input conserve the accepted values, and leave no logic behind, if and only if
each of them keeps the open sessions apart. -/
theorem losesNoValue_iff (clock : Clock V C) (sorter : UnstableSort) {gap : Int}
    (hgap : GapAccepted gap) (logic : WindowLogic V R L) (calls : List (Call V))
    (now itemNow : Int) :
    LosesNoValue clock (sessionWindower sorter gap) logic (calls ++ [Call.eof now itemNow]) ↔
      Runs.Along (onAwake clock (sessionWindower sorter gap) logic)
        (KeepsSessionsApart clock sorter gap)
        (WindowStatefulLogic.build clock (sessionWindower sorter gap))
        (calls ++ [Call.eof now itemNow]) := by
  have hpos := pos_of_numMilliseconds_pos hgap
  have hcoupled : Coupled gap logic []
      (WindowStatefulLogic.build clock (sessionWindower sorter gap)) := Coupled.build
  have hbuild := hcoupled.tracks
  constructor
  · intro h
    obtain ⟨s, events, hrun, -⟩ := h.conserves
    refine Runs.along_of_trap (P := Tracks gap) (T := Orphaned)
      (fun _ _ _ _ ht hs => ht.step hpos hs) (fun _ _ _ _ ht ho hs => ho.step hpos ht hs)
      (fun _ _ _ _ ht hbad hs => orphaned_of_not_keepsApart hpos ht hbad hs)
      hbuild hrun fun ho => ho.not_isEmpty (h.empty _ s events List.prefix_rfl hrun ?_)
    obtain ⟨s₁, o₁, o₂, hrun₁, hlast, -⟩ := Runs.exists_of_run_append hrun
    rw [Runs.run_singleton] at hlast
    have ht := Runs.run_induct (P := Tracks gap) (fun _ _ _ _ ht _ hs => ht.step hpos hs)
      hbuild (Runs.along_true _ calls) hrun₁
    simp [sessionWindower, sessions_eof hpos ht hlast]
  · intro h
    have hreach : ∀ pre s events, pre <+: calls ++ [Call.eof now itemNow] →
        Runs.run (onAwake clock (sessionWindower sorter gap) logic)
          (WindowStatefulLogic.build clock (sessionWindower sorter gap)) pre = some (s, events) →
        Coupled gap logic events s := by
      rintro pre s events ⟨rest, hrest⟩ hrun
      rw [← hrest] at h
      exact Runs.run_history (P := fun _ s events => Coupled gap logic events s)
        (fun _ _ _ _ _ _ hc hsafe hs => hc.step hpos hsafe hs) hcoupled h.of_append hrun
    obtain ⟨s, events, hrun, -⟩ := Runs.run_total (onAwake clock (sessionWindower sorter gap) logic)
      (calls ++ [.eof now itemNow]) (P := Tracks gap)
      (fun s call ht hsafe => by
        obtain ⟨s', es, hs⟩ := onAwake_isSome logic hpos ht hsafe
        exact ⟨s', es, hs, ht.step hpos hs⟩)
      hbuild h
    refine ⟨⟨s, events, hrun, ?_⟩, fun pre t evs hpre hrun' hempty => ?_⟩
    · obtain ⟨s₁, o₁, o₂, hrun₁, hlast, -⟩ := Runs.exists_of_run_append hrun
      rw [Runs.run_singleton] at hlast
      have ht := (hreach calls s₁ o₁ (List.prefix_append _ _) hrun₁).tracks
      exact (hreach _ s events List.prefix_rfl hrun).conservesValues (sessions_eof hpos ht hlast)
    · exact (hreach pre t evs hpre hrun').isEmpty (by simpa [sessionWindower] using hempty)

/-- Insertion sort, which is how `sort_unstable` sorts few elements. -/
def insertionSorter : UnstableSort where
  sort l := l.insertionSort fun a b => a.start ≤ b.start
  perm l := l.perm_insertionSort _
  sorted l := l.pairwise_insertionSort _

/-- A fold window that collects its values, over integer values that are their own event times. -/
def collectLogic : WindowLogic Int (List Int) (Option (List Int)) :=
  foldWindowLogic [] fun acc value => acc ++ [value]

/-- With a gap of ten seconds: the item at 5 s extends the session of 0 s, the one at 20 s makes a
session of its own, the one at 8 s is late, the one at 40 s closes both sessions, and the session it
makes itself closes at the end of the input. -/
def threeSessions : List (Call Int) :=
  [⟨0, 0, .ready (some 0)⟩, ⟨0, 0, .ready (some 5000000000)⟩, ⟨0, 0, .ready (some 20000000000)⟩,
    ⟨0, 0, .ready (some 8000000000)⟩, ⟨0, 0, .ready (some 40000000000)⟩]

theorem losesNoValue_iff_threeSessions :
    LosesNoValue (eventClock id 10000000000) (sessionWindower insertionSorter 10000000000)
        collectLogic (threeSessions ++ [Call.eof 1 1]) ∧
      ∃ s events, Runs.run (onAwake (eventClock id 10000000000)
          (sessionWindower insertionSorter 10000000000) collectLogic)
          (WindowStatefulLogic.build (eventClock id 10000000000)
            (sessionWindower insertionSorter 10000000000)) (threeSessions ++ [Call.eof 1 1]) =
            some (s, events) ∧
        closes events = [(1, ⟨0, 5000000000⟩, [[0, 5000000000]]),
          (3, ⟨20000000000, 20000000000⟩, [[20000000000]]),
          (4, ⟨40000000000, 40000000000⟩, [[40000000000]])] ∧
        .late 3 8000000000 ∈ events := by
  have hapart : Runs.Along (onAwake (eventClock id 10000000000)
      (sessionWindower insertionSorter 10000000000) collectLogic)
      (KeepsSessionsApart (eventClock id 10000000000) insertionSorter 10000000000)
      (WindowStatefulLogic.build (eventClock id 10000000000)
        (sessionWindower insertionSorter 10000000000)) (threeSessions ++ [Call.eof 1 1]) := by
    decide
  have hrun : (Runs.run (onAwake (eventClock id 10000000000)
      (sessionWindower insertionSorter 10000000000) collectLogic)
      (WindowStatefulLogic.build (eventClock id 10000000000)
        (sessionWindower insertionSorter 10000000000)) (threeSessions ++ [Call.eof 1 1])).map
      (fun r => (closes r.2, decide (.late 3 8000000000 ∈ r.2))) =
      some ([(1, ⟨0, 5000000000⟩, [[0, 5000000000]]),
        (3, ⟨20000000000, 20000000000⟩, [[20000000000]]),
        (4, ⟨40000000000, 40000000000⟩, [[40000000000]])], true) := by decide
  obtain ⟨⟨s, events⟩, hrun, hevents⟩ := Option.map_eq_some_iff.mp hrun
  simp only [Prod.mk.injEq, decide_eq_true_eq] at hevents
  exact ⟨(losesNoValue_iff (eventClock id 10000000000) insertionSorter (by decide) collectLogic
    threeSessions 1 1).mpr hapart, s, events, hrun, hevents⟩

/-- With a gap of ten seconds, the item at 8 s joins the session of 0 s with the one of 15 s, and
the value of 15 s is never emitted. -/
theorem not_losesNoValue_of_join :
    ¬ LosesNoValue (eventClock id 10000000000) (sessionWindower insertionSorter 10000000000)
      collectLogic
      ([⟨0, 0, .ready (some 0)⟩, ⟨0, 0, .ready (some 15000000000)⟩,
        ⟨0, 0, .ready (some 8000000000)⟩] ++ [Call.eof 0 0]) := by
  intro h
  have hrun : (Runs.run (onAwake (eventClock id 10000000000)
      (sessionWindower insertionSorter 10000000000) collectLogic)
      (WindowStatefulLogic.build (eventClock id 10000000000)
        (sessionWindower insertionSorter 10000000000))
      ([⟨0, 0, .ready (some 0)⟩, ⟨0, 0, .ready (some 15000000000)⟩,
        ⟨0, 0, .ready (some 8000000000)⟩] ++ [Call.eof 0 0])).map
      (fun r => (r.1.windower.sessions, r.1.currentState.isEmpty)) = some ([], false) := by
    decide
  obtain ⟨⟨s, events⟩, hrun, hstate⟩ := Option.map_eq_some_iff.mp hrun
  simp only [Prod.mk.injEq] at hstate
  have hempty := h.empty _ s events List.prefix_rfl hrun (by simp [sessionWindower, hstate.1])
  rw [hstate.2] at hempty
  exact absurd hempty (by decide)

end Bytewax
