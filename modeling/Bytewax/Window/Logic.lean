import Bytewax.Lib.Keyed
import Bytewax.Lib.Runs
import Bytewax.Operators.StatefulUnary
import Bytewax.Window.Windower
import Mathlib.Order.Compare
import Mathlib.Data.Int.Order.Basic
import Std.Data.TreeMap

/-!
# Bytewax.Window.Logic — `WindowStatefulLogic`

The logic that bridges a clock, a windower and one window logic per open window to a stateful
operator.  `onAwake` is a call for one key.  It lists what it does as events, of which the items it
returns are a projection (`WindowEvent.output`); the events also say under which `WindowKey` a value
was folded or a window closed, which the output does not.
-/

namespace Bytewax

open Std (TreeMap)

variable {V R L C W : Type}

/-- What a call of `on_awake` does with a window. -/
inductive WindowEvent (V R : Type)
  | late (key : Int) (value : V)
  | folded (key : Int) (value : V) (itemTime : Int) (metadata : WindowMetadata) (output : List R)
  | closed (key : Int) (metadata : WindowMetadata) (output : List R)
  deriving DecidableEq, Repr

/-- The items that `on_awake` returns for an event: `Err(WindowError::Late(value))` or the logic's
output with the window's metadata. -/
def WindowEvent.output : WindowEvent V R → List (Except V (WindowMetadata × R))
  | .late _ value => [.error value]
  | .folded _ _ _ metadata output => output.map fun r => .ok (metadata, r)
  | .closed _ metadata output => output.map fun r => .ok (metadata, r)

/-- A call of `on_awake`: the system time when the watermark is read, the system time when the time
of the item is read, and the value. -/
structure Call (V : Type) where
  now : Int
  itemNow : Int
  nextValue : Poll (Option V)

/-- `WindowStatefulLogic`; the functions it is generic in are `clock`, `windower` and `logic`
below. -/
structure WindowStatefulLogic (C W L : Type) where
  clock : C
  windower : W
  currentState : TreeMap Int L

namespace WindowStatefulLogic

variable (clock : Clock V C) (windower : Windower W) (logic : WindowLogic V R L)

/-- `WindowStatefulLogic::builder` without a state to resume from. -/
def build : WindowStatefulLogic C W L := ⟨clock.build, windower.build, ∅⟩

/-- The body of the loop over the results of `insert`; the `expect` fails when the windower has no
metadata for a window it inserted into. -/
def onResult (w : W) (value : V) (itemTime : Int) (currentState : TreeMap Int L) :
    Except InsertError Int → Option (TreeMap Int L × List (WindowEvent V R))
  | .error (.late key) => some (currentState, [.late key value])
  | .ok key => do
    let metadata ← windower.getMetadata w key
    let (l, output) := logic.withNext (currentState.getD key logic.build) (some (value, itemTime))
    return (currentState.insert key l, [.folded key value itemTime metadata output])

/-- The body of the loop over the windows that `drain_closed` returns; the `expect` fails when
there is no logic for a closed window. -/
def onClosed (currentState : TreeMap Int L) (closed : Int × WindowMetadata) :
    Option (TreeMap Int L × List (WindowEvent V R)) := do
  let l ← currentState[closed.1]?
  return (currentState.erase closed.1, [.closed closed.1 closed.2 (logic.withNext l none).2])

/-- The first half of `on_awake`: window the item, if there is one. -/
def acceptItem (s : WindowStatefulLogic C W L) (watermark itemNow : Int) :
    Poll (Option V) → Option (WindowStatefulLogic C W L × List (WindowEvent V R))
  | .ready (some value) => do
    let (c, itemTime) := clock.timeFor s.clock itemNow value
    let (w, results) ← windower.insert s.windower watermark itemTime
    let (currentState, events) ←
      Runs.run (onResult windower logic w value itemTime) s.currentState results
    return (⟨c, w, currentState⟩, events)
  | _ => some (s, [])

/-- The second half of `on_awake`: close the windows that the watermark has passed. -/
def closeWindows (s : WindowStatefulLogic C W L) (watermark : Int) :
    Option (WindowStatefulLogic C W L × List (WindowEvent V R)) := do
  let (w, closed) ← windower.drainClosed s.windower watermark
  let (currentState, events) ← Runs.run (onClosed logic) s.currentState closed
  return ({ s with windower := w, currentState }, events)

/-- `WindowStatefulLogic::on_awake`. -/
def onAwake (s : WindowStatefulLogic C W L) (call : Call V) :
    Option (WindowStatefulLogic C W L × List (WindowEvent V R)) := do
  let (c, watermark) ← clock.watermark s.clock call.now call.nextValue
  let (s, accepted) ←
    acceptItem clock windower logic { s with clock := c } watermark call.itemNow call.nextValue
  let (s, closed) ← closeWindows windower logic s watermark
  return (s, accepted ++ closed)

/-- `WindowStatefulLogic` as a stateful logic, with its `fate` and `next_awake`. -/
def stateful : StatefulLogic (Call V) (WindowEvent V R) (WindowStatefulLogic C W L) where
  build := build clock windower
  onAwake := onAwake clock windower logic
  fate s := if windower.isEmpty s.windower then .discard else .retain
  nextAwake s := windower.nextClose s.windower

end WindowStatefulLogic

/-! ### What the events say about values -/

namespace WindowEvent

/-- The window an event folds into, with the value and the time of the item. -/
def fold? : WindowEvent V R → Option (Int × V × Int)
  | .folded key value itemTime _ _ => some (key, value, itemTime)
  | _ => none

/-- The window an event closes, with its metadata and the output of its logic. -/
def close? : WindowEvent V R → Option (Int × WindowMetadata × List R)
  | .closed key metadata output => some (key, metadata, output)
  | _ => none

end WindowEvent

/-- The values that were folded, each with the window it went into. -/
def foldList (events : List (WindowEvent V R)) : List (Int × V × Int) :=
  events.filterMap WindowEvent.fold?

/-- The values folded into a window, with the times of the items, in order. -/
def folds (key : Int) (events : List (WindowEvent V R)) : List (V × Int) :=
  Keyed.valuesOf key (foldList events)

/-- All values that were folded, with the times of the items. -/
def accepted (events : List (WindowEvent V R)) : List (V × Int) :=
  (foldList events).map Prod.snd

/-- The windows that were closed. -/
def closes (events : List (WindowEvent V R)) : List (Int × WindowMetadata × List R) :=
  events.filterMap WindowEvent.close?

section

variable (k : Int) (es es' : List (WindowEvent V R))

@[simp] theorem foldList_append : foldList (es ++ es') = foldList es ++ foldList es' := by
  simp [foldList]

@[simp] theorem folds_append : folds k (es ++ es') = folds k es ++ folds k es' := by
  simp [folds]

@[simp] theorem accepted_append : accepted (es ++ es') = accepted es ++ accepted es' := by
  simp [accepted]

@[simp] theorem closes_append : closes (es ++ es') = closes es ++ closes es' := by
  simp [closes]

end

/-- The events of closing windows. -/
def closeEvents (logic : WindowLogic V R L) (logicOf : Int → L)
    (closed : List (Int × WindowMetadata)) : List (WindowEvent V R) :=
  closed.map fun c => .closed c.1 c.2 (logic.withNext (logicOf c.1) none).2

@[simp] theorem foldList_closeEvents (logic : WindowLogic V R L) (logicOf : Int → L)
    (closed : List (Int × WindowMetadata)) : foldList (closeEvents logic logicOf closed) = [] := by
  simp [foldList, closeEvents, List.filterMap_map, Function.comp_def, WindowEvent.fold?]

@[simp] theorem folds_closeEvents (logic : WindowLogic V R L) (logicOf : Int → L)
    (closed : List (Int × WindowMetadata)) (k : Int) :
    folds k (closeEvents logic logicOf closed) = [] := by
  simp [folds]

theorem closes_closeEvents (logic : WindowLogic V R L) (logicOf : Int → L)
    (closed : List (Int × WindowMetadata)) : closes (closeEvents logic logicOf closed) =
      closed.map fun c => (c.1, c.2, (logic.withNext (logicOf c.1) none).2) := by
  simp [closes, closeEvents, List.filterMap_map, Function.comp_def, WindowEvent.close?]

namespace WindowStatefulLogic

variable {clock : Clock V C} {windower : Windower W} {logic : WindowLogic V R L}

/-- Closing windows that have their logics takes these logics, and only these, out of
`current_state`. -/
theorem run_onClosed (logic : WindowLogic V R L) :
    ∀ (closed : List (Int × WindowMetadata)) (cur : TreeMap Int L),
    (closed.map Prod.fst).Nodup → (∀ c ∈ closed, c.1 ∈ cur) →
    ∃ cur', Runs.run (onClosed logic) cur closed =
        some (cur', closeEvents logic (fun k => cur.getD k logic.build) closed) ∧
      ∀ k, cur'[k]? = if k ∈ closed.map Prod.fst then none else cur[k]?
  | [], cur, _, _ => ⟨cur, rfl, by simp⟩
  | c :: closed, cur, hnd, hmem => by
    rw [List.map_cons, List.nodup_cons] at hnd
    have hne : ∀ d ∈ closed, c.1 ≠ d.1 := fun d hd he =>
      hnd.1 (he ▸ List.mem_map_of_mem hd)
    obtain ⟨l, hl⟩ : ∃ l, cur[c.1]? = some l := by
      have := hmem c (by simp)
      rw [TreeMap.mem_iff_isSome_getElem?] at this
      exact Option.isSome_iff_exists.mp this
    obtain ⟨cur', hrun, hcur'⟩ := run_onClosed logic closed (cur.erase c.1) hnd.2 fun d hd => by
      rw [TreeMap.mem_erase]
      exact ⟨by simpa using hne d hd, hmem d (by simp [hd])⟩
    refine ⟨cur', ?_, fun k => ?_⟩
    · have hevents : closeEvents logic (fun k => (cur.erase c.1).getD k logic.build) closed =
          closeEvents logic (fun k => cur.getD k logic.build) closed := by
        refine List.map_congr_left fun d hd => ?_
        dsimp only
        rw [TreeMap.getD_erase, if_neg (by simpa using hne d hd)]
      rw [hevents] at hrun
      have hstep : onClosed logic cur c = some (cur.erase c.1,
          [WindowEvent.closed c.1 c.2 (logic.withNext (cur.getD c.1 logic.build) none).2]) := by
        simp [onClosed, hl, TreeMap.getD_eq_getD_getElem?]
      exact Runs.run_cons hstep hrun
    · rw [hcur' k, TreeMap.getElem?_erase]
      by_cases hk : c.1 = k
      · subst hk
        simp
      · have hk' : ¬ k = c.1 := fun he => hk he.symm
        simp only [List.map_cons, List.mem_cons, hk', false_or, Std.LawfulEqCmp.compare_eq_iff_eq,
          hk, if_false]

/-- The loop over the results of an insertion closes nothing, and folds into the windows that the
item was inserted into. -/
theorem run_onResult {w : W} {value : V} {itemTime : Int} {cur cur' : TreeMap Int L}
    {results : List (Except InsertError Int)} {es : List (WindowEvent V R)}
    (h : Runs.run (onResult windower logic w value itemTime) cur results = some (cur', es)) :
    closes es = [] ∧ ∀ p ∈ foldList es, .ok p.1 ∈ results := by
  refine Runs.run_prefixes (P := fun results _ es => closes es = [] ∧
    ∀ p ∈ foldList es, .ok p.1 ∈ results) ?_ ⟨rfl, by simp [foldList]⟩ h
  rintro pre r post m o m₁ o₁ - - ⟨hclose, hfold⟩ hs
  have hstep : closes o₁ = [] ∧ ∀ p ∈ foldList o₁, .ok p.1 = r := by
    cases r with
    | error e =>
      cases e
      simp only [onResult, Option.some.injEq, Prod.mk.injEq] at hs
      simp [← hs.2, closes, foldList, WindowEvent.close?, WindowEvent.fold?]
    | ok key =>
      obtain ⟨metadata, -, hs⟩ := Option.bind_eq_some_iff.mp hs
      simp only [Option.pure_def, Option.some.injEq, Prod.mk.injEq] at hs
      simp [← hs.2, closes, foldList, WindowEvent.close?, WindowEvent.fold?]
  refine ⟨by simp [hclose, hstep.1], fun p hp => ?_⟩
  rw [foldList_append] at hp
  rcases List.mem_append.mp hp with hp | hp
  · exact List.mem_append_left _ (hfold p hp)
  · exact List.mem_append_right _ (by simp [hstep.2 p hp])

/-- The loop over the closed windows folds nothing, and closes just these. -/
theorem run_onClosed_events {closed : List (Int × WindowMetadata)} {cur cur' : TreeMap Int L}
    {es : List (WindowEvent V R)}
    (h : Runs.run (onClosed logic) cur closed = some (cur', es)) :
    foldList es = [] ∧ (closes es).map (fun c => (c.1, c.2.1)) = closed := by
  refine Runs.run_prefixes (P := fun closed _ es => foldList es = [] ∧
    (closes es).map (fun c => (c.1, c.2.1)) = closed) ?_ ⟨rfl, rfl⟩ h
  rintro pre c post m o m₁ o₁ - - ⟨hfold, hclose⟩ hs
  obtain ⟨l, -, hs⟩ := Option.bind_eq_some_iff.mp hs
  simp only [Option.pure_def, Option.some.injEq, Prod.mk.injEq] at hs
  rw [foldList_append, closes_append, List.map_append, hfold, hclose, ← hs.2]
  exact ⟨rfl, rfl⟩

/-- A call is an item being accepted, then windows being closed. -/
theorem onAwake_eq_some {s s' : WindowStatefulLogic C W L} {call : Call V}
    {events : List (WindowEvent V R)} : onAwake clock windower logic s call = some (s', events) ↔
      ∃ c watermark mid es es', clock.watermark s.clock call.now call.nextValue =
          some (c, watermark) ∧
        acceptItem clock windower logic { s with clock := c } watermark call.itemNow
          call.nextValue = some (mid, es) ∧
        closeWindows windower logic mid watermark = some (s', es') ∧ events = es ++ es' := by
  simp only [onAwake, Option.bind_eq_bind, Option.bind_eq_some_iff, Prod.exists,
    Option.pure_def, Option.some.injEq, Prod.mk.injEq]
  constructor
  · rintro ⟨c, watermark, hw, mid, es, ha, s'', es', hc, rfl, rfl⟩
    exact ⟨c, watermark, mid, es, es', hw, ha, hc, rfl⟩
  · rintro ⟨c, watermark, mid, es, es', hw, ha, hc, rfl⟩
    exact ⟨c, watermark, hw, mid, es, ha, s', es', hc, rfl, rfl⟩

end WindowStatefulLogic
end Bytewax
