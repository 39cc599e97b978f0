import Bytewax.Window.Logic
import Bytewax.Window.Session
import Bytewax.Window.Sliding

/-!
# Bytewax.Window.Rebuild — snapshots of the windowing logic

What `WindowStatefulLogic` puts into a snapshot, and how it is built again from one: the clock, the
windower and the logic of each window go through Python objects.  Instants become `datetime`s, which
have whole microseconds and the years 1 to 9999.
-/

namespace Bytewax

open Std (TreeMap)

/-- The instants that a `datetime` can stand for. -/
def InPython (t : Int) : Prop := -62135596800000000000 ≤ t ∧ t ≤ 253402300799999999999

instance (t : Int) : Decidable (InPython t) := inferInstanceAs (Decidable (_ ∧ _))

/-- `DateTime<Utc>::into_py`, in microseconds: what is below a microsecond is cut off, and a year
that `datetime` does not have panics. -/
def intoPy (t : Int) : Option Int := if InPython t then some (t / 1000) else none

/-- `DateTime<Utc>::extract`. -/
def extractUtc (microseconds : Int) : Int := microseconds * 1000

theorem intoPy_eq_some {t p : Int} : intoPy t = some p ↔ InPython t ∧ p = t / 1000 := by
  by_cases h : InPython t
  · simp [intoPy, h, eq_comm]
  · simp [intoPy, h]

/-- What has whole microseconds comes back as it was. -/
theorem extractUtc_div {t : Int} (h : 1000 ∣ t) : extractUtc (t / 1000) = t := Int.ediv_mul_cancel h

theorem extractUtc_div_mono {t u : Int} (h : t ≤ u) : extractUtc (t / 1000) ≤ extractUtc (u / 1000) := by
  unfold extractUtc
  omega

/-- A distance of whole microseconds is kept. -/
theorem extractUtc_div_add_le {t u d : Int} (hd : 1000 ∣ d) (h : t + d ≤ u) :
    extractUtc (t / 1000) + d ≤ extractUtc (u / 1000) := by
  unfold extractUtc
  omega

theorem Fits.rebuilt {t d : Int} (h : Fits t d) (hd : 0 < d) (ht : InPython t) :
    Fits (extractUtc (t / 1000)) d := by
  unfold Fits minUtc maxUtc extractUtc at *
  unfold InPython at ht
  omega

/-! ### Clocks -/

/-- A clock with its `snapshot`, and its builder from a snapshot to resume from. -/
structure ResumableClock (V S C : Type) extends Clock V C where
  resume : S → C
  snapshot : C → Option S

/-- `SystemClockConfig`'s clock: its `eof` is not restored. -/
def resumableSystemClock (V : Type) : ResumableClock V Unit Bool where
  toClock := systemClock V
  resume _ := false
  snapshot _ := some ()

/-- `EventClockConfig`'s clock. -/
def resumableEventClock {V : Type} (dtGetter : V → Int) (wait : Int) :
    ResumableClock V (Option (Int × Int)) (Option (Int × Int)) where
  toClock := eventClock dtGetter wait
  resume := Option.map fun etSt => (extractUtc etSt.1, extractUtc etSt.2)
  snapshot
    | none => some none
    | some (eventTime, eventSystemTime) => do
      return some (← intoPy eventTime, ← intoPy eventSystemTime)

/-! ### Windowers -/

/-- A windower with its `snapshot`, and its builder from a snapshot to resume from. -/
structure ResumableWindower (S W : Type) extends Windower W where
  resume : S → W
  snapshot : W → Option S

/-- `Session::snapshot`. -/
def Session.snapshot (s : Session) : Option (Int × Int × Int) := do
  return (s.key, ← intoPy s.start, ← intoPy s.latestEventTime)

/-- `Session::from_snap`. -/
def Session.fromSnap : Int × Int × Int → Session
  | (key, start, latestEventTime) => ⟨key, extractUtc start, extractUtc latestEventTime⟩

/-- The session windower of a gap, with `max_key` in its snapshot. -/
def resumableSessionWindower (sorter : UnstableSort) (gap : Int) :
    ResumableWindower (List (Int × Int × Int) × Int) SessionWindower where
  toWindower := sessionWindower sorter gap
  resume state := ⟨state.1.map Session.fromSnap, state.2⟩
  snapshot w := do return (← w.sessions.mapM Session.snapshot, w.maxKey)

/-- The sliding windower of a configuration; its snapshot is its `close_times`. -/
def resumableSlidingWindower (cfg : SlidingConfig) :
    ResumableWindower (TreeMap Int (Int × Int)) SlidingWindower where
  toWindower := slidingWindower cfg
  resume closeTimes := closeTimes.map fun _ bounds => (extractUtc bounds.1, extractUtc bounds.2)
  snapshot closeTimes :=
    if closeTimes.toList.all fun entry => InPython entry.2.1 ∧ InPython entry.2.2 then
      some (closeTimes.map fun _ bounds => (bounds.1 / 1000, bounds.2 / 1000))
    else none

/-! ### The logic -/

/-- The `PyDict` that `WindowStatefulLogic::snapshot` makes. -/
structure WindowSnapshot (CS WS LS : Type) where
  clock : CS
  windower : WS
  logic : TreeMap Int LS

/-- What happens to the logic of a key: it is awoken, or built again from its snapshot. -/
inductive Turn (V : Type)
  | awake (call : Call V)
  | rebuild

namespace WindowStatefulLogic

variable {V R L C W CS WS LS : Type}
variable (clock : ResumableClock V CS C) (windower : ResumableWindower WS W)
  (logic : ResumableLogic V R LS L)

/-- `WindowStatefulLogic::snapshot`. -/
def snapshot (s : WindowStatefulLogic C W L) : Option (WindowSnapshot CS WS LS) := do
  let clockState ← clock.snapshot s.clock
  let windowerState ← windower.snapshot s.windower
  return ⟨clockState, windowerState, s.currentState.map fun _ l => logic.snapshot l⟩

/-- `WindowStatefulLogic::builder` with a state to resume from. -/
def resume (state : WindowSnapshot CS WS LS) : WindowStatefulLogic C W L :=
  ⟨clock.resume state.clock, windower.resume state.windower,
    state.logic.map fun _ l => logic.resume l⟩

/-- One turn of a key's logic. -/
def turn (s : WindowStatefulLogic C W L) :
    Turn V → Option (WindowStatefulLogic C W L × List (WindowEvent V R))
  | .awake call => onAwake clock.toClock windower.toWindower logic.toWindowLogic s call
  | .rebuild => (snapshot clock windower logic s).map fun state =>
    (resume clock windower logic state, [])

end WindowStatefulLogic
end Bytewax
