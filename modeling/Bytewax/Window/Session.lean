import Bytewax.Window.Windower

/-!
# Bytewax.Window.Session — session windows

The sessions of a key are kept ordered by their start.  Every accepted item makes a session of its
own, which is then merged into the session before it when that one contains its start, and swallows
the session after it when it reaches that one's start.  A merge keeps the key of the earlier session.
-/

namespace Bytewax

/-- `Session`. -/
structure Session where
  key : Int
  start : Int
  latestEventTime : Int
  deriving DecidableEq, Repr

namespace Session

/-- `Session::new`. -/
def new (key start : Int) : Session := ⟨key, start, start⟩

/-- `WindowMetadata::from(&Session)`. -/
def metadata (s : Session) : WindowMetadata := ⟨s.start, s.latestEventTime⟩

/-- `Session::current_close_time`. -/
def currentCloseTime (s : Session) (gap : Int) : Option Int := addDuration s.latestEventTime gap

/-- `Session::is_open_at`. -/
def isOpenAt (s : Session) (time gap : Int) : Option Bool := do
  let close ← s.currentCloseTime gap
  return decide (close > time)

/-- `Session::contains`; the second test is not run when the first fails. -/
def contains (s : Session) (itemTime gap : Int) : Option Bool :=
  if itemTime ≥ s.start then s.isOpenAt itemTime gap else some false

/-- `Session::try_insert`. -/
def tryInsert (s : Session) (itemTime gap : Int) : Option (Session × Bool) := do
  if ← s.contains itemTime gap then
    return ({ s with latestEventTime := max s.latestEventTime itemTime }, true)
  else
    return (s, false)

/-- `Session::merge_with`: keeps this session's key. -/
def mergeWith (s other : Session) : Session where
  key := s.key
  start := min s.start other.start
  latestEventTime := max s.latestEventTime other.latestEventTime

end Session

/-- `slice::sort_unstable` on sessions, ordered by their start: some ordered rearrangement. -/
structure UnstableSort where
  sort : List Session → List Session
  perm : ∀ l, (sort l).Perm l
  sorted : ∀ l, (sort l).Pairwise fun a b => a.start ≤ b.start

/-- `SessionWindower`, without its `gap`. -/
structure SessionWindower where
  sessions : List Session
  maxKey : Int
  deriving DecidableEq, Repr

namespace SessionWindower

variable (sorter : UnstableSort) (gap : Int)

/-- `SessionWindower::add_session`, with `next_key`. -/
def addSession (w : SessionWindower) (itemTime : Int) : SessionWindower where
  sessions := sorter.sort (w.sessions ++ [Session.new (w.maxKey + 1) itemTime])
  maxKey := w.maxKey + 1

/-- The closure that `merge_sessions` folds with. -/
def mergeStep (sessions : List Session) (session : Session) : Option (List Session) :=
  match sessions.getLast? with
  | none => some [session]
  | some prevSession => do
    if ← prevSession.contains session.start gap then
      return sessions.dropLast ++ [prevSession.mergeWith session]
    else
      return sessions.dropLast ++ [prevSession, session]

/-- `SessionWindower::merge_sessions`. -/
def mergeSessions (w : SessionWindower) : Option SessionWindower := do
  let sessions ← w.sessions.foldlM (mergeStep gap) []
  return { w with sessions }

/-- The `find_map` over `iter_mut` in `insert`: the first session that takes the item in, which is
updated; the `expect` fails when there is none. -/
def insertFirst (itemTime : Int) : List Session → Option (List Session × Int)
  | [] => none
  | s :: rest => do
    let (s', inserted) ← s.tryInsert itemTime gap
    if inserted then
      return (s' :: rest, s.key)
    else
      let (rest', key) ← insertFirst itemTime rest
      return (s :: rest', key)

/-- `SessionWindower::insert`. -/
def insert (w : SessionWindower) (watermark itemTime : Int) :
    Option (SessionWindower × List (Except InsertError Int)) :=
  if itemTime < watermark then
    some (w, [.error (.late w.maxKey)])
  else do
    let w ← (w.addSession sorter itemTime).mergeSessions gap
    let (sessions, key) ← insertFirst gap itemTime w.sessions
    return ({ w with sessions }, [.ok key])

/-- `SessionWindower::get_metadata`. -/
def getMetadata (w : SessionWindower) (key : Int) : Option WindowMetadata :=
  (w.sessions.find? fun s => s.key = key).map Session.metadata

/-- The `retain` in `drain_closed`: the sessions that stay and those that closed. -/
def retainOpen (watermark : Int) :
    List Session → Option (List Session × List (Int × WindowMetadata))
  | [] => some ([], [])
  | s :: rest => do
    let isOpen ← s.isOpenAt watermark gap
    let (stay, closed) ← retainOpen watermark rest
    if isOpen then
      return (s :: stay, closed)
    else
      return (stay, (s.key, s.metadata) :: closed)

/-- `SessionWindower::drain_closed`. -/
def drainClosed (w : SessionWindower) (watermark : Int) :
    Option (SessionWindower × List (Int × WindowMetadata)) := do
  let (sessions, keys) ← retainOpen gap watermark w.sessions
  return ({ w with sessions }, keys)

/-- `SessionWindower::next_close`. -/
def nextClose (w : SessionWindower) : Option (Option Int) :=
  match w.sessions.getLast? with
  | none => some none
  | some s => (s.currentCloseTime gap).map some

end SessionWindower

/-- `SessionWindower::builder` accepts the gap. -/
def GapAccepted (gap : Int) : Prop := numMilliseconds gap > 0

instance (gap : Int) : Decidable (GapAccepted gap) := inferInstanceAs (Decidable (_ > _))

/-- The session windower of a gap. -/
def sessionWindower (sorter : UnstableSort) (gap : Int) : Windower SessionWindower where
  build := ⟨[], 0⟩
  insert w := w.insert sorter gap
  getMetadata := SessionWindower.getMetadata
  drainClosed w := w.drainClosed gap
  isEmpty w := w.sessions.isEmpty
  nextClose w := w.nextClose gap

end Bytewax
