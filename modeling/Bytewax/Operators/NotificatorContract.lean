import Bytewax.Operators.EagerNotificator
import Mathlib.Order.Compare
import Mathlib.Order.BoundedOrder.Basic
import Mathlib.Order.Lattice
import Mathlib.Order.Nat

/-!
# Bytewax.Operators.NotificatorContract — the contract of `EagerNotificator`

`EagerNotificator` over any totally ordered timestamps, with the capabilities of all outputs as the
vector that the two logics are handed.  The contract is about a whole run of `notify_at` and
`for_each` calls: what it says is said of the list of the calls of the logics, in the order they
were made, at each moment of the run.
-/

namespace Bytewax

open Std (TreeSet)

/-- `EagerNotificator`: `caps_state`, with the times of the capabilities, and `queue`. -/
structure CapNotificator (T D : Type) [Ord T] where
  capsState : Option (List T × D)
  queue : TreeSet T

namespace CapNotificator

variable {T E D : Type} [LinearOrder T]

/-- A call of one of the two logics: the epoch it is made for, and the capabilities it is handed. -/
inductive Event (T : Type)
  | eager (epoch : T) (caps : List T)
  | close (epoch : T) (caps : List T)
  deriving DecidableEq, Repr

/-- A call of the operator.  The logics of a `for_each` work on the state of the notificator and on
what their closures borrow. -/
inductive Call (T E D : Type)
  | notifyAt (epoch : T)
  | forEach (frontier : Option T) (eagerLogic closeLogic : List T → E × D → E × D)

/-- The frontier has passed the epoch, or the input has ended. -/
def Passed (frontier : Option T) (epoch : T) : Prop := ∀ t ∈ frontier, epoch < t

instance (frontier : Option T) (epoch : T) : Decidable (Passed frontier epoch) :=
  match frontier with
  | none => isTrue fun _ h => nomatch h
  | some t => decidable_of_iff (epoch < t) ⟨fun h _ ht => Option.some.inj ht ▸ h, fun h => h t rfl⟩

/-- `new`. -/
def new (initCaps : List T) (initState : D) : CapNotificator T D := ⟨some (initCaps, initState), ∅⟩

/-- `notify_at`; `none` where the assertion "Got items after EOF" fails. -/
def notifyAt (n : CapNotificator T D) (epoch : T) : Option (CapNotificator T D) :=
  if n.capsState.isSome then some { n with queue := n.queue.insert epoch } else none

/-- `downgrade_all`; `Capability::downgrade` panics when the epoch is before the capability. -/
def downgradeAll (caps : List T) (epoch : T) : Option (List T) :=
  caps.mapM fun cap => if cap ≤ epoch then some epoch else none

/-- The loop over the closed epochs. -/
def closeEpoch (eagerLogic closeLogic : List T → E × D → E × D) (s : List T × E × D) (epoch : T) :
    Option ((List T × E × D) × List (Event T)) := do
  let caps ← downgradeAll s.1 epoch
  return ((caps, closeLogic caps (eagerLogic caps s.2)), [.eager epoch caps, .close epoch caps])

/-- `for_each`. -/
def forEach (eagerLogic closeLogic : List T → E × D → E × D) (frontier : Option T) (env : E)
    (n : CapNotificator T D) : Option ((E × CapNotificator T D) × List (Event T)) :=
  match n.capsState with
  | none => some ((env, n), [])
  | some (caps, state) => do
    let closedEpochs := n.queue.filter fun e => Passed frontier e
    let queue := n.queue.filter fun e => ¬ Passed frontier e
    let ((caps, env, state), closed) ←
      Runs.run (closeEpoch eagerLogic closeLogic) (caps, env, state) closedEpochs.toList
    match frontier with
    | some frontier => do
      let caps ← downgradeAll caps frontier
      if frontier ∈ queue then
        let (env, state) := eagerLogic caps (env, state)
        return ((env, ⟨some (caps, state), queue⟩), closed ++ [.eager frontier caps])
      else
        return ((env, ⟨some (caps, state), queue⟩), closed)
    | none => return ((env, ⟨none, queue⟩), closed)

/-- A call of the operator, of either kind. -/
def step (s : E × CapNotificator T D) :
    Call T E D → Option ((E × CapNotificator T D) × List (Event T))
  | .notifyAt epoch => (s.2.notifyAt epoch).map fun n => ((s.1, n), [])
  | .forEach frontier eagerLogic closeLogic => forEach eagerLogic closeLogic frontier s.1 s.2

/-! ### The contract -/

/-- The epochs that have been notified. -/
def notified (calls : List (Call T E D)) : List T :=
  calls.filterMap fun
    | .notifyAt epoch => some epoch
    | .forEach _ _ _ => none

/-- The frontier of the last `for_each`, or the one given where there was none. -/
def lastFrontier (frontier : Option T) (calls : List (Call T E D)) : Option T :=
  calls.foldl (fun frontier call => match call with
    | .notifyAt _ => frontier
    | .forEach frontier _ _ => frontier) frontier

/-- Each notified epoch is not below the frontier of the `for_each` before it, and frontiers do not
go back. -/
def Orderly : Option T → List (Call T E D) → Prop
  | _, [] => True
  | frontier, .notifyAt epoch :: calls => ¬ Passed frontier epoch ∧ Orderly frontier calls
  | frontier, .forEach frontier' _ _ :: calls =>
    (∀ t, Passed frontier t → Passed frontier' t) ∧ Orderly frontier' calls

/-- The epochs of the calls of the close logic, in order. -/
def closes (events : List (Event T)) : List T :=
  events.filterMap fun
    | .eager _ _ => none
    | .close epoch _ => some epoch

namespace Event

/-- The epoch of a call of a logic. -/
def epoch : Event T → T
  | .eager epoch _ | .close epoch _ => epoch

/-- The capabilities that a logic is handed. -/
def caps : Event T → List T
  | .eager _ caps | .close _ caps => caps

/-- The call of the logic, on the state of the notificator and what the logics borrow. -/
def call (eagerLogic closeLogic : List T → E × D → E × D) (s : E × D) : Event T → E × D
  | .eager _ caps => eagerLogic caps s
  | .close _ caps => closeLogic caps s

end Event

/-- Calls of the logics, one after the other. -/
def called (eagerLogic closeLogic : List T → E × D → E × D) (s : E × D) (events : List (Event T)) :
    E × D :=
  events.foldl (Event.call eagerLogic closeLogic) s

/-- The events of a call of the operator are what it does to the state: those of a `for_each`, made
one after the other, take it to the new one, of which nothing is left at the end of the input; a
`notify_at` leaves it as it is. -/
def Traced (s : E × CapNotificator T D) (call : Call T E D) (s' : E × CapNotificator T D)
    (events : List (Event T)) : Prop :=
  match call, s.2.capsState with
  | .notifyAt _, _ => s'.1 = s.1 ∧ s'.2.capsState = s.2.capsState ∧ events = []
  | .forEach _ _ _, none => s' = s ∧ events = []
  | .forEach _ eagerLogic closeLogic, some (_, state) =>
    s'.1 = (called eagerLogic closeLogic (s.1, state) events).1 ∧
      ∀ p ∈ s'.2.capsState, p.2 = (called eagerLogic closeLogic (s.1, state) events).2

/-- What has been called so far keeps the contract, for the calls of the operator so far and as many
outputs. -/
structure Contract (outputs : Nat) (start : Option T) (calls : List (Call T E D))
    (events : List (Event T)) : Prop where
  /-- The close logic runs in increasing epoch order, so once for an epoch. -/
  increasing : (closes events).Pairwise (· < ·)
  /-- It has run for the notified epochs that the frontier has passed, and for no others. -/
  closed : ∀ e, e ∈ closes events ↔ e ∈ notified calls ∧ Passed (lastFrontier start calls) e
  /-- It runs directly after the eager logic of the same epoch. -/
  after_eager : ∀ pre e caps post, events = pre ++ .close e caps :: post →
    ∃ pre', pre = pre' ++ [.eager e caps]
  /-- The eager logic runs for a notified epoch, once the smaller ones are closed and before it is
  closed itself. -/
  eager : ∀ pre e caps post, events = pre ++ .eager e caps :: post → e ∈ notified calls ∧
    (∀ e' ∈ notified calls, e' < e → e' ∈ closes pre) ∧ e ∉ closes pre
  /-- The capabilities are those of all outputs, at the epoch of the call. -/
  caps : ∀ event ∈ events, event.caps = List.replicate outputs event.epoch
  /-- They are not moved backwards from call to call. -/
  forwards : (events.map Event.epoch).Pairwise (· ≤ ·)

/-! ### What one `for_each` calls -/

section Trace

variable {frontier g : Option T} {e e' : T} {k : Nat} {epochs : List T}

omit [LinearOrder T] in
@[simp] theorem closes_append (o o' : List (Event T)) : closes (o ++ o') = closes o ++ closes o' :=
  List.filterMap_append

/-- The calls for a closed epoch. -/
def both (k : Nat) (e : T) : List (Event T) :=
  [.eager e (List.replicate k e), .close e (List.replicate k e)]

/-- The call for the frontier epoch, if it has been notified. -/
def opened (k : Nat) (frontier : Option T) (queue : TreeSet T) : List (Event T) :=
  (frontier.toList.filter fun e => e ∈ queue).map fun e => .eager e (List.replicate k e)

omit [LinearOrder T] in
@[simp] theorem closes_flatMap_both : closes (epochs.flatMap (both k)) = epochs := by
  induction epochs with
  | nil => rfl
  | cons e epochs ih =>
    rw [List.flatMap_cons, closes_append, ih]
    rfl

theorem mem_opened {queue : TreeSet T} {event : Event T} : event ∈ opened k frontier queue ↔
    ∃ e ∈ frontier, e ∈ queue ∧ event = .eager e (List.replicate k e) := by
  simp [opened, and_assoc, eq_comm]

@[simp] theorem closes_opened {queue : TreeSet T} : closes (opened k frontier queue) = [] := by
  simp [opened, closes]

theorem opened_of_mem {queue : TreeSet T} (h : e ∈ queue) :
    opened k (some e) queue = [.eager e (List.replicate k e)] := by
  simp [opened, h]

theorem opened_of_not_mem {queue : TreeSet T} (h : e ∉ queue) : opened k (some e) queue = [] := by
  simp [opened, h]

omit [LinearOrder T] in
theorem mem_flatMap_both {event : Event T} : event ∈ epochs.flatMap (both k) ↔ ∃ e ∈ epochs,
    event = .eager e (List.replicate k e) ∨ event = .close e (List.replicate k e) := by
  simp [both]

theorem forwards_flatMap_both (h : epochs.Pairwise (· < ·)) :
    ((epochs.flatMap (both k)).map Event.epoch).Pairwise (· ≤ ·) := by
  induction h with
  | nil => exact .nil
  | @cons e epochs hlt _ ih =>
    have hle : ∀ x ∈ (epochs.flatMap (both k)).map Event.epoch, e ≤ x := by
      intro x hx
      obtain ⟨event, hevent, rfl⟩ := List.mem_map.mp hx
      obtain ⟨e', he', rfl | rfl⟩ := mem_flatMap_both.mp hevent
      · exact (hlt e' he').le
      · exact (hlt e' he').le
    rw [List.flatMap_cons, List.map_append]
    refine .cons ?_ (.cons hle ih)
    intro x hx
    rcases List.mem_cons.mp hx with rfl | hx
    · exact le_rfl
    · exact hle x hx

omit [LinearOrder T] in
/-- Where a call for a closed epoch stands among those of a `for_each`. -/
theorem split_both {pre post : List (Event T)} {event : Event T}
    (h : epochs.flatMap (both k) = pre ++ event :: post) :
    ∃ es e es', epochs = es ++ e :: es' ∧
      ((event = .eager e (List.replicate k e) ∧ pre = es.flatMap (both k)) ∨
        (event = .close e (List.replicate k e) ∧
          pre = es.flatMap (both k) ++ [.eager e (List.replicate k e)])) := by
  induction epochs generalizing pre with
  | nil => simp at h
  | cons e epochs ih =>
    rw [List.flatMap_cons] at h
    rcases pre with _ | ⟨x, _ | ⟨y, pre⟩⟩
    · obtain ⟨rfl, -⟩ := List.cons.inj h
      exact ⟨[], e, epochs, rfl, .inl ⟨rfl, rfl⟩⟩
    · obtain ⟨rfl, h₁⟩ := List.cons.inj h
      obtain ⟨rfl, -⟩ := List.cons.inj h₁
      exact ⟨[], e, epochs, rfl, .inr ⟨rfl, rfl⟩⟩
    · obtain ⟨rfl, h₁⟩ := List.cons.inj h
      obtain ⟨rfl, h₂⟩ := List.cons.inj h₁
      obtain ⟨es, e', es', rfl, hcase⟩ := ih h₂
      refine ⟨e :: es, e', es', rfl, ?_⟩
      rcases hcase with ⟨rfl, rfl⟩ | ⟨rfl, rfl⟩
      · exact .inl ⟨rfl, rfl⟩
      · exact .inr ⟨rfl, rfl⟩

theorem Passed.lt (h : Passed frontier e) (h' : ¬ Passed frontier e') : e < e' := by
  cases frontier with
  | none => exact absurd (fun _ ht => nomatch ht) h'
  | some t =>
    have he : e < t := h t rfl
    have he' : ¬ e' < t := fun hlt => h' fun _ ht => Option.some.inj ht ▸ hlt
    exact lt_of_lt_of_le he (not_lt.mp he')

theorem Passed.of_lt (h : Passed frontier e) (hlt : e' < e) : Passed frontier e' :=
  fun t ht => lt_trans hlt (h t ht)

theorem not_passed_self (e : T) : ¬ Passed (some e) e := fun h => lt_irrefl e (h e rfl)

theorem passed_some {t : T} : Passed (some t) e ↔ e < t :=
  ⟨fun h => h t rfl, fun h _ ht => Option.some.inj ht ▸ h⟩

theorem passed_none : Passed none e := fun _ h => nomatch h

theorem passed_mono {t u : T} (h : t ≤ u) (e : T) (he : Passed (some t) e) : Passed (some u) e :=
  passed_some.mpr (lt_of_lt_of_le (passed_some.mp he) h)

theorem downgradeAll_of_le {caps : List T} (h : ∀ c ∈ caps, c ≤ e) :
    downgradeAll caps e = some (List.replicate caps.length e) := by
  unfold downgradeAll
  induction caps with
  | nil => rfl
  | cons c caps ih =>
    rw [List.mapM_cons, if_pos (h c List.mem_cons_self),
      ih fun c hc => h c (List.mem_cons_of_mem _ hc)]
    rfl

variable (eagerLogic closeLogic : List T → E × D → E × D)

/-- **The loop over the closed epochs.** -/
theorem run_closeEpoch {caps : List T} {s : E × D} (hsorted : epochs.Pairwise (· < ·))
    (hcaps : ∀ c ∈ caps, ∀ e ∈ epochs, c ≤ e) :
    ∃ caps' s', Runs.run (closeEpoch eagerLogic closeLogic) (caps, s) epochs =
        some ((caps', s'), epochs.flatMap (both caps.length)) ∧ caps'.length = caps.length ∧
      ∀ x, (∀ c ∈ caps, c ≤ x) → (∀ e ∈ epochs, e ≤ x) → ∀ c ∈ caps', c ≤ x := by
  induction epochs generalizing caps s with
  | nil => exact ⟨caps, s, rfl, rfl, fun x hx _ => hx⟩
  | cons e epochs ih =>
    obtain ⟨hlt, hsorted⟩ := List.pairwise_cons.mp hsorted
    have hdown := downgradeAll_of_le fun c hc => hcaps c hc e List.mem_cons_self
    obtain ⟨caps', s', hrun, hlen, hle⟩ := @ih (List.replicate caps.length e)
      (closeLogic (List.replicate caps.length e) (eagerLogic (List.replicate caps.length e) s))
      hsorted fun c hc e' he' => by
        rw [List.eq_of_mem_replicate hc]
        exact (hlt e' he').le
    rw [List.length_replicate] at hrun hlen
    refine ⟨caps', s', ?_, hlen, fun x _ hx => ?_⟩
    · refine Runs.run_cons ?_ hrun
      simp only [closeEpoch, hdown, Option.bind_eq_bind, Option.bind_some, both]
      rfl
    · apply hle x
      · intro c hc
        rw [List.eq_of_mem_replicate hc]
        exact hx e List.mem_cons_self
      · exact fun e' he' => hx e' (List.mem_cons_of_mem _ he')

theorem mem_closedEpochs {queue : TreeSet T} :
    e ∈ (queue.filter fun e => Passed frontier e).toList ↔ e ∈ queue ∧ Passed frontier e := by
  rw [TreeSet.toList_filter, List.mem_filter, TreeSet.mem_toList]
  simp

theorem mem_openEpochs {queue : TreeSet T} :
    e ∈ (queue.filter fun e => ¬ Passed frontier e) ↔ e ∈ queue ∧ ¬ Passed frontier e := by
  rw [← TreeSet.mem_toList, TreeSet.toList_filter, List.mem_filter, TreeSet.mem_toList]
  simp

theorem sorted_closedEpochs (frontier : Option T) (queue : TreeSet T) :
    (queue.filter fun e => Passed frontier e).toList.Pairwise (· < ·) :=
  TreeSet.ordered_toList.imp fun hlt => compare_lt_iff_lt.mp hlt

/-- **One `for_each`** that no capability has to go back for. -/
theorem forEach_of_le {n : CapNotificator T D} {env : E} {caps : List T} {state : D}
    (hn : n.capsState = some (caps, state)) (hqueue : ∀ c ∈ caps, ∀ e ∈ n.queue, c ≤ e)
    (hcaps : ∀ c ∈ caps, ∀ t ∈ frontier, c ≤ t) :
    ∃ env' n', forEach eagerLogic closeLogic frontier env n = some ((env', n'),
        (n.queue.filter fun e => Passed frontier e).toList.flatMap (both caps.length) ++
          opened caps.length frontier (n.queue.filter fun e => ¬ Passed frontier e)) ∧
      n'.queue = (n.queue.filter fun e => ¬ Passed frontier e) ∧
      n'.capsState.map Prod.fst = frontier.map fun t => List.replicate caps.length t := by
  obtain ⟨caps', ⟨env', state'⟩, hrun, hlen, hle⟩ :=
    run_closeEpoch eagerLogic closeLogic (s := (env, state)) (sorted_closedEpochs frontier n.queue)
      fun c hc e he => hqueue c hc e (mem_closedEpochs.mp he).1
  cases frontier with
  | none =>
    refine ⟨env', ⟨none, n.queue.filter fun e => ¬ Passed none e⟩, ?_, rfl, rfl⟩
    simp only [forEach, hn, hrun, Option.bind_eq_bind, Option.bind_some, Option.pure_def]
    simp [opened]
  | some t =>
    have hdown : downgradeAll caps' t = some (List.replicate caps.length t) := by
      rw [← hlen]
      apply downgradeAll_of_le
      apply hle t fun c hc => hcaps c hc t rfl
      exact fun e he => (passed_some.mp (mem_closedEpochs.mp he).2).le
    by_cases hmem : t ∈ (n.queue.filter fun e => ¬ Passed (some t) e)
    · rcases heager : eagerLogic (List.replicate caps.length t) (env', state') with ⟨env₂, state₂⟩
      refine ⟨env₂, ⟨some (List.replicate caps.length t, state₂),
        n.queue.filter fun e => ¬ Passed (some t) e⟩, ?_, rfl, rfl⟩
      rw [opened_of_mem hmem]
      simp only [forEach, hn, hrun, hdown, hmem, heager, if_true, Option.bind_eq_bind, Option.bind_some,
        Option.pure_def]
    · refine ⟨env', ⟨some (List.replicate caps.length t, state'),
        n.queue.filter fun e => ¬ Passed (some t) e⟩, ?_, rfl, rfl⟩
      rw [opened_of_not_mem hmem]
      simp only [forEach, hn, hrun, hdown, hmem, if_false, Option.bind_eq_bind, Option.bind_some,
        Option.pure_def, List.append_nil]

end Trace

/-! ### One call keeps the contract -/

section Step

variable {outputs : Nat} {start frontier : Option T} {calls : List (Call T E D)}
  {events : List (Event T)} {s : E × CapNotificator T D} {epoch : T}
  {eagerLogic closeLogic : List T → E × D → E × D}

omit [LinearOrder T] in
@[simp] theorem notified_notifyAt : notified (calls ++ [.notifyAt epoch]) =
    notified calls ++ [epoch] := by
  simp [notified]

omit [LinearOrder T] in
@[simp] theorem notified_forEach :
    notified (calls ++ [.forEach frontier eagerLogic closeLogic]) = notified calls := by
  simp [notified]

omit [LinearOrder T] in
@[simp] theorem lastFrontier_notifyAt :
    lastFrontier start (calls ++ [.notifyAt epoch]) = lastFrontier start calls := by
  simp [lastFrontier]

omit [LinearOrder T] in
@[simp] theorem lastFrontier_forEach :
    lastFrontier start (calls ++ [.forEach frontier eagerLogic closeLogic]) = frontier := by
  simp [lastFrontier]

/-- What holds between two calls of the operator. -/
structure Kept (outputs : Nat) (start : Option T) (calls : List (Call T E D))
    (s : E × CapNotificator T D) (events : List (Event T)) : Prop where
  contract : Contract outputs start calls events
  reached : ∀ event ∈ events, ∀ x, ¬ Passed (lastFrontier start calls) x → event.epoch ≤ x
  queue : ∀ e, e ∈ s.2.queue ↔ e ∈ notified calls ∧ ¬ Passed (lastFrontier start calls) e
  caps : ∀ caps ∈ s.2.capsState.map Prod.fst, caps.length = outputs ∧
    ∀ c ∈ caps, ∀ x, ¬ Passed (lastFrontier start calls) x → c ≤ x
  ended : s.2.capsState = none ↔ lastFrontier start calls = none

/-- An epoch is notified that the frontier has not passed. -/
theorem Kept.notifyAt (h : Kept outputs start calls s events)
    (hepoch : ¬ Passed (lastFrontier start calls) epoch) :
    ∃ s', step s (.notifyAt epoch) = some (s', []) ∧
      Kept outputs start (calls ++ [.notifyAt epoch]) s' events := by
  have hsome : s.2.capsState.isSome = true := by
    rw [Option.isSome_iff_ne_none]
    intro hnone
    rw [h.ended.mp hnone] at hepoch
    exact hepoch fun _ ht => nomatch ht
  refine ⟨(s.1, { s.2 with queue := s.2.queue.insert epoch }), ?_, ⟨?_, ?_, ?_, ?_, ?_, ?_⟩,
    ?_, ?_, ?_, ?_⟩
  · simp [step, CapNotificator.notifyAt, hsome]
  · exact h.contract.increasing
  · intro e
    rw [h.contract.closed, notified_notifyAt, lastFrontier_notifyAt, List.mem_append,
      List.mem_singleton, or_and_right]
    refine ⟨.inl, ?_⟩
    rintro (he | ⟨rfl, he⟩)
    · exact he
    · exact absurd he hepoch
  · exact h.contract.after_eager
  · intro pre e caps post hsplit
    obtain ⟨hmem, hsmaller, hclose⟩ := h.contract.eager pre e caps post hsplit
    rw [notified_notifyAt]
    refine ⟨List.mem_append_left _ hmem, fun e' he' hlt => ?_, hclose⟩
    rcases List.mem_append.mp he' with he' | he'
    · exact hsmaller e' he' hlt
    · -- The new epoch is not before an epoch that the eager logic has been called for.
      obtain rfl := List.mem_singleton.mp he'
      have hle : e ≤ e' := h.reached (.eager e caps) (hsplit ▸ by simp) e' hepoch
      exact absurd hlt (not_lt.mpr hle)
  · exact h.contract.caps
  · exact h.contract.forwards
  · rw [lastFrontier_notifyAt]
    exact h.reached
  · intro e
    rw [notified_notifyAt, lastFrontier_notifyAt, TreeSet.mem_insert, h.queue, List.mem_append,
      List.mem_singleton, compare_eq_iff_eq, or_and_right]
    constructor
    · rintro (rfl | he)
      · exact .inr ⟨rfl, hepoch⟩
      · exact .inl he
    · rintro (he | ⟨rfl, -⟩)
      · exact .inr he
      · exact .inl rfl
  · rw [lastFrontier_notifyAt]
    exact h.caps
  · rw [lastFrontier_notifyAt]
    exact h.ended

/-- Where a call stands once a `for_each` has made its own. -/
theorem split_forEach {k : Nat} {epochs : List T} {queue : TreeSet T} {pre post : List (Event T)}
    {event : Event T}
    (h : events ++ (epochs.flatMap (both k) ++ opened k frontier queue) = pre ++ event :: post) :
    (∃ post', events = pre ++ event :: post') ∨
    (∃ es e es', epochs = es ++ e :: es' ∧
      ((event = .eager e (List.replicate k e) ∧ pre = events ++ es.flatMap (both k)) ∨
        (event = .close e (List.replicate k e) ∧
          pre = events ++ es.flatMap (both k) ++ [.eager e (List.replicate k e)]))) ∨
    ∃ e ∈ frontier, e ∈ queue ∧ event = .eager e (List.replicate k e) ∧
      closes pre = closes events ++ epochs := by
  rcases Runs.split_append h with ⟨pre', rfl, hnew⟩ | ⟨post', -, hold⟩
  · rcases Runs.split_append hnew with ⟨pre'', rfl, hopened⟩ | ⟨post', -, hblock⟩
    · have hmem : event ∈ opened k frontier queue := by
        rw [hopened]
        simp
      obtain ⟨e, he, heq, rfl⟩ := mem_opened.mp hmem
      have hnil : closes (opened k frontier queue) = [] := closes_opened
      rw [hopened, closes_append] at hnil
      refine .inr (.inr ⟨e, he, heq, rfl, ?_⟩)
      rw [closes_append, closes_append, closes_flatMap_both, (List.append_eq_nil_iff.mp hnil).1,
        List.append_nil]
    · obtain ⟨es, e, es', hes, ⟨rfl, rfl⟩ | ⟨rfl, rfl⟩⟩ := split_both hblock
      · exact .inr (.inl ⟨es, e, es', hes, .inl ⟨rfl, rfl⟩⟩)
      · exact .inr (.inl ⟨es, e, es', hes, .inr ⟨rfl, (List.append_assoc _ _ _).symm⟩⟩)
  · exact .inl ⟨post', hold⟩

/-- The epochs that a `for_each` closes and those it leaves in the queue. -/
structure Closing (notified : List T) (last frontier : Option T) (epochs : List T)
    (queue : TreeSet T) : Prop where
  sorted : epochs.Pairwise (· < ·)
  forwards : ∀ t, Passed last t → Passed frontier t
  epochs : ∀ e, e ∈ epochs ↔ (e ∈ notified ∧ ¬ Passed last e) ∧ Passed frontier e
  queue : ∀ e, e ∈ queue ↔ (e ∈ notified ∧ ¬ Passed last e) ∧ ¬ Passed frontier e

variable {epochs : List T} {queue : TreeSet T}

/-- The eager logic is called for an epoch when the smaller ones are closed. -/
theorem Closing.eager (hc : Closing (notified calls) (lastFrontier start calls) frontier epochs queue)
    (h : Contract outputs start calls events) {pre post : List (Event T)} {e : T} {caps : List T}
    (hsplit : events ++ (epochs.flatMap (both outputs) ++ opened outputs frontier queue) =
      pre ++ .eager e caps :: post) :
    e ∈ notified calls ∧ (∀ e' ∈ notified calls, e' < e → e' ∈ closes pre) ∧ e ∉ closes pre := by
  -- A smaller epoch is closed already or among those that the `for_each` closes.
  have hsmaller : ∀ x ∈ notified calls, Passed frontier x → x ∈ closes events ∨ x ∈ epochs := by
    intro x hx hpassed
    by_cases hlast : Passed (lastFrontier start calls) x
    · exact .inl ((h.closed x).mpr ⟨hx, hlast⟩)
    · exact .inr ((hc.epochs x).mpr ⟨⟨hx, hlast⟩, hpassed⟩)
  rcases split_forEach hsplit with ⟨post', hold⟩ |
    ⟨es, e', es', rfl, ⟨hevent, rfl⟩ | ⟨hevent, -⟩⟩ | ⟨f, hf, hfq, hevent, hpre⟩
  · exact h.eager pre e caps post' hold
  · cases hevent
    rw [closes_append, closes_flatMap_both]
    obtain ⟨⟨hnotified, hopen⟩, hpassed⟩ := (hc.epochs e).mp (by simp)
    obtain ⟨-, htail, hcross⟩ := List.pairwise_append.mp hc.sorted
    refine ⟨hnotified, fun x hx hlt => ?_, fun hclosed => ?_⟩
    · rcases hsmaller x hx (hpassed.of_lt hlt) with hmem | hmem
      · exact List.mem_append_left _ hmem
      · rcases List.mem_append.mp hmem with hmem | hmem
        · exact List.mem_append_right _ hmem
        · rcases List.mem_cons.mp hmem with rfl | hmem
          · exact absurd hlt (lt_irrefl _)
          · exact absurd hlt (lt_asymm ((List.pairwise_cons.mp htail).1 x hmem))
    · rcases List.mem_append.mp hclosed with hclosed | hclosed
      · exact hopen ((h.closed e).mp hclosed).2
      · exact lt_irrefl e (hcross e hclosed e List.mem_cons_self)
  · cases hevent
  · -- The frontier epoch.
    cases hevent
    obtain ⟨⟨hnotified, hopen⟩, hopen'⟩ := (hc.queue e).mp hfq
    rw [hpre]
    refine ⟨hnotified, fun x hx hlt => List.mem_append.mpr (hsmaller x hx ?_), fun hclosed => ?_⟩
    · intro t ht
      obtain rfl : e = t := Option.some.inj ((Option.mem_def.mp hf).symm.trans ht)
      exact hlt
    · rcases List.mem_append.mp hclosed with hclosed | hclosed
      · exact hopen ((h.closed e).mp hclosed).2
      · exact hopen' ((hc.epochs e).mp hclosed).2

/-- The new calls are for epochs that the frontier had not passed before. -/
theorem Closing.epoch_of_mem (hc : Closing (notified calls) (lastFrontier start calls) frontier epochs queue)
    {event : Event T} (h : event ∈ epochs.flatMap (both outputs) ++ opened outputs frontier queue) :
    ¬ Passed (lastFrontier start calls) event.epoch ∧
      ∀ x, ¬ Passed frontier x → event.epoch ≤ x := by
  rcases List.mem_append.mp h with h | h
  · obtain ⟨e, he, hevent⟩ := mem_flatMap_both.mp h
    obtain ⟨⟨-, hopen⟩, hpassed⟩ := (hc.epochs e).mp he
    rcases hevent with rfl | rfl
    · exact ⟨hopen, fun x hx => (hpassed.lt hx).le⟩
    · exact ⟨hopen, fun x hx => (hpassed.lt hx).le⟩
  · obtain ⟨e, he, heq, rfl⟩ := mem_opened.mp h
    obtain ⟨⟨-, hopen⟩, -⟩ := (hc.queue e).mp heq
    refine ⟨hopen, fun x hx => ?_⟩
    obtain rfl : frontier = some e := he
    exact not_lt.mp fun hlt => hx (passed_some.mpr hlt)

theorem Closing.forwards_new (hc : Closing (notified calls) (lastFrontier start calls) frontier epochs queue) :
    ((epochs.flatMap (both outputs) ++ opened outputs frontier queue).map Event.epoch).Pairwise
      (· ≤ ·) := by
  rw [List.map_append, List.pairwise_append]
  refine ⟨forwards_flatMap_both hc.sorted, ?_, ?_⟩
  · cases frontier with
    | none => exact .nil
    | some t =>
      by_cases ht : t ∈ queue
      · rw [opened_of_mem ht]
        exact List.pairwise_singleton _ _
      · rw [opened_of_not_mem ht]
        exact .nil
  · intro x hx y hy
    obtain ⟨event, hevent, rfl⟩ := List.mem_map.mp hx
    obtain ⟨event', hevent', rfl⟩ := List.mem_map.mp hy
    obtain ⟨e, he, heq, rfl⟩ := mem_opened.mp hevent'
    exact (hc.epoch_of_mem (List.mem_append_left _ hevent)).2 e ((hc.queue e).mp heq).2

/-- What one `for_each` calls keeps the contract. -/
theorem Contract.forEach (h : Contract outputs start calls events)
    (hreached : ∀ event ∈ events, ∀ x, ¬ Passed (lastFrontier start calls) x → event.epoch ≤ x)
    (hc : Closing (notified calls) (lastFrontier start calls) frontier epochs queue) :
    Contract outputs start (calls ++ [.forEach frontier eagerLogic closeLogic])
      (events ++ (epochs.flatMap (both outputs) ++ opened outputs frontier queue)) := by
  have hcloses : closes (events ++ (epochs.flatMap (both outputs) ++
      opened outputs frontier queue)) = closes events ++ epochs := by
    rw [closes_append, closes_append, closes_flatMap_both, closes_opened, List.append_nil]
  refine ⟨?_, ?_, ?_, ?_, ?_, ?_⟩
  · rw [hcloses, List.pairwise_append]
    refine ⟨h.increasing, hc.sorted, fun e he e' he' => ?_⟩
    exact ((h.closed e).mp he).2.lt ((hc.epochs e').mp he').1.2
  · intro e
    rw [hcloses, List.mem_append, h.closed, hc.epochs, notified_forEach, lastFrontier_forEach]
    by_cases he : Passed (lastFrontier start calls) e
    · simp [he, hc.forwards e he]
    · simp [he]
  · intro pre e caps post hsplit
    rcases split_forEach hsplit with ⟨post', hold⟩ |
      ⟨es, e', es', -, ⟨hevent, -⟩ | ⟨hevent, rfl⟩⟩ | ⟨f, -, -, hevent, -⟩
    · exact h.after_eager pre e caps post' hold
    · cases hevent
    · cases hevent
      exact ⟨_, rfl⟩
    · cases hevent
  · intro pre e caps post hsplit
    rw [notified_forEach]
    exact hc.eager h hsplit
  · intro event hevent
    rcases List.mem_append.mp hevent with hevent | hevent
    · exact h.caps event hevent
    · rcases List.mem_append.mp hevent with hevent | hevent
      · obtain ⟨e, -, rfl | rfl⟩ := mem_flatMap_both.mp hevent
        · rfl
        · rfl
      · obtain ⟨e, -, -, rfl⟩ := mem_opened.mp hevent
        rfl
  · rw [List.map_append, List.pairwise_append]
    refine ⟨h.forwards, hc.forwards_new, fun x hx y hy => ?_⟩
    obtain ⟨event, hevent, rfl⟩ := List.mem_map.mp hx
    obtain ⟨event', hevent', rfl⟩ := List.mem_map.mp hy
    exact hreached event hevent event'.epoch (hc.epoch_of_mem hevent').1

theorem Kept.congr {calls' : List (Call T E D)} (h : Kept outputs start calls s events)
    (hnotified : notified calls' = notified calls)
    (hlast : lastFrontier start calls' = lastFrontier start calls) :
    Kept outputs start calls' s events := by
  obtain ⟨⟨hincreasing, hclosed, hafter, heager, hcaps, hforwards⟩, hreached, hqueue, hcap, hended⟩ := h
  rw [← hlast] at hclosed hreached hqueue hcap hended
  rw [← hnotified] at hclosed heager hqueue
  exact ⟨⟨hincreasing, hclosed, hafter, heager, hcaps, hforwards⟩, hreached, hqueue, hcap, hended⟩

/-- A `for_each` whose frontier does not go back. -/
theorem Kept.forEach (h : Kept outputs start calls s events)
    (hforwards : ∀ t, Passed (lastFrontier start calls) t → Passed frontier t)
    (eagerLogic closeLogic : List T → E × D → E × D) :
    ∃ s' o, step s (.forEach frontier eagerLogic closeLogic) = some (s', o) ∧
      Kept outputs start (calls ++ [.forEach frontier eagerLogic closeLogic]) s' (events ++ o) := by
  obtain ⟨env, n⟩ := s
  cases hn : n.capsState with
  | none =>
    -- After the end of the input the frontier stays empty, and nothing is called.
    have hlast : lastFrontier start calls = none := h.ended.mp hn
    have hfrontier : frontier = none := by
      refine Option.eq_none_iff_forall_ne_some.mpr fun t ht => ?_
      apply not_passed_self t
      rw [← ht]
      apply hforwards t
      rw [hlast]
      exact fun _ hx => nomatch hx
    refine ⟨(env, n), [], ?_, ?_⟩
    · simp [step, CapNotificator.forEach, hn]
    · rw [List.append_nil]
      exact h.congr notified_forEach (by rw [lastFrontier_forEach, hfrontier, hlast])
  | some p =>
    obtain ⟨caps, state⟩ := p
    obtain ⟨hlen, hcaps⟩ := h.caps caps (by simp [hn])
    have hle : ∀ c ∈ caps, ∀ t ∈ frontier, c ≤ t := by
      intro c hc t ht
      refine hcaps c hc t fun hpassed => ?_
      exact lt_irrefl t (hforwards t hpassed t ht)
    obtain ⟨env', n', hcall, hqueue, hcaps'⟩ := forEach_of_le eagerLogic closeLogic hn
      (fun c hc e he => hcaps c hc e ((h.queue e).mp he).2) hle
    have hc : Closing (notified calls) (lastFrontier start calls) frontier
        (n.queue.filter fun e => Passed frontier e).toList
        (n.queue.filter fun e => ¬ Passed frontier e) := by
      refine ⟨sorted_closedEpochs frontier n.queue, hforwards, fun e => ?_, fun e => ?_⟩
      · rw [mem_closedEpochs, ← h.queue]
      · rw [mem_openEpochs, ← h.queue]
    rw [hlen] at hcall hcaps'
    refine ⟨(env', n'), _, hcall, h.contract.forEach h.reached hc, ?_, ?_, ?_, ?_⟩
    · rw [lastFrontier_forEach]
      intro event hevent x hx
      rcases List.mem_append.mp hevent with hevent | hevent
      · exact h.reached event hevent x fun hlast => hx (hforwards x hlast)
      · exact (hc.epoch_of_mem hevent).2 x hx
    · intro e
      rw [hqueue, hc.queue, notified_forEach, lastFrontier_forEach, and_assoc]
      refine ⟨fun ⟨he, _, hopen⟩ => ⟨he, hopen⟩, fun ⟨he, hopen⟩ => ⟨he, ?_, hopen⟩⟩
      exact fun hlast => hopen (hforwards e hlast)
    · rw [hcaps', lastFrontier_forEach]
      intro caps' hmem
      obtain ⟨t, ht, rfl⟩ := Option.map_eq_some_iff.mp (Option.mem_def.mp hmem)
      refine ⟨List.length_replicate, fun c hc x hx => ?_⟩
      rw [List.eq_of_mem_replicate hc]
      exact not_lt.mp fun hlt => hx (ht ▸ passed_some.mpr hlt)
    · rw [lastFrontier_forEach, ← Option.map_eq_none_iff (f := Prod.fst), hcaps',
        Option.map_eq_none_iff]

end Step

/-! ### What the calls of the logics do -/

section Traced

variable {eagerLogic closeLogic : List T → E × D → E × D} {frontier : Option T}

omit [LinearOrder T] in
theorem called_append (s : E × D) (o o' : List (Event T)) :
    called eagerLogic closeLogic s (o ++ o') =
      called eagerLogic closeLogic (called eagerLogic closeLogic s o) o' :=
  List.foldl_append

theorem called_run_closeEpoch {caps : List T} {s : E × D} {epochs : List T}
    {t : List T × E × D} {o : List (Event T)}
    (h : Runs.run (closeEpoch eagerLogic closeLogic) (caps, s) epochs = some (t, o)) :
    t.2 = called eagerLogic closeLogic s o := by
  refine Runs.run_prefixes (P := fun _ t o => t.2 = called eagerLogic closeLogic s o) ?_ rfl h
  rintro - e - t o t₁ o₁ - - ht hstep
  obtain ⟨caps', -, hstep⟩ := Option.bind_eq_some_iff.mp hstep
  cases hstep
  rw [called_append, ← ht]
  rfl

theorem called_forEach {env env' : E} {n n' : CapNotificator T D} {caps : List T} {state : D}
    {o : List (Event T)} (hn : n.capsState = some (caps, state))
    (h : forEach eagerLogic closeLogic frontier env n = some ((env', n'), o)) :
    env' = (called eagerLogic closeLogic (env, state) o).1 ∧
      ∀ p ∈ n'.capsState, p.2 = (called eagerLogic closeLogic (env, state) o).2 := by
  simp only [forEach, hn] at h
  obtain ⟨⟨⟨caps₁, env₁, state₁⟩, closed⟩, hrun, h⟩ := Option.bind_eq_some_iff.mp h
  have hclosed : (env₁, state₁) = called eagerLogic closeLogic (env, state) closed :=
    called_run_closeEpoch hrun
  cases frontier with
  | none =>
    cases h
    exact ⟨congrArg Prod.fst hclosed, nofun⟩
  | some t =>
    obtain ⟨caps₂, -, h⟩ := Option.bind_eq_some_iff.mp h
    dsimp only at h
    split_ifs at h with hmem
    · cases h
      rw [called_append, ← hclosed]
      exact ⟨rfl, fun p hp => by cases hp; rfl⟩
    · cases h
      rw [← hclosed]
      exact ⟨rfl, fun p hp => by cases hp; rfl⟩

theorem traced_step {s s' : E × CapNotificator T D} {call : Call T E D} {o : List (Event T)}
    (h : step s call = some (s', o)) : Traced s call s' o := by
  cases call with
  | notifyAt epoch =>
    obtain ⟨n, hn, h⟩ := Option.map_eq_some_iff.mp h
    cases h
    unfold notifyAt at hn
    split_ifs at hn
    cases hn
    exact ⟨rfl, rfl, rfl⟩
  | forEach frontier eagerLogic closeLogic =>
    unfold Traced
    cases hn : s.2.capsState with
    | none =>
      simp only [step, forEach, hn, Option.some.injEq, Prod.mk.injEq] at h
      exact ⟨h.1.symm, h.2.symm⟩
    | some p => exact called_forEach hn h

end Traced

/-! ### Whole runs -/

theorem orderly_concat {start : Option T} {calls : List (Call T E D)} {call : Call T E D} :
    Orderly start (calls ++ [call]) ↔
      Orderly start calls ∧ Orderly (lastFrontier start calls) [call] := by
  induction calls generalizing start with
  | nil => exact ⟨fun h => ⟨trivial, h⟩, And.right⟩
  | cons c calls ih =>
    cases c with
    | notifyAt epoch => exact (and_congr_right fun _ => ih).trans and_assoc.symm
    | forEach frontier eagerLogic closeLogic =>
      exact (and_congr_right fun _ => ih).trans and_assoc.symm

theorem Orderly.of_append {start : Option T} {pre post : List (Call T E D)}
    (h : Orderly start (pre ++ post)) : Orderly start pre := by
  induction pre generalizing start with
  | nil => trivial
  | cons call pre ih =>
    cases call with
    | notifyAt epoch => exact ⟨h.1, ih h.2⟩
    | forEach frontier eagerLogic closeLogic => exact ⟨h.1, ih h.2⟩

/-- The contract is kept as long as the calls of the operator are in order. -/
theorem run_kept {outputs : Nat} {start : Option T} {s₀ : E × CapNotificator T D}
    {calls : List (Call T E D)} (h₀ : Kept outputs start [] s₀ []) (h : Orderly start calls) :
    ∃ s events, Runs.run step s₀ calls = some (s, events) ∧ Kept outputs start calls s events := by
  induction calls using List.reverseRecOn with
  | nil => exact ⟨s₀, [], rfl, h₀⟩
  | append_singleton calls call ih =>
    obtain ⟨hcalls, hcall⟩ := orderly_concat.mp h
    obtain ⟨s, events, hrun, hkept⟩ := ih hcalls
    cases call with
    | notifyAt epoch =>
      obtain ⟨s', hstep, hkept'⟩ := hkept.notifyAt hcall.1
      refine ⟨s', events ++ [], ?_, by rwa [List.append_nil]⟩
      exact Runs.run_append_of_eq_some hrun (by rw [Runs.run_singleton, hstep])
    | forEach frontier eagerLogic closeLogic =>
      obtain ⟨s', o, hstep, hkept'⟩ := hkept.forEach hcall.1 eagerLogic closeLogic
      refine ⟨s', events ++ o, ?_, hkept'⟩
      exact Runs.run_append_of_eq_some hrun (by rw [Runs.run_singleton, hstep])

/-- After the end of the input nothing is called. -/
theorem run_of_ended {s s' : E × CapNotificator T D} {calls : List (Call T E D)}
    {o : List (Event T)} (hs : s.2.capsState = none)
    (hr : Runs.run step s calls = some (s', o)) : o = [] := by
  have hend : s'.2.capsState = none ∧ o = [] := by
    refine Runs.run_history (P := fun _ s o => s.2.capsState = none ∧ o = [])
      (Q := fun _ _ => True) ?_ ⟨hs, rfl⟩ (Runs.along_true _ _) hr
    rintro - ⟨env, n⟩ o call s₁ o₁ ⟨hn, rfl⟩ - hstep
    replace hn : n.capsState = none := hn
    cases call with
    | notifyAt epoch => simp [step, notifyAt, hn] at hstep
    | forEach frontier eagerLogic closeLogic =>
      simp only [step, forEach, hn, Option.some.injEq, Prod.mk.injEq] at hstep
      obtain ⟨rfl, rfl⟩ := hstep
      exact ⟨hn, rfl⟩
  exact hend.2

theorem kept_new [OrderBot T] (outputs : Nat) (env : E) (initState : D) :
    Kept (D := D) outputs (some ⊥) ([] : List (Call T E D))
      (env, new (List.replicate outputs ⊥) initState) [] := by
  refine ⟨⟨?_, ?_, ?_, ?_, ?_, ?_⟩, ?_, ?_, ?_, ?_⟩
  · exact .nil
  · simp [closes, notified]
  · simp
  · simp
  · simp
  · exact .nil
  · simp
  · simp [new, notified]
  · intro caps hmem
    obtain rfl : List.replicate outputs ⊥ = caps := by simpa [new] using hmem
    refine ⟨List.length_replicate, fun c hc x _ => ?_⟩
    rw [List.eq_of_mem_replicate hc]
    exact bot_le
  · simp [new, lastFrontier]

/-- **`EagerNotificator` keeps its contract** in every run in which the calls of the operator are in
order: no capability is moved backwards, which would panic; the contract holds after each call; once
the input has ended, every notified epoch is closed and nothing is called any more; and the events
the contract is about are the calls of the logics that lead from each state to the next. -/
theorem run_keeps_contract [OrderBot T] (outputs : Nat) (env : E) (initState : D)
    {calls : List (Call T E D)} (h : Orderly (some ⊥) calls) :
    ∃ s events, Runs.run step (env, new (List.replicate outputs ⊥) initState) calls =
        some (s, events) ∧
      ∀ pre, pre <+: calls → ∃ s' o,
        Runs.run step (env, new (List.replicate outputs ⊥) initState) pre = some (s', o) ∧
        o <+: events ∧ Contract outputs (some ⊥) pre o ∧
        (lastFrontier (some ⊥) pre = none → (∀ e ∈ notified pre, e ∈ closes o) ∧ o = events) ∧
        ∀ call, pre ++ [call] <+: calls →
          ∃ s'' o', step s' call = some (s'', o') ∧ Traced s' call s'' o' ∧ o ++ o' <+: events := by
  obtain ⟨s, events, hrun, -⟩ := run_kept (kept_new outputs env initState) h
  refine ⟨s, events, hrun, ?_⟩
  rintro pre ⟨post, rfl⟩
  obtain ⟨s', o, o', hpre, hpost, rfl⟩ := Runs.exists_of_run_append hrun
  obtain ⟨s'', o'', hrun', hkept⟩ := run_kept (kept_new outputs env initState) h.of_append
  rw [hpre] at hrun'
  cases hrun'
  refine ⟨s', o, hpre, List.prefix_append o o', hkept.contract, fun hend => ⟨?_, ?_⟩,
    fun call hcall => ?_⟩
  · intro e he
    apply (hkept.contract.closed e).mpr
    rw [hend]
    exact ⟨he, fun _ ht => nomatch ht⟩
  · rw [run_of_ended (hkept.ended.mpr hend) hpost, List.append_nil]
  · obtain ⟨post', rfl⟩ := (List.prefix_append_right_inj pre).mp hcall
    obtain ⟨s'', o₁, o₂, hstep, -, rfl⟩ := Runs.exists_of_run_cons hpost
    refine ⟨s'', o₁, hstep, traced_step hstep, o₂, ?_⟩
    rw [List.append_assoc]

/-- Two epochs with messages, the first of which closes with the second still open. -/
def twoEpochs : List (Call Nat (List Nat) Nat) :=
  let count : List Nat → List Nat × Nat → List Nat × Nat := fun caps s => (caps ++ s.1, s.2 + 1)
  [.forEach (some 0) count count, .notifyAt 1, .notifyAt 0, .forEach (some 1) count count,
    .notifyAt 2, .forEach (some 1) count count, .forEach none count count, .forEach none count count]

theorem run_keeps_contract_twoEpochs :
    ∃ s events, Runs.run step ([], new [0, 0] 0) twoEpochs = some (s, events) ∧
      events = [.eager 0 [0, 0], .close 0 [0, 0], .eager 1 [1, 1], .eager 1 [1, 1],
        .eager 1 [1, 1], .close 1 [1, 1], .eager 2 [2, 2], .close 2 [2, 2]] ∧
      Contract 2 (some 0) twoEpochs events := by
  have horderly : Orderly (some ⊥) twoEpochs :=
    ⟨passed_mono (Nat.le_refl 0), by decide, by decide, passed_mono (Nat.zero_le 1), by decide,
      passed_mono (Nat.le_refl 1), fun _ _ => passed_none, fun _ _ => passed_none, trivial⟩
  obtain ⟨s, events, hrun, h⟩ := run_keeps_contract 2 [] 0 horderly
  obtain ⟨s', o, hrun', -, hcontract, -⟩ := h twoEpochs List.prefix_rfl
  rw [hrun] at hrun'
  cases hrun'
  have hevents : (Runs.run step ([], new [0, 0] 0) twoEpochs).map Prod.snd =
      some [.eager 0 [0, 0], .close 0 [0, 0], .eager 1 [1, 1], .eager 1 [1, 1],
        .eager 1 [1, 1], .close 1 [1, 1], .eager 2 [2, 2], .close 2 [2, 2]] := by
    decide +kernel
  refine ⟨s, events, hrun, ?_, hcontract⟩
  rw [show ([0, 0] : List Nat) = List.replicate 2 ⊥ from rfl, hrun] at hevents
  exact Option.some.inj hevents

/-! ### The notificator with one time for all capabilities -/

section Capped

variable {k : Nat} {frontier : Option Nat} {env : E} {n : EagerNotificator D}
  {eagerLogic closeLogic : List Nat → E × D → E × D}

/-- The notificator with `k` capabilities for its one time. -/
def capped (k : Nat) (n : EagerNotificator D) : CapNotificator Nat D :=
  ⟨n.capsState.map fun p => (List.replicate k p.1, p.2), n.queue⟩

/-- A logic that is handed its epoch, and leaves a record of its call. -/
def logged (k : Nat) (call : Nat → List Nat → Event Nat) (logic : List Nat → E × D → E × D)
    (epoch : Nat) (s : E × D) : Option ((E × D) × List (Event Nat)) :=
  some (logic (List.replicate k epoch) s, [call epoch (List.replicate k epoch)])

theorem downgradeAll_replicate (hk : 0 < k) (cap epoch : Nat) :
    downgradeAll (List.replicate k cap) epoch =
      (EagerNotificator.downgradeAll cap epoch).map (List.replicate k) := by
  by_cases h : cap ≤ epoch
  · rw [EagerNotificator.downgradeAll_of_le h, downgradeAll_of_le, List.length_replicate]
    · rfl
    · intro c hc
      rwa [List.eq_of_mem_replicate hc]
  · obtain ⟨m, rfl⟩ := Nat.exists_eq_add_of_le' hk
    rw [EagerNotificator.downgradeAll, if_neg h, downgradeAll, List.replicate_succ, List.mapM_cons,
      if_neg h]
    rfl

theorem downgraded {cap epoch c : Nat} (h : EagerNotificator.downgradeAll cap epoch = some c) :
    c = epoch := by
  unfold EagerNotificator.downgradeAll at h
  split at h
  · exact (Option.some.inj h).symm
  · cases h

theorem run_closeEpoch_capped (hk : 0 < k) (cap : Nat) (s : E × D) (epochs : List Nat) :
    Runs.run (closeEpoch eagerLogic closeLogic) (List.replicate k cap, s) epochs =
      (Runs.run (EagerNotificator.closeEpoch (logged k .eager eagerLogic)
        (logged k .close closeLogic)) (cap, s) epochs).map fun p =>
          ((List.replicate k p.1.1, p.1.2), p.2) := by
  refine Runs.run_map (f := fun s : Nat × E × D => (List.replicate k s.1, s.2))
    (fun s e => ?_) (cap, s) epochs
  obtain ⟨cap, s⟩ := s
  have hdown := downgradeAll_replicate hk cap e
  cases hc : EagerNotificator.downgradeAll cap e with
  | none => simp [closeEpoch, EagerNotificator.closeEpoch, hdown, hc]
  | some c =>
    obtain rfl := downgraded hc
    simp [closeEpoch, EagerNotificator.closeEpoch, hdown, hc, logged]

/-- `for_each` hands its logics a capability at the epoch for each output. -/
theorem forEach_capped (hk : 0 < k) :
    forEach eagerLogic closeLogic frontier env (capped k n) =
      (EagerNotificator.forEach (logged k .eager eagerLogic) (logged k .close closeLogic) frontier
        env n).map fun p => ((p.1.1, capped k p.1.2), p.2) := by
  obtain ⟨capsState, queue⟩ := n
  cases capsState with
  | none => rfl
  | some p =>
    obtain ⟨cap, state⟩ := p
    have hclosed : (queue.filter fun e => Frontier.IsClosed frontier e) =
        queue.filter fun e => Passed frontier e :=
      congrArg queue.filter (funext fun e => decide_eq_decide.mpr Iff.rfl)
    have hopen : (queue.filter fun e => ¬ Frontier.IsClosed frontier e) =
        queue.filter fun e => ¬ Passed frontier e :=
      congrArg queue.filter (funext fun e => decide_eq_decide.mpr Iff.rfl)
    have hrun := @run_closeEpoch_capped E D k eagerLogic closeLogic hk cap (env, state)
      (queue.filter fun e => Passed frontier e).toList
    simp only [forEach, EagerNotificator.forEach, capped, Option.map_some, hrun, hclosed, hopen]
    cases Runs.run (EagerNotificator.closeEpoch (logged k .eager eagerLogic)
        (logged k .close closeLogic)) (cap, env, state)
        (queue.filter fun e => Passed frontier e).toList with
    | none => rfl
    | some p =>
      obtain ⟨⟨cap', env', state'⟩, o⟩ := p
      cases frontier with
      | none => rfl
      | some t =>
        simp only [Option.map_some, Option.bind_eq_bind, Option.bind_some,
          downgradeAll_replicate hk]
        cases hc : EagerNotificator.downgradeAll cap' t with
        | none => rfl
        | some c =>
          obtain rfl := downgraded hc
          simp only [Option.map_some, Option.bind_some]
          by_cases hmem : c ∈ (queue.filter fun e => ¬ Passed (some c) e)
          · simp only [if_pos hmem, logged, Option.bind_some, Option.pure_def, Option.map_some]
            exact if_pos hmem
          · simp only [if_neg hmem, Option.pure_def, Option.map_some]
            exact if_neg hmem

/-- A call of the operator, with a record of the calls of the logics. -/
def loggedStep (k : Nat) (s : E × EagerNotificator D) :
    Call Nat E D → Option ((E × EagerNotificator D) × List (Event Nat))
  | .notifyAt epoch => (s.2.notifyAt epoch).map fun n => ((s.1, n), [])
  | .forEach frontier eagerLogic closeLogic =>
    EagerNotificator.forEach (logged k .eager eagerLogic) (logged k .close closeLogic) frontier
      s.1 s.2

theorem step_capped (hk : 0 < k) (s : E × EagerNotificator D) (call : Call Nat E D) :
    step (s.1, capped k s.2) call =
      (loggedStep k s call).map fun p => ((p.1.1, capped k p.1.2), p.2) := by
  cases call with
  | notifyAt epoch =>
    obtain ⟨env, capsState, queue⟩ := s
    cases capsState with
    | none => rfl
    | some p => rfl
  | forEach frontier eagerLogic closeLogic => exact forEach_capped hk

/-- **The contract of the notificator that the operators run on**: in an orderly run the calls of its
logics, with the capabilities of `k` outputs, are those that the contract is about. -/
theorem run_loggedStep (hk : 0 < k) (env : E) (initState : D) {calls : List (Call Nat E D)}
    (h : Orderly (some 0) calls) :
    ∃ s events, Runs.run (loggedStep k) (env, EagerNotificator.new initState) calls =
        some (s, events) ∧ Contract k (some 0) calls events ∧
      Runs.run step (env, new (List.replicate k 0) initState) calls =
        some ((s.1, capped k s.2), events) := by
  obtain ⟨s, events, hrun, hkept⟩ := run_kept (kept_new k env initState) h
  have hmap := Runs.run_map (f := fun s : E × EagerNotificator D => (s.1, capped k s.2))
    (step_capped hk) (env, EagerNotificator.new initState) calls
  obtain ⟨⟨t, events'⟩, hlogged, he⟩ := Option.map_eq_some_iff.mp (hmap.symm.trans hrun)
  cases he
  exact ⟨t, _, hlogged, hkept.contract, hrun⟩

end Capped

end CapNotificator
end Bytewax
