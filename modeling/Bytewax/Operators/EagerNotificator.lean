import Bytewax.Lib.Runs
import Bytewax.Operators.Frontier
import Std.Data.TreeSet

/-!
# Bytewax.Operators.EagerNotificator — epoch logics run in epoch order

`EagerNotificator` keeps the epochs in which an operator has seen messages.  On each activation it
runs both logics on those that have closed, in order, and the eager logic on the frontier epoch.
What the two logics preserve and what they finish is an `EpochRule`; it carries over to an
activation (`forEach_some`, `forEach_none`).

The logics work on the state of the notificator, which is dropped at the end of the input, and on
what their closures borrow from the operator.
-/

namespace Bytewax

open Std (TreeSet)

/-- `EagerNotificator`: `caps_state`, with one time for the capabilities of all outputs, and
`queue`. -/
structure EagerNotificator (D : Type) where
  capsState : Option (Nat × D)
  queue : TreeSet Nat

namespace EagerNotificator

variable {E D ω : Type}

/-- `EagerNotificator::new`. -/
def new (initState : D) : EagerNotificator D := ⟨some (0, initState), ∅⟩

/-- `notify_at`; `none` where the assertion "Got items after EOF" fails. -/
def notifyAt (n : EagerNotificator D) (epoch : Nat) : Option (EagerNotificator D) :=
  if n.capsState.isSome then some { n with queue := n.queue.insert epoch } else none

/-- `downgrade_all`, which panics when the epoch is before the capabilities. -/
def downgradeAll (cap epoch : Nat) : Option Nat := if cap ≤ epoch then some epoch else none

variable (eager close : Nat → E × D → Option ((E × D) × List ω))

/-- The loop over the closed epochs. -/
def closeEpoch (s : Nat × E × D) (epoch : Nat) : Option ((Nat × E × D) × List ω) := do
  let cap ← downgradeAll s.1 epoch
  let (t, eagerOut) ← eager epoch s.2
  let (u, closeOut) ← close epoch t
  return ((cap, u), eagerOut ++ closeOut)

/-- `for_each`. -/
def forEach (frontier : Frontier) (env : E) (n : EagerNotificator D) :
    Option ((E × EagerNotificator D) × List ω) :=
  match n.capsState with
  | none => some ((env, n), [])
  | some (cap, state) => do
    let closedEpochs := n.queue.filter fun e => frontier.IsClosed e
    let queue := n.queue.filter fun e => ¬ frontier.IsClosed e
    let ((cap, env, state), closed) ←
      Runs.run (closeEpoch eager close) (cap, env, state) closedEpochs.toList
    match frontier with
    | some frontier => do
      let cap ← downgradeAll cap frontier
      if frontier ∈ queue then
        let ((env, state), opened) ← eager frontier (env, state)
        return ((env, ⟨some (cap, state), queue⟩), closed ++ opened)
      else
        return ((env, ⟨some (cap, state), queue⟩), closed)
    | none => return ((env, ⟨none, queue⟩), closed)

/-- What the logics preserve.  `I b` holds when the epochs before `b` are closed, `J e` when the
eager logic has just run in the open epoch `e`; `busy` are the epochs in which there is something
left to do.  All of them may look at what has been put out so far. -/
structure EpochRule (I J : Nat → E × D → List ω → Prop) (busy : E × D → List ω → Nat → Prop) :
    Prop where
  advance : ∀ {b b' s o}, I b s o → b ≤ b' → (∀ e < b', ¬ busy s o e) → I b' s o
  eager : ∀ {e s o}, I e s o → ∃ s' o', eager e s = some (s', o') ∧ J e s' (o ++ o') ∧
    ∀ e', busy s' (o ++ o') e' → busy s o e' ∨ e' = e
  reopen : ∀ {e s o}, J e s o → I e s o
  close : ∀ {e s o}, J e s o → ∃ s' o', close e s = some (s', o') ∧ I (e + 1) s' (o ++ o') ∧
    ∀ e', busy s' (o ++ o') e' → busy s o e' ∧ e' ≠ e

variable {eager close} {I J : Nat → E × D → List ω → Prop} {busy : E × D → List ω → Nat → Prop}
  {cap b : Nat} {s : E × D} {o : List ω} {frontier : Frontier}

@[simp] theorem downgradeAll_of_le {cap epoch : Nat} (h : cap ≤ epoch) :
    downgradeAll cap epoch = some epoch := if_pos h

/-- **The loop over the closed epochs.** -/
theorem run_closeEpoch (h : EpochRule eager close I J busy) {epochs : List Nat}
    (hsorted : epochs.Pairwise (· < ·)) (hcap : ∀ e ∈ epochs, cap ≤ e) (hb : ∀ e ∈ epochs, b ≤ e)
    (hI : I b s o) (hclosed : ∀ e ∈ epochs, frontier.IsClosed e)
    (hbusy : ∀ e, busy s o e → e ∈ epochs ∨ ¬ frontier.IsClosed e) :
    ∃ cap' b' s' o', Runs.run (closeEpoch eager close) (cap, s) epochs = some ((cap', s'), o') ∧
      I b' s' (o ++ o') ∧ (∀ f, ¬ frontier.IsClosed f → b ≤ f → b' ≤ f) ∧
      (∀ f, ¬ frontier.IsClosed f → cap ≤ f → cap' ≤ f) ∧
      ∀ e, busy s' (o ++ o') e → busy s o e ∧ ¬ frontier.IsClosed e := by
  induction epochs generalizing cap b s o with
  | nil =>
    refine ⟨cap, b, s, [], rfl, by rwa [List.append_nil], fun f _ h => h, fun f _ h => h, ?_⟩
    intro e he
    rw [List.append_nil] at he
    exact ⟨he, (hbusy e he).resolve_left List.not_mem_nil⟩
  | cons e epochs ih =>
    obtain ⟨hlt', hsorted⟩ := List.pairwise_cons.mp hsorted
    have he : frontier.IsClosed e := hclosed e List.mem_cons_self
    have hI : I e s o := by
      refine h.advance hI (hb e List.mem_cons_self) fun e' hlt hbusy' => ?_
      rcases hbusy e' hbusy' with hmem | hopen
      · rcases List.mem_cons.mp hmem with rfl | hmem
        · exact Nat.lt_irrefl _ hlt
        · exact Nat.lt_asymm hlt (hlt' e' hmem)
      · exact Nat.lt_asymm hlt (he.lt hopen)
    obtain ⟨s₁, o₁, heager, hJ, hbusy₁⟩ := h.eager hI
    obtain ⟨s₂, o₂, hclose, hI₂, hbusy₂⟩ := h.close hJ
    have hstep : closeEpoch eager close (cap, s) e = some ((e, s₂), o₁ ++ o₂) := by
      simp [closeEpoch, hcap e List.mem_cons_self, heager, hclose]
    rw [List.append_assoc] at hI₂ hbusy₂
    have hrest : ∀ e', busy s₂ (o ++ (o₁ ++ o₂)) e' → e' ∈ epochs ∨ ¬ frontier.IsClosed e' := by
      intro e' hmem
      obtain ⟨hbusy₁', hne⟩ := hbusy₂ e' hmem
      rcases hbusy e' ((hbusy₁ e' hbusy₁').resolve_right hne) with hmem | hopen
      · exact .inl ((List.mem_cons.mp hmem).resolve_left hne)
      · exact .inr hopen
    obtain ⟨cap', b', s', o', hrun, hI', hb', hcap', hbusy'⟩ :=
      ih hsorted (fun e' hmem => Nat.le_of_lt (hlt' e' hmem)) hlt' hI₂
        (fun e' hmem => hclosed e' (List.mem_cons_of_mem _ hmem)) hrest
    refine ⟨cap', b', s', o₁ ++ o₂ ++ o', Runs.run_cons hstep hrun, ?_, ?_, ?_, ?_⟩
    · rwa [List.append_assoc] at hI'
    · exact fun f hf _ => hb' f hf (he.lt hf)
    · exact fun f hf _ => hcap' f hf (Nat.le_of_lt (he.lt hf))
    · intro e' hmem
      rw [← List.append_assoc] at hmem
      obtain ⟨hbusy₂', hopen⟩ := hbusy' e' hmem
      obtain ⟨hbusy₁', hne⟩ := hbusy₂ e' hbusy₂'
      exact ⟨(hbusy₁ e' hbusy₁').resolve_right hne, hopen⟩

/-- The closed epochs of the queue, in order. -/
theorem mem_closedEpochs {queue : TreeSet Nat} {e : Nat} :
    e ∈ (queue.filter fun e => frontier.IsClosed e).toList ↔ e ∈ queue ∧ frontier.IsClosed e := by
  rw [TreeSet.toList_filter, List.mem_filter, TreeSet.mem_toList]
  simp

theorem mem_openEpochs {queue : TreeSet Nat} {e : Nat} :
    e ∈ (queue.filter fun e => ¬ frontier.IsClosed e) ↔ e ∈ queue ∧ ¬ frontier.IsClosed e := by
  rw [← TreeSet.mem_toList, TreeSet.toList_filter, List.mem_filter, TreeSet.mem_toList]
  simp

/-- The closed epochs of the queue, run from a state in which only epochs of the queue are busy. -/
theorem run_closedEpochs (frontier : Frontier) (h : EpochRule eager close I J busy) {queue : TreeSet Nat}
    (hI : I cap s o) (hbusy : ∀ e, busy s o e → e ∈ queue) (hqueue : ∀ e ∈ queue, cap ≤ e) :
    ∃ cap' b' s' o', Runs.run (closeEpoch eager close) (cap, s)
        (queue.filter fun e => frontier.IsClosed e).toList = some ((cap', s'), o') ∧
      I b' s' (o ++ o') ∧ (∀ f, ¬ frontier.IsClosed f → cap ≤ f → b' ≤ f ∧ cap' ≤ f) ∧
      ∀ e, busy s' (o ++ o') e → e ∈ queue ∧ ¬ frontier.IsClosed e := by
  have hsorted : (queue.filter fun e => frontier.IsClosed e).toList.Pairwise (· < ·) :=
    TreeSet.ordered_toList.imp fun hlt => Nat.compare_eq_lt.mp hlt
  have hle : ∀ e ∈ (queue.filter fun e => frontier.IsClosed e).toList, cap ≤ e :=
    fun e he => hqueue e (mem_closedEpochs.mp he).1
  obtain ⟨cap', b', s', o', hrun, hI', hb', hcap', hbusy'⟩ :=
    run_closeEpoch h hsorted hle hle hI (fun e he => (mem_closedEpochs.mp he).2) fun e he => by
      by_cases hc : frontier.IsClosed e
      · exact .inl (mem_closedEpochs.mpr ⟨hbusy e he, hc⟩)
      · exact .inr hc
  refine ⟨cap', b', s', o', hrun, hI', fun f hf hle => ⟨hb' f hf hle, hcap' f hf hle⟩, ?_⟩
  exact fun e he => ⟨hbusy e (hbusy' e he).1, (hbusy' e he).2⟩

variable {n : EagerNotificator D} {env : E} {state : D}

/-- **An activation before the end of the input.** -/
theorem forEach_some (h : EpochRule eager close I J busy) {f : Nat}
    (hn : n.capsState = some (cap, state)) (hI : I cap (env, state) o)
    (hbusy : ∀ e, busy (env, state) o e → e ∈ n.queue) (hqueue : ∀ e ∈ n.queue, cap ≤ e)
    (hf : cap ≤ f) :
    ∃ env' state' queue' o', forEach eager close (some f) env n =
        some ((env', ⟨some (f, state'), queue'⟩), o') ∧
      I f (env', state') (o ++ o') ∧ (f ∈ n.queue → J f (env', state') (o ++ o')) ∧
      (∀ e, busy (env', state') (o ++ o') e → e ∈ queue') ∧ ∀ e, e ∈ queue' ↔ e ∈ n.queue ∧ f ≤ e := by
  obtain ⟨cap', b', ⟨env₁, state₁⟩, o₁, hrun, hI₁, hle, hbusy₁⟩ :=
    run_closedEpochs (some f) h hI hbusy hqueue
  obtain ⟨hb', hcap'⟩ := hle f (by simp) hf
  have hqueue' : ∀ e, e ∈ (n.queue.filter fun e => ¬ Frontier.IsClosed (some f) e) ↔
      e ∈ n.queue ∧ f ≤ e := by
    intro e
    rw [mem_openEpochs, Frontier.isClosed_some, Nat.not_lt]
  have hI₂ : I f (env₁, state₁) (o ++ o₁) := by
    refine h.advance hI₁ hb' fun e hlt he => ?_
    have hnot := (hbusy₁ e he).2
    rw [Frontier.isClosed_some] at hnot
    exact hnot hlt
  by_cases hmem : f ∈ n.queue
  · obtain ⟨⟨env₂, state₂⟩, o₂, heager, hJ, hbusy₂⟩ := h.eager hI₂
    refine ⟨env₂, state₂, _, o₁ ++ o₂, ?_, ?_, ?_, ?_, hqueue'⟩
    · have hmem' := (hqueue' f).mpr ⟨hmem, Nat.le_refl f⟩
      simp only [forEach, hn, hrun, heager, downgradeAll_of_le hcap', hmem', if_true,
        Option.bind_eq_bind, Option.bind_some, Option.pure_def]
    · rw [← List.append_assoc]
      exact h.reopen hJ
    · intro _
      rwa [← List.append_assoc]
    · intro e he
      rw [← List.append_assoc] at he
      rw [hqueue']
      rcases hbusy₂ e he with he | rfl
      · have hbusy' := hbusy₁ e he
        rwa [Frontier.isClosed_some, Nat.not_lt] at hbusy'
      · exact ⟨hmem, Nat.le_refl _⟩
  · refine ⟨env₁, state₁, _, o₁, ?_, hI₂, fun hf => absurd hf hmem, ?_, hqueue'⟩
    · have hmem' : f ∉ (n.queue.filter fun e => ¬ Frontier.IsClosed (some f) e) :=
        fun hm => hmem ((hqueue' f).mp hm).1
      simp only [forEach, hn, hrun, downgradeAll_of_le hcap', hmem', if_false,
        Option.bind_eq_bind, Option.bind_some, Option.pure_def]
    · intro e he
      have hbusy' := hbusy₁ e he
      rw [Frontier.isClosed_some, Nat.not_lt] at hbusy'
      exact (hqueue' e).mpr hbusy'

/-- **The activation that sees the end of the input.** -/
theorem forEach_none (h : EpochRule eager close I J busy)
    (hn : n.capsState = some (cap, state)) (hI : I cap (env, state) o)
    (hbusy : ∀ e, busy (env, state) o e → e ∈ n.queue) (hqueue : ∀ e ∈ n.queue, cap ≤ e) :
    ∃ b env' state' queue' o', forEach eager close none env n =
        some ((env', ⟨none, queue'⟩), o') ∧
      (∀ b', b ≤ b' → I b' (env', state') (o ++ o')) ∧ ∀ e, ¬ busy (env', state') (o ++ o') e := by
  obtain ⟨cap', b', ⟨env₁, state₁⟩, o₁, hrun, hI₁, -, hbusy₁⟩ :=
    run_closedEpochs none h hI hbusy hqueue
  have hidle : ∀ e, ¬ busy (env₁, state₁) (o ++ o₁) e := fun e he =>
    (hbusy₁ e he).2 Frontier.isClosed_none
  refine ⟨b', env₁, state₁, n.queue.filter fun e => ¬ Frontier.IsClosed none e, o₁, ?_, ?_, hidle⟩
  · simp only [forEach, hn, hrun, Option.bind_eq_bind, Option.bind_some, Option.pure_def]
  · exact fun b hb => h.advance hI₁ hb fun e _ => hidle e

/-- After the end of the input, an activation does nothing. -/
theorem forEach_of_none (hn : n.capsState = none) :
    forEach eager close frontier env n = some ((env, n), []) := by
  simp [forEach, hn]

end EagerNotificator
end Bytewax
