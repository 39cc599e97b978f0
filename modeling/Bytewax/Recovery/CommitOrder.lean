import Bytewax.Recovery.ConsistentCut
import Bytewax.Recovery.WriteOrder

/-!
# Bytewax.Recovery.CommitOrder — committing stays behind the resume epoch

`partd_commit` garbage collects the snapshots that an epoch and those before it have made obsolete.
It is told of an epoch only when the frontiers of all workers past it are written, so that an
execution that crashes right then resumes from a later epoch.
-/

namespace Bytewax

open Std (TreeMap TreeSet)

namespace EpochOp

variable {P L : Type} [LinearOrder P] {committers : Committers P L} {thisWorker delay e : Nat}

theorem partdCommit_use {e : Nat} {d d' : TreeMap P L} {buf : Unit}
    {o : List (Nat × CommitCall P)}
    (h : (partdCommit committers thisWorker delay).use e d buf = some (d', o)) : o = [] := by
  cases h
  rfl

/-- What the close of an epoch commits. -/
theorem partdCommit_close_calls {d d' : TreeMap P L} {us : List (P × Nat)}
    {o : List (Nat × CommitCall P)}
    (h : (partdCommit committers thisWorker delay).close e d us = some (d', o)) :
    ∀ call ∈ o, call.1 = e ∧ ∀ p n, call.2 = .commit p n → n + delay = e := by
  obtain ⟨⟨parts, calls⟩, hr, h⟩ := Option.bind_eq_some_iff.mp h
  cases h
  intro call hcall
  rcases List.mem_append.mp hcall with hcall | hcall
  · rcases List.mem_append.mp hcall with hcall | hcall
    · replace hcall : call ∈ (commitParts committers delay e d).2 := hcall
      rw [commitParts] at hcall
      split at hcall
      · next hle =>
        obtain ⟨q, -, rfl⟩ := List.mem_map.mp hcall
        refine ⟨rfl, fun p n hn => ?_⟩
        cases hn
        omega
      · cases hcall
    · obtain ⟨he, q, hq | hq⟩ := run_assignPart_calls hr call hcall
      · exact ⟨he, fun p n hn => by rw [hq] at hn; cases hn⟩
      · exact ⟨he, fun p n hn => by rw [hq] at hn; cases hn⟩
  · rw [List.mem_singleton.mp hcall]
    exact ⟨rfl, fun p n hn => by cases hn⟩

theorem partdCommit_stamped : (partdCommit committers thisWorker delay).Stamped where
  use h x hx := by
    rw [partdCommit_use h] at hx
    cases hx
  close h x hx := (partdCommit_close_calls h x hx).1

/-- What an activation commits is `delay` behind an epoch that is closed. -/
theorem partdCommit_activate {s s' : EpochState Unit (P × Nat) (TreeMap P L)}
    {a : EpochActivation Unit (P × Nat)} {o : List (Nat × CommitCall P)}
    (h : (partdCommit committers thisWorker delay).activate s a = some (s', o)) {p : P} {n : Nat}
    (hcall : (e, .commit p n) ∈ o) : n + delay = e ∧ a.frontier.IsClosed e := by
  refine ⟨?_, partdCommit_stamped.closed partdCommit_use h _ hcall⟩
  obtain ⟨s₁, -, h⟩ := Option.bind_eq_some_iff.mp h
  obtain ⟨s₂, -, h⟩ := Option.bind_eq_some_iff.mp h
  obtain ⟨⟨⟨bufs, ncater⟩, out⟩, hfor, h⟩ := Option.bind_eq_some_iff.mp h
  cases h
  refine EagerNotificator.forEach_induct
    (P := fun _ o => ∀ call ∈ o, ∀ p n, call.2 = CommitCall.commit p n → n + delay = call.1)
    (fun e env d env' d' o o' h hs => ?_) (fun e env d env' d' o o' h hs => ?_) hfor
    (List.forall_mem_nil _) _ hcall p n rfl
  · rwa [eagerLogic_nil partdCommit_use hs, List.append_nil]
  · obtain ⟨⟨d₁, o₁⟩, hclose, hs⟩ := Option.bind_eq_some_iff.mp hs
    cases hs
    intro call hin p n hn
    rcases List.mem_append.mp hin with hin | hin
    · exact h call hin p n hn
    · obtain ⟨he, hcommit⟩ := partdCommit_close_calls hclose call hin
      rw [he]
      exact hcommit p n hn

end EpochOp

namespace Recovery

open EpochOp

variable {S K D W : Type} {cfg : RecoveryWrite S K D W} {target : ℕ → ℕ}
  {is : List (WriteStep S K D)} {s : WriteState S K D W} {o : List (WriteEvent S K D)}

/-- A frontier that has arrived at a time that its writer has passed is written. -/
theorem WriteInv.front_mem (h : WriteInv cfg target is s o) {x : ℕ × FrontierMeta}
    (harrived : x ∈ s.arrived)
    (hpassed : ∀ v < cfg.workerCount, ∀ cap ∈ held (s.front v), x.1 < cap) :
    .front x.2.workerIndex (x.2.workerFrontier - cfg.resumeFrom.resumeEpoch) ∈
      durable cfg.resumeFrom.resumeEpoch o := by
  obtain ⟨htarget, item, hitem, hval⟩ := h.delivered x harrived
  have hvalues := mem_valuesFor.2 ⟨item, hitem, rfl, hval⟩
  rw [← h.front.written item.2.1 (hpassed _ htarget)] at hvalues
  obtain ⟨call, hcall, hin⟩ := List.mem_flatMap.1 hvalues
  have hbatch : x.2 ∈ batchOf call := by
    split at hin
    · exact mem_batchOf_of_batchFor hin
    · cases hin
  exact List.mem_flatMap.2 ⟨_, mem_frontCalls.1 hcall, List.mem_map.2 ⟨x.2, hbatch, rfl⟩⟩

/-- When an epoch is closed at a committer, each worker has written a frontier past it. -/
theorem WriteInv.front_past (h : WriteInv cfg target is s o) {w e v : ℕ}
    {a : EpochActivation Unit (ℕ × ℕ)} (hallowed : cfg.Allowed target s (.commit w a))
    (hclosed : a.itemsFrontier.IsClosed e) (he : cfg.resumeFrom.resumeEpoch ≤ e)
    (hv : v < cfg.workerCount)
    (hended : s.frontier v = none →
      ∃ x ∈ s.sent, x.2.workerIndex = v ∧ e < x.2.workerFrontier) :
    ∃ n, .front v n ∈ durable cfg.resumeFrom.resumeEpoch o ∧
      e < cfg.resumeFrom.resumeEpoch + n := by
  obtain ⟨-, hfrontier, hfront, hflight⟩ := hallowed
  have hpast : ∀ {m : ℕ}, a.itemsFrontier.Admits m → e < m := fun ⟨t, ht, hle⟩ =>
    Nat.lt_of_lt_of_le (hclosed t ht) hle
  obtain ⟨x, hx, rfl, hle, hlt⟩ := h.sent.covered v e he (by
    cases hcap : s.frontier v with
    | none => exact .inr (hended hcap)
    | some cap => exact .inl ⟨cap, rfl, hpast (hfrontier v hv cap hcap)⟩)
  have harrived : x ∈ s.arrived := by
    by_contra hnot
    exact Nat.not_lt_of_le hle (hpast (hflight x hx hnot))
  refine ⟨_, h.front_mem harrived fun v hv cap hcap => ?_, by omega⟩
  exact Nat.lt_of_le_of_lt hle (hpast (hfront v hv cap hcap))

/-- **What is committed is behind where a crash would resume.**  After any run of `write_recovery`,
an activation of a committer commits only epochs before the one that the execution, as it has been
written so far, would resume from; a worker whose input has ended has to have sent a frontier past
the epoch. -/
theorem writeRecovery_commit (cfg : RecoveryWrite S K D W) (target : ℕ → ℕ)
    {is : List (WriteStep S K D)} {s s' : WriteState S K D W} {o o' : List (WriteEvent S K D)}
    (hallowed : Runs.Along cfg.step (cfg.Allowed target) cfg.init is)
    (hr : Runs.run cfg.step cfg.init is = some (s, o)) {w : ℕ} {a : EpochActivation Unit (ℕ × ℕ)}
    (hcommit : cfg.Allowed target s (.commit w a))
    (hs : cfg.step s (.commit w a) = some (s', o')) {e part n : ℕ}
    (hcall : .commit w (e, .commit part n) ∈ o')
    (hended : ∀ v < cfg.workerCount, s.frontier v = none →
      ∃ x ∈ s.sent, x.2.workerIndex = v ∧ e < x.2.workerFrontier) :
    n + cfg.delay = e ∧ ∃ exec : Execution S K D, exec.workerCount = cfg.workerCount ∧
      exec.writes = durable cfg.resumeFrom.resumeEpoch (o ++ o') ∧
      e < cfg.resumeFrom.resumeEpoch + exec.closed := by
  have h := WriteInv.of_run hallowed hr
  obtain ⟨⟨t, calls⟩, hact, hs⟩ := Option.bind_eq_some_iff.1 hs
  cases hs
  obtain ⟨call, hcall, heq⟩ := List.mem_map.1 hcall
  cases heq
  obtain ⟨hn, hclosed⟩ := partdCommit_activate hact hcall
  replace hclosed : a.itemsFrontier.IsClosed e := by
    intro t ht
    obtain ⟨t', ht', hle⟩ := Frontier.both_le_left a.itemsFrontier a.updatesFrontier t ht
    exact Nat.lt_of_lt_of_le (hclosed t' ht') hle
  have hsame : durable cfg.resumeFrom.resumeEpoch (o ++ calls.map (WriteEvent.commit w)) =
      durable cfg.resumeFrom.resumeEpoch o := by
    rw [durable_append, durable_commit, List.append_nil]
  obtain ⟨exec, hworkers, hwrites⟩ := h.execution (List.prefix_refl _)
  refine ⟨hn, exec, hworkers, hwrites.trans hsame.symm, ?_⟩
  rcases Nat.lt_or_ge e cfg.resumeFrom.resumeEpoch with hlt | he
  · exact Nat.lt_add_right _ hlt
  · have hpos : 0 < exec.workerCount := hworkers ▸ Nat.zero_lt_of_lt hcommit.1
    obtain ⟨v, hv, hslowest⟩ := (Execution.closed_spec hpos).1
    rw [hworkers] at hv
    obtain ⟨m, hm, hlt⟩ := h.front_past hcommit hclosed he hv (hended v hv)
    have hle := Execution.le_closedBy (hwrites ▸ hm)
    omega

/-- After the first epoch is written, the committer is told of it. -/
def firstCommit : EpochActivation Unit (ℕ × ℕ) := ⟨[(1, [()])], [(0, [(0, 0)])], some 2, none⟩

theorem writeRecovery_commit_firstEpoch :
    ∃ s o s' o', Runs.run oneWorker.step oneWorker.init firstEpoch = some (s, o) ∧
      oneWorker.step s (.commit 0 firstCommit) = some (s', o') ∧
      .commit 0 (1, .commit 0 1) ∈ o' ∧ 1 + 0 = 1 ∧
      ∃ exec : Execution ℕ ℕ ℕ, exec.workerCount = 1 ∧
        exec.writes = durable 1 (o ++ o') ∧ 1 < 1 + exec.closed := by
  have hrun : (Runs.run oneWorker.step oneWorker.init firstEpoch).map (fun p =>
      (p.1.frontier 0, decide (oneWorker.Allowed (fun _ => 0) p.1 (.commit 0 firstCommit)),
        (oneWorker.step p.1 (.commit 0 firstCommit)).map fun q =>
          decide (.commit 0 (1, .commit 0 1) ∈ q.2))) = some (some 2, true, some true) := by
    decide +kernel
  obtain ⟨⟨s, o⟩, hr, hall⟩ := Option.map_eq_some_iff.1 hrun
  obtain ⟨hfrontier, hrest⟩ := Prod.mk.inj hall
  obtain ⟨hcommit, hstep⟩ := Prod.mk.inj hrest
  obtain ⟨⟨s', o'⟩, hs, hin⟩ := Option.map_eq_some_iff.1 hstep
  refine ⟨s, o, s', o', hr, hs, of_decide_eq_true hin, ?_⟩
  refine writeRecovery_commit oneWorker (fun _ => 0) (by decide +kernel) hr
    (of_decide_eq_true hcommit) hs (of_decide_eq_true hin) fun v hv hnone => ?_
  obtain rfl : v = 0 := Nat.lt_one_iff.1 hv
  rw [show s.frontier 0 = some 2 from hfrontier] at hnone
  cases hnone

/-- Two workers and no delay. -/
def twoWorkers : RecoveryWrite ℕ ℕ ℕ Unit := { oneWorker with workerCount := 2 }

/-- The frontier goes from 1 to 5 and ends; worker 0 sees the end only. -/
def lateWorker : List (WriteStep ℕ ℕ ℕ) :=
  [.ex 0 ⟨[(1, [(0, 0, 0, ⟨0, 2, 1⟩)])], [(0, [(0, 0)])], some 1, none⟩, .ex 1 ⟨[], [], none, none⟩,
    .ex 0 ⟨[], [], none, none⟩, .snap 0 ⟨[], [], some 5, none⟩, .snap 1 ⟨[], [], some 5, none⟩,
    .frontier 1 (some 5), .snap 0 ⟨[], [], none, none⟩, .snap 1 ⟨[], [], none, none⟩,
    .frontier 0 none, .frontier 1 none,
    .front 0 ⟨[(1, [(0, 0, (0, 0), ⟨0, 0, 2⟩), (0, 0, (0, 1), ⟨0, 1, 5⟩)]),
      (5, [(0, 0, (0, 1), ⟨0, 1, 6⟩)])], [(0, [(0, 0)])], none, none⟩,
    .front 1 ⟨[], [], none, none⟩]

/-- The committer sees the end, too. -/
def endCommit : EpochActivation Unit (ℕ × ℕ) :=
  ⟨[(1, [()]), (5, [()])], [(0, [(0, 0)])], none, none⟩

/-- Without a frontier past the epoch from the worker that has ended, epoch 5 is committed although
a resume would be from epoch 2. -/
theorem commit_past_resume :
    Runs.Along twoWorkers.step (twoWorkers.Allowed fun _ => 0) twoWorkers.init
      (lateWorker ++ [.commit 0 endCommit]) ∧
    ∃ s o, Runs.run twoWorkers.step twoWorkers.init (lateWorker ++ [.commit 0 endCommit]) =
        some (s, o) ∧ .commit 0 (5, .commit 0 5) ∈ o ∧
      ∃ exec : Execution ℕ ℕ ℕ, exec.workerCount = 2 ∧ exec.writes = durable 1 o ∧
        1 + exec.closed = 2 := by
  have hallowed : Runs.Along twoWorkers.step (twoWorkers.Allowed fun _ => 0) twoWorkers.init
      (lateWorker ++ [.commit 0 endCommit]) := by decide +kernel
  have hrun : (Runs.run twoWorkers.step twoWorkers.init (lateWorker ++ [.commit 0 endCommit])).map
      (fun p => (decide (.commit 0 (5, .commit 0 5) ∈ p.2), durable 1 p.2)) =
        some (true, [.ex, .front 0 1, .front 1 4, .front 1 5]) := by decide +kernel
  obtain ⟨⟨s, o⟩, hr, hall⟩ := Option.map_eq_some_iff.1 hrun
  obtain ⟨hin, hdurable⟩ := Prod.mk.inj hall
  obtain ⟨exec, hworkers, hwrites⟩ := (WriteInv.of_run hallowed hr).execution (List.prefix_refl _)
  refine ⟨hallowed, s, o, hr, of_decide_eq_true hin, exec, hworkers, hwrites, ?_⟩
  have hclosedBy : exec.closedBy = fun w =>
      ([.ex, .front 0 1, .front 1 4, .front 1 5].filterMap
        (DurableWrite.closed? (S := ℕ) (K := ℕ) (D := ℕ) w)).foldr max 0 := by
    ext1 w
    rw [Execution.closedBy, hwrites]
    exact congrArg (fun l => (l.filterMap (DurableWrite.closed? w)).foldr max 0) hdurable
  rw [Execution.closed, hworkers, hclosedBy]
  decide

end Recovery
end Bytewax
