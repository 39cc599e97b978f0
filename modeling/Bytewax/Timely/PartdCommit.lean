import Bytewax.Timely.EpochRun
import Bytewax.Timely.Parts
import Mathlib.Order.Lattice

/-!
# Bytewax.Timely.PartdCommit — the `partd_commit` operator

When an epoch of the clock closes, the epoch that is `delay` behind it is committed to all parts of
this worker, before these are updated.
-/

namespace Bytewax

open Std (TreeMap TreeSet)

/-- What builds the committers of partitions, and their method. -/
structure Committers (P L : Type) where
  builder : P → L
  commit : L → Nat → L

/-- What the operator does: it builds, commits to or drops a committer, or sends a clock tick. -/
inductive CommitCall (P : Type)
  | built (part : P)
  | commit (part : P) (epoch : Nat)
  | dropped (part : P)
  | clock
  deriving DecidableEq, Repr

/-- The partition and the epoch that are committed. -/
def CommitCall.commit? {P : Type} : CommitCall P → Option (P × Nat)
  | .commit part epoch => some (part, epoch)
  | .built _ | .dropped _ | .clock => none

namespace EpochOp

variable {P L : Type} [LinearOrder P]

/-- Commit the epoch that is `delay` behind, if there is one, to all parts. -/
def commitParts (committers : Committers P L) (delay epoch : Nat) (parts : TreeMap P L) :
    TreeMap P L × List (Nat × CommitCall P) :=
  if delay ≤ epoch then
    let delayed := epoch - delay
    (parts.map fun _ part => committers.commit part delayed,
      parts.keys.map fun partKey => (epoch, .commit partKey delayed))
  else
    (parts, [])

/-- `partd_commit`: the items are the ticks of the clock, which are not used. -/
def partdCommit (committers : Committers P L) (thisWorker delay : Nat) :
    EpochOp Unit Unit (P × Nat) (TreeMap P L) (Nat × CommitCall P) where
  init := ∅
  push _ _ := ()
  use _ parts _ := some (parts, [])
  close epoch parts primaries := do
    let (parts, commits) := commitParts committers delay epoch parts
    let (parts, calls) ← Runs.run
      (assignPart committers.builder .built .dropped thisWorker epoch) parts primaries
    return (parts, commits ++ calls ++ [(epoch, .clock)])

variable {committers : Committers P L} {thisWorker delay e b c : Nat}
  {as : List (EpochActivation Unit (P × Nat))} {o o' : List (Nat × CommitCall P)}

/-- The ticks need not be buffered. -/
theorem partdCommit_buffers : (partdCommit committers thisWorker delay).Buffers
    fun (_ : List Unit) _ => True where
  push_none _ := trivial
  push_some _ _ := trivial

theorem partdCommit_uses {d₀ d : TreeMap P L} {xs : List Unit}
    (h : (partdCommit committers thisWorker delay).Uses (fun _ _ => True) e d₀ xs d o) :
    d = d₀ ∧ o = [] := by
  induction h with
  | nil => exact ⟨rfl, rfl⟩
  | use _ _ huse ih =>
    obtain ⟨rfl, rfl⟩ := ih
    cases huse
    exact ⟨rfl, rfl⟩

/-- What has been done when the epochs before `b` are closed: to each partition that this worker is
primary for, each active epoch has committed the epoch `delay` behind it, and the clock has ticked
after that. -/
structure Committed (thisWorker delay : Nat) (as : List (EpochActivation Unit (P × Nat))) (b : Nat)
    (o : List (Nat × CommitCall P)) : Prop where
  before : ∀ call ∈ o, call.1 < b
  commits : ∀ e p n, (e, .commit p n) ∈ o ↔ e < b ∧ Active as e ∧ n + delay = e ∧
    lastAssigned (updatesBefore as e) p = some thisWorker
  increasing : (o.filterMap fun call => call.2.commit?).Pairwise fun x y =>
    x.2 < y.2 ∨ x.2 = y.2 ∧ x.1 < y.1
  ordered : o.Pairwise fun call later => call.1 < later.1 ∨ call.1 = later.1 ∧ call.2 ≠ .clock
  clock : ∀ e, (e, .clock) ∈ o ↔ e < b ∧ Active as e

theorem Committed.zero : Committed thisWorker delay as 0 [] where
  before call hcall := by cases hcall
  commits e p n := by simp
  increasing := .nil
  ordered := .nil
  clock e := by simp

/-- An epoch in which nothing arrives. -/
theorem Committed.idle (h : Committed thisWorker delay as b o) (hidle : ¬ Active as b) :
    Committed thisWorker delay as (b + 1) o := by
  have hbefore : ∀ e, Active as e → (e < b ↔ e < b + 1) := by
    intro e hactive
    have hne : e ≠ b := fun he => hidle (he ▸ hactive)
    omega
  refine ⟨fun call hcall => Nat.lt_succ_of_lt (h.before call hcall), fun e p n => ?_,
    h.increasing, h.ordered, fun e => ?_⟩
  · rw [h.commits]
    exact ⟨fun ⟨hlt, hactive, hrest⟩ => ⟨(hbefore e hactive).mp hlt, hactive, hrest⟩,
      fun ⟨hlt, hactive, hrest⟩ => ⟨(hbefore e hactive).mpr hlt, hactive, hrest⟩⟩
  · rw [h.clock]
    exact and_congr_left (hbefore e)

/-- What an epoch commits, which comes before its tick. -/
structure CommitsAt (thisWorker delay : Nat) (routes : List (P × Nat)) (e : Nat)
    (calls : List (Nat × CommitCall P)) : Prop where
  epoch : ∀ call ∈ calls, call.1 = e ∧ call.2 ≠ .clock
  commits : ∀ p n, (e, .commit p n) ∈ calls ↔
    n + delay = e ∧ lastAssigned routes p = some thisWorker
  increasing : (calls.filterMap fun call => call.2.commit?).Pairwise fun x y => x.1 < y.1

omit [LinearOrder P] in
theorem mem_filterMap_commit? {calls : List (Nat × CommitCall P)} {x : P × Nat} :
    x ∈ calls.filterMap (fun call => call.2.commit?) ↔ ∃ e, (e, .commit x.1 x.2) ∈ calls := by
  rw [List.mem_filterMap]
  refine ⟨fun ⟨⟨e, call⟩, hin, hx⟩ => ?_, fun ⟨e, hin⟩ => ⟨_, hin, rfl⟩⟩
  cases call with
  | commit part epoch =>
    cases hx
    exact ⟨e, hin⟩
  | built part => cases hx
  | dropped part => cases hx
  | clock => cases hx

theorem CommitsAt.epoch_of_mem {routes : List (P × Nat)} {calls : List (Nat × CommitCall P)}
    {call : Nat × CommitCall P} (h : CommitsAt thisWorker delay routes e calls)
    (hcall : call ∈ calls ++ [(e, .clock)]) : call.1 = e := by
  rcases List.mem_append.mp hcall with hcall | hcall
  · exact (h.epoch call hcall).1
  · rw [List.mem_singleton.mp hcall]

/-- The close of an epoch. -/
theorem Committed.epoch {calls : List (Nat × CommitCall P)} (h : Committed thisWorker delay as b o)
    (hactive : Active as b) (hcalls : CommitsAt thisWorker delay (updatesBefore as b) b calls) :
    Committed thisWorker delay as (b + 1) (o ++ (calls ++ [(b, .clock)])) where
  before call hcall := by
    rcases List.mem_append.mp hcall with hcall | hcall
    · exact Nat.lt_succ_of_lt (h.before call hcall)
    · exact Nat.lt_succ_of_le (Nat.le_of_eq (hcalls.epoch_of_mem hcall))
  commits e p n := by
    have hnew : (e, CommitCall.commit p n) ∈ calls ++ [(b, CommitCall.clock)] ↔
        e = b ∧ (b, .commit p n) ∈ calls := by
      rw [List.mem_append, or_iff_left (by simp)]
      refine ⟨fun hin => ?_, ?_⟩
      · obtain rfl := (hcalls.epoch _ hin).1
        exact ⟨rfl, hin⟩
      · rintro ⟨rfl, hin⟩
        exact hin
    rw [List.mem_append, h.commits, hnew, hcalls.commits]
    refine ⟨?_, fun ⟨hlt, hactive', hn, hlast⟩ => ?_⟩
    · rintro (⟨hlt, hrest⟩ | ⟨rfl, hn, hlast⟩)
      · exact ⟨Nat.lt_succ_of_lt hlt, hrest⟩
      · exact ⟨Nat.lt_succ_self e, hactive, hn, hlast⟩
    · rcases Nat.lt_succ_iff_lt_or_eq.mp hlt with hlt | rfl
      · exact .inl ⟨hlt, hactive', hn, hlast⟩
      · exact .inr ⟨rfl, hn, hlast⟩
  increasing := by
    have hnone : [((b, .clock) : Nat × CommitCall P)].filterMap (fun call => call.2.commit?) = [] :=
      rfl
    rw [List.filterMap_append, List.filterMap_append, hnone, List.append_nil]
    have hat : ∀ x ∈ calls.filterMap (fun call => call.2.commit?), x.2 + delay = b := by
      intro x hx
      obtain ⟨e, hin⟩ := mem_filterMap_commit?.mp hx
      obtain rfl : e = b := (hcalls.epoch _ hin).1
      exact ((hcalls.commits _ _).mp hin).1
    refine List.pairwise_append.mpr ⟨h.increasing, ?_, fun x hx y hy => .inl ?_⟩
    · refine List.Pairwise.imp_of_mem (fun {x y} hx hy hlt => .inr ⟨?_, hlt⟩) hcalls.increasing
      have hnx := hat x hx
      have hny := hat y hy
      omega
    · obtain ⟨e, hin⟩ := mem_filterMap_commit?.mp hx
      obtain ⟨hlt, -, hn, -⟩ := (h.commits _ _ _).mp hin
      have hny := hat y hy
      omega
  ordered := by
    refine List.pairwise_append.mpr ⟨h.ordered, ?_, fun call hcall later hlater => .inl ?_⟩
    · refine List.pairwise_append.mpr ⟨?_, List.pairwise_singleton _ _, ?_⟩
      · refine List.Pairwise.imp_of_mem (fun {call later} hcall hlater _ => .inr ?_)
          (List.pairwise_of_forall fun _ _ => trivial)
        exact ⟨(hcalls.epoch call hcall).1.trans (hcalls.epoch later hlater).1.symm,
          (hcalls.epoch call hcall).2⟩
      · intro call hcall later hlater
        rw [List.mem_singleton.mp hlater]
        exact .inr (hcalls.epoch call hcall)
    · rw [hcalls.epoch_of_mem hlater]
      exact h.before call hcall
  clock e := by
    have hnew : (e, CommitCall.clock) ∈ calls ++ [(b, CommitCall.clock)] ↔ e = b := by
      rw [List.mem_append, or_iff_right fun hin => (hcalls.epoch _ hin).2 rfl]
      simp
    rw [List.mem_append, h.clock, hnew]
    refine ⟨?_, fun ⟨hlt, hactive'⟩ => ?_⟩
    · rintro (⟨hlt, hactive'⟩ | rfl)
      · exact ⟨Nat.lt_succ_of_lt hlt, hactive'⟩
      · exact ⟨Nat.lt_succ_self e, hactive⟩
    · exact (Nat.lt_succ_iff_lt_or_eq.mp hlt).imp (fun hlt => ⟨hlt, hactive'⟩) id

variable (committers delay e) in
/-- The loop over the parts commits to each of them, and keeps them. -/
theorem commitsAt_commitParts {routes : List (P × Nat)} {parts : TreeMap P L}
    (hprimary : IsPrimary thisWorker routes parts) :
    IsPrimary thisWorker routes (commitParts committers delay e parts).1 ∧
      CommitsAt thisWorker delay routes e (commitParts committers delay e parts).2 := by
  rw [commitParts]
  split
  · next hle =>
    have hord : parts.keys.Pairwise (· < ·) :=
      TreeMap.ordered_keys.imp fun h => compare_lt_iff_lt.mp h
    refine ⟨fun p => TreeMap.mem_map.trans (hprimary p), fun call hcall => ?_, fun p n => ?_, ?_⟩
    · obtain ⟨p, -, rfl⟩ := List.mem_map.mp hcall
      exact ⟨rfl, by simp⟩
    · rw [← hprimary p, List.mem_map]
      refine ⟨?_, fun ⟨hn, hin⟩ => ⟨p, TreeMap.mem_keys.mpr hin, ?_⟩⟩
      · rintro ⟨q, hin, hq⟩
        cases hq
        exact ⟨by omega, TreeMap.mem_keys.mp hin⟩
      · rw [show e - delay = n by omega]
    · have hkeys : (parts.keys.map fun p => (e, CommitCall.commit p (e - delay))).filterMap
          (fun call => call.2.commit?) = parts.keys.map fun p => (p, e - delay) := by
        rw [List.filterMap_map, ← List.filterMap_eq_map]
        rfl
      rw [hkeys, List.pairwise_map]
      exact hord
  · next hgt =>
    refine ⟨hprimary, by simp, fun p n => ?_, .nil⟩
    simp only [List.not_mem_nil, false_iff]
    omega

/-- Building and dropping commits nothing. -/
theorem CommitsAt.append {routes : List (P × Nat)} {calls assigns : List (Nat × CommitCall P)}
    (h : CommitsAt thisWorker delay routes e calls)
    (hassigns : ∀ call ∈ assigns, call.1 = e ∧ ∃ p, call.2 = .built p ∨ call.2 = .dropped p) :
    CommitsAt thisWorker delay routes e (calls ++ assigns) := by
  have hnot : ∀ e' p n, (e', CommitCall.commit p n) ∉ assigns := by
    intro e' p n hin
    obtain ⟨-, q, hq | hq⟩ := hassigns _ hin
    · cases hq
    · cases hq
  have hnone : assigns.filterMap (fun call => call.2.commit?) = [] := by
    refine List.eq_nil_iff_forall_not_mem.mpr fun x hx => ?_
    obtain ⟨e', hin⟩ := mem_filterMap_commit?.mp hx
    exact hnot e' _ _ hin
  refine ⟨fun call hcall => ?_, fun p n => ?_, ?_⟩
  · rcases List.mem_append.mp hcall with hcall | hcall
    · exact h.epoch call hcall
    · obtain ⟨he, p, hp | hp⟩ := hassigns call hcall
      · exact ⟨he, by simp [hp]⟩
      · exact ⟨he, by simp [hp]⟩
  · rw [List.mem_append, or_iff_left (hnot e p n), h.commits]
  · rw [List.filterMap_append, hnone, List.append_nil]
    exact h.increasing

variable (committers delay) in
/-- The close of an epoch does not panic. -/
theorem partdCommit_close {parts : TreeMap P L}
    (hprimary : IsPrimary thisWorker (updatesBefore as b) parts)
    (hchanges : ∀ e, Changing (updatesBefore as e)) :
    ∃ parts' calls, (partdCommit committers thisWorker delay).close b parts (updatesAt as b) =
        some (parts', calls ++ [(b, .clock)]) ∧
      IsPrimary thisWorker (updatesBefore as (b + 1)) parts' ∧
      CommitsAt thisWorker delay (updatesBefore as b) b calls := by
  obtain ⟨hprimary₁, hcommits⟩ := commitsAt_commitParts committers delay b hprimary
  obtain ⟨parts', assigns, hr, hprimary'⟩ := hprimary₁.run_assignPart committers.builder
    CommitCall.built .dropped b (by rw [← updatesBefore_succ]; exact hchanges (b + 1))
  refine ⟨parts', (commitParts committers delay b parts).2 ++ assigns, ?_,
    by rwa [updatesBefore_succ], hcommits.append (run_assignPart_calls hr)⟩
  show Option.bind (Runs.run _ (commitParts committers delay b parts).1 _) _ = _
  rw [hr]
  rfl

/-- **Whole epochs.** -/
theorem partdCommit_trace {d : TreeMap P L} (hchanges : ∀ e, Changing (updatesBefore as e))
    (h : (partdCommit committers thisWorker delay).Trace (fun _ _ => True) as b d o) :
    IsPrimary thisWorker (updatesBefore as b) d ∧ Committed thisWorker delay as b o := by
  induction h with
  | start => exact ⟨.empty, .zero⟩
  | idle _ hidle ih =>
    obtain ⟨hprimary, hcommitted⟩ := ih
    refine ⟨?_, hcommitted.idle hidle⟩
    rwa [updatesBefore_succ, updatesAt_of_not_active hidle, List.append_nil]
  | @epoch e d d₁ d₂ o o₁ o₂ _ hactive huses hclose ih =>
    obtain ⟨hprimary, hcommitted⟩ := ih
    obtain ⟨rfl, rfl⟩ := partdCommit_uses huses
    obtain ⟨parts', calls, hclose', hprimary', hcalls⟩ :=
      partdCommit_close committers delay hprimary hchanges
    rw [hclose'] at hclose
    cases hclose
    rw [List.append_nil]
    exact ⟨hprimary', hcommitted.epoch hactive hcalls⟩

/-- **The epoch `delay` behind is committed as epochs close**, however ticks, assignments and
frontiers arrive, if each assignment is a change, as those of `assign_primaries` are
(`Settled.changing`): the operator does not panic, and at the close of each epoch of its inputs it
commits the epoch `delay` behind, once, to just the partitions that the assignments of the epochs
before give to this worker, and then sends a tick; the epochs that are committed increase. -/
theorem partdCommit_run (committers : Committers P L) (thisWorker delay : Nat)
    (has : EpochSchedule as) (hchanges : ∀ e, Changing (updatesBefore as e)) :
    ∃ s o, Runs.run (partdCommit committers thisWorker delay).activate
        (partdCommit committers thisWorker delay).start as = some (s, o) ∧
      Committed thisWorker delay as (closedHorizon as) o := by
  have htotal : (partdCommit committers thisWorker delay).Total (fun _ _ => True) as := by
    refine ⟨fun _ _ _ _ _ => rfl, fun htrace _ huses => ?_⟩
    obtain ⟨hprimary, -⟩ := partdCommit_trace hchanges htrace
    obtain ⟨rfl, rfl⟩ := partdCommit_uses huses
    obtain ⟨parts', calls, hclose, -⟩ :=
      partdCommit_close committers delay hprimary hchanges
    rw [hclose]
    rfl
  obtain ⟨s, o, hr, hends⟩ := run_ends partdCommit_buffers htotal has
  refine ⟨s, o, hr, ?_⟩
  rcases hends with ⟨f, d₀, o₀, d, o₁, hf, htrace, huses, rfl⟩ | ⟨hf, hall⟩
  · obtain ⟨-, hcommitted⟩ := partdCommit_trace hchanges htrace
    obtain ⟨-, rfl⟩ := partdCommit_uses huses
    rw [closedHorizon, hf, List.append_nil]
    exact hcommitted
  · obtain ⟨d, htrace⟩ := hall (beyond as) fun e he => not_active_beyond he
    rw [closedHorizon, hf]
    exact (partdCommit_trace hchanges htrace).2

/-- Worker 0 gets the first of two partitions, and then two epochs end. -/
def twoTicks : List (EpochActivation Unit (Nat × Nat)) :=
  [⟨[(0, [()])], [(0, [(7, 0), (8, 1)])], some 1, some 1⟩, ⟨[(1, [()])], [], some 2, none⟩,
    ⟨[(2, [()])], [], none, none⟩]

theorem twoTicks_schedule : EpochSchedule twoTicks where
  frontier := by unfold Frontier.Le; decide +kernel
  items := by unfold Frontier.Admits; decide +kernel
  updates := by unfold Frontier.Admits; decide +kernel

theorem twoTicks_changing (e : Nat) : Changing (updatesBefore twoTicks e) := by
  have hbefore : updatesBefore twoTicks e = if e = 0 then [] else [(7, 0), (8, 1)] := by
    induction e with
    | zero => rfl
    | succ e ih =>
      rw [updatesBefore_succ, ih]
      by_cases he : e = 0
      · subst he
        decide
      · simp [he, twoTicks, updatesAt, Keyed.valuesOf, Ne.symm he]
  rw [hbefore]
  split
  · exact .nil
  · exact (Changing.nil.concat (7, 0) (by decide)).concat (8, 1) (by decide)

theorem partdCommit_run_twoTicks : ∃ s o,
    Runs.run (partdCommit ⟨fun _ => 0, fun _ e => e⟩ 0 1).activate
      (partdCommit ⟨fun _ => 0, fun _ e => e⟩ 0 1).start twoTicks = some (s, o) ∧
    Committed 0 1 twoTicks 3 o :=
  partdCommit_run _ 0 1 twoTicks_schedule twoTicks_changing

end EpochOp
end Bytewax
