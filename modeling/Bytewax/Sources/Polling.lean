import Mathlib.Data.Int.ModEq
import Mathlib.Order.Bounds.Defs

/-!
# Bytewax.Sources.Polling — `SimplePollingSource`

The partition of a polling source asks its getter for an item at each awakening, and moves the next
awakening by the interval, or by the timeout of a retry.  Instants and durations are integers, in
microseconds.  A getter that raises anything but `Retry` ends the execution.
-/

namespace Bytewax

/-- What the getter does: it returns an item or `None`, or raises `Retry`. -/
inductive PollResult (X : Type)
  | item (x : X)
  | noItem
  | retry (timeout : Int)
  deriving DecidableEq, Repr

/-- `_SimplePollingPartition`. -/
structure SimplePollingPartition where
  interval : Int
  nextAwake : Int
  deriving DecidableEq, Repr

namespace SimplePollingPartition

variable {X : Type}

/-- `_SimplePollingPartition.__init__`. -/
def new (now interval : Int) (alignTo : Option Int) : SimplePollingPartition :=
  match alignTo with
  | some alignTo =>
    let sinceLastAwake := (now - alignTo).fmod interval
    let untilNextAwake := if sinceLastAwake > 0 then interval - sinceLastAwake else 0
    ⟨interval, now + untilNextAwake⟩
  | none => ⟨interval, now⟩

/-- `next_batch`. -/
def nextBatch (p : SimplePollingPartition) : PollResult X → SimplePollingPartition × List X
  | .item x => ({ p with nextAwake := p.nextAwake + p.interval }, [x])
  | .noItem => ({ p with nextAwake := p.nextAwake + p.interval }, [])
  | .retry timeout => ({ p with nextAwake := p.nextAwake + timeout }, [])

/-- The partition after some polls. -/
def after (p : SimplePollingPartition) (polls : List (PollResult X)) : SimplePollingPartition :=
  polls.foldl (fun p poll => (p.nextBatch poll).1) p

end SimplePollingPartition

variable {X : Type}

/-- A poll that did not raise `Retry`. -/
def PollResult.IsRegular : PollResult X → Prop
  | .retry _ => False
  | _ => True

/-- The timeout of a retry. -/
def PollResult.timeout : PollResult X → Int
  | .retry timeout => timeout
  | _ => 0

/-- What the retries among some polls have added up to. -/
def retried (polls : List (PollResult X)) : Int := (polls.map PollResult.timeout).sum

/-- `t` differs from `alignTo` by a whole number of intervals. -/
def AlignedTo (interval alignTo t : Int) : Prop := interval ∣ t - alignTo

instance (interval alignTo t : Int) : Decidable (AlignedTo interval alignTo t) :=
  inferInstanceAs (Decidable (interval ∣ t - alignTo))

/-- The first awakening is at the first aligned instant from `now` on, and the one after each poll
that did not raise `Retry` is aligned. -/
structure StaysAligned (now interval alignTo : Int) (polls : List (PollResult X)) : Prop where
  first : IsLeast {t | now ≤ t ∧ AlignedTo interval alignTo t}
    (SimplePollingPartition.new now interval (some alignTo)).nextAwake
  regular : ∀ pre poll, pre ++ [poll] <+: polls → poll.IsRegular → AlignedTo interval alignTo
    ((SimplePollingPartition.new now interval (some alignTo)).after (pre ++ [poll])).nextAwake

/-- Before each poll that did not raise `Retry`, the retries have added up to a whole number of
intervals. -/
def RetriesWhole (interval : Int) (polls : List (PollResult X)) : Prop :=
  ∀ pre poll, pre ++ [poll] <+: polls → poll.IsRegular → interval ∣ retried pre

namespace SimplePollingPartition

variable {now interval alignTo : Int} {p : SimplePollingPartition} {polls : List (PollResult X)}

/-- **The first awakening.** -/
theorem isLeast_new (h : 0 < interval) :
    IsLeast {t | now ≤ t ∧ AlignedTo interval alignTo t}
      (new now interval (some alignTo)).nextAwake := by
  have hpos := Int.emod_nonneg (now - alignTo) (by omega : interval ≠ 0)
  have hlt := Int.emod_lt_of_pos (now - alignTo) h
  have hdiv := Int.mul_ediv_add_emod (now - alignTo) interval
  show IsLeast _ (now + if (now - alignTo).fmod interval > 0
    then interval - (now - alignTo).fmod interval else 0)
  rw [Int.fmod_eq_emod_of_nonneg _ h.le]
  generalize (now - alignTo) % interval = r at hpos hlt hdiv
  generalize (now - alignTo) / interval = q at hdiv
  -- `now` is `r` past the aligned instant number `q`.
  have hnow : now = alignTo + interval * q + r := by omega
  by_cases hr : r > 0
  · rw [if_pos hr]
    refine ⟨⟨by omega, q + 1, by rw [hnow, Int.mul_add, Int.mul_one]; omega⟩, ?_⟩
    rintro t ⟨hle, m, hm⟩
    have hq : q < m := by
      by_contra hmq
      have := Int.mul_le_mul_of_nonneg_left (Int.not_lt.mp hmq) h.le
      omega
    have := Int.mul_le_mul_of_nonneg_left (Int.add_one_le_of_lt hq) h.le
    rw [Int.mul_add, Int.mul_one] at this
    omega
  · rw [if_neg hr, Int.add_zero]
    exact ⟨⟨Int.le_refl now, q, by omega⟩, fun t ht => ht.1⟩

/-- The number of polls that did not raise `Retry` tells how many intervals were added. -/
theorem nextAwake_after : ∃ n : Int,
    (p.after polls).nextAwake = p.nextAwake + p.interval * n + retried polls := by
  induction polls generalizing p with
  | nil => exact ⟨0, by simp [after, retried]⟩
  | cons poll polls ih =>
    obtain ⟨n, hn⟩ := @ih (p.nextBatch poll).1
    replace hn : (p.after (poll :: polls)).nextAwake = _ := hn
    rw [hn]
    have hsum : retried (poll :: polls) = poll.timeout + retried polls := by simp [retried]
    rw [hsum]
    cases poll with
    | retry timeout =>
      refine ⟨n, ?_⟩
      show p.nextAwake + timeout + p.interval * n + _ = _
      simp only [PollResult.timeout]
      omega
    | item x =>
      refine ⟨n + 1, ?_⟩
      show p.nextAwake + p.interval + p.interval * n + _ = _
      rw [Int.mul_add, Int.mul_one]
      simp only [PollResult.timeout]
      omega
    | noItem =>
      refine ⟨n + 1, ?_⟩
      show p.nextAwake + p.interval + p.interval * n + _ = _
      rw [Int.mul_add, Int.mul_one]
      simp only [PollResult.timeout]
      omega

end SimplePollingPartition

open SimplePollingPartition

/-- **When a polling source stays aligned.** -/
theorem staysAligned_iff (now interval alignTo : Int) (h : 0 < interval) (polls : List (PollResult X)) :
    StaysAligned now interval alignTo polls ↔ RetriesWhole interval polls := by
  have hfirst : IsLeast _ (new now interval (some alignTo)).nextAwake :=
    isLeast_new h
  have hstep : ∀ (pre : List (PollResult X)) (poll : PollResult X), poll.IsRegular →
      (AlignedTo interval alignTo
        ((new now interval (some alignTo)).after (pre ++ [poll])).nextAwake ↔
          interval ∣ retried pre) := by
    intro pre poll hpoll
    obtain ⟨n, hn⟩ := @nextAwake_after X (new now interval (some alignTo)) (pre ++ [poll])
    have htimeout : retried (pre ++ [poll]) = retried pre := by
      cases poll with
      | retry timeout => exact hpoll.elim
      | item x => simp [retried, PollResult.timeout]
      | noItem => simp [retried, PollResult.timeout]
    have hbase : interval ∣ (new now interval (some alignTo)).nextAwake - alignTo := hfirst.1.2
    have hint : interval ∣ (new now interval (some alignTo)).interval * n :=
      Dvd.intro n rfl
    unfold AlignedTo
    rw [hn, htimeout, show ∀ a b c d : Int, a + b + c - d = (a - d + b) + c by intros; omega]
    exact Int.dvd_add_right (Int.dvd_add hbase hint)
  constructor
  · exact fun hs pre poll hpre hpoll => (hstep pre poll hpoll).mp (hs.regular pre poll hpre hpoll)
  · intro hr
    exact ⟨hfirst, fun pre poll hpre hpoll => (hstep pre poll hpoll).mpr (hr pre poll hpre hpoll)⟩

/-- At an interval of ten seconds, after retries of one second and of nine. -/
theorem staysAligned_iff_ten_seconds :
    StaysAligned 3000000 10000000 0 [.retry 1000000, .retry 9000000, .item true] := by
  refine (staysAligned_iff 3000000 10000000 0 (by decide) _).mpr ?_
  rintro pre poll ⟨post, hsplit⟩ hpoll
  rcases pre with _ | ⟨a, _ | ⟨b, _ | ⟨c, pre⟩⟩⟩
  · cases hsplit
    exact hpoll.elim
  · cases hsplit
    exact hpoll.elim
  · cases hsplit
    show (10000000 : Int) ∣ 1000000 + (9000000 + 0)
    decide
  · have hlen := congrArg List.length hsplit
    simp at hlen

/-- A retry of five seconds moves the awakenings after it off a half-hour schedule. -/
theorem not_staysAligned_retry :
    ¬ StaysAligned 0 1800000000 0 [.retry 5000000, .item true] := by
  intro h
  have haligned := h.regular [.retry 5000000] (.item true) List.prefix_rfl trivial
  revert haligned
  decide

end Bytewax
