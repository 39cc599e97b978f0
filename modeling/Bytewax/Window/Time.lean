import Mathlib.Order.Basic
import Mathlib.Data.Int.Order.Basic

/-!
# Bytewax.Window.Time — instants and durations

`chrono`'s `DateTime<Utc>` and `Duration` as integers, in nanoseconds (from the Unix epoch, for an
instant).  Differences of instants and the comparisons are those of the integers; what needs care
is the addition of a duration to an instant, which panics outside of the representable range
(`addDuration` is then `none`), and `num_milliseconds`, which rounds towards zero.
-/

namespace Bytewax

/-- `DateTime::<Utc>::MAX_UTC`, the last nanosecond of the year 262143. -/
def maxUtc : Int := 8210298412799999999999

/-- `DateTime::<Utc>::MIN_UTC`, the first nanosecond of the year -262144. -/
def minUtc : Int := -8334632851200000000000

/-- `Duration::num_milliseconds`: whole milliseconds, rounded towards zero. -/
def numMilliseconds (d : Int) : Int := d.tdiv 1000000

/-- `DateTime + Duration`, which panics when the sum is not representable. -/
def addDuration (t : Int) (d : Int) : Option Int :=
  if minUtc ≤ t + d ∧ t + d ≤ maxUtc then some (t + d) else none

/-- `t + d` is representable. -/
def Fits (t : Int) (d : Int) : Prop := minUtc ≤ t + d ∧ t + d ≤ maxUtc

instance (t : Int) (d : Int) : Decidable (Fits t d) :=
  inferInstanceAs (Decidable (_ ∧ _))

theorem addDuration_of_fits {t : Int} {d : Int} (h : Fits t d) :
    addDuration t d = some (t + d) := if_pos h

theorem addDuration_eq_none {t : Int} {d : Int} (h : ¬ Fits t d) :
    addDuration t d = none := if_neg h

theorem addDuration_eq_some {t u : Int} {d : Int} :
    addDuration t d = some u ↔ Fits t d ∧ u = t + d := by
  by_cases h : Fits t d
  · simp [addDuration_of_fits h, h, eq_comm]
  · simp [addDuration_eq_none h, h]

/-- A duration of at least one whole millisecond is positive. -/
theorem pos_of_numMilliseconds_pos {d : Int} (h : 0 < numMilliseconds d) : 0 < d := by
  by_contra hd
  have hneg : 0 ≤ (-d).tdiv 1000000 := Int.tdiv_nonneg (by omega) (by decide)
  rw [Int.neg_tdiv] at hneg
  unfold numMilliseconds at h
  generalize d.tdiv 1000000 = q at h hneg
  omega

/-- `DateTime - Duration`. -/
def subDuration (t : Int) (d : Int) : Option Int := addDuration t (-d)

theorem subDuration_eq_some {t u : Int} {d : Int} :
    subDuration t d = some u ↔ Fits t (-d) ∧ u = t - d := by
  rw [subDuration, addDuration_eq_some, Int.sub_eq_add_neg]

/-- Between two instants to which a duration can be added, it can be added. -/
theorem Fits.between {t u v : Int} {d : Int} (ht : Fits t d) (hv : Fits v d)
    (htu : t ≤ u) (huv : u ≤ v) : Fits u d := by
  unfold Fits at *
  omega

end Bytewax
