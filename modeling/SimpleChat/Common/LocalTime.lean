import SimpleChat.Calendar.Gregorian
import SimpleChat.Common.Basic

/-!
# Local time

`localtime` breaks a time down into the fields of `struct tm`, as the C standard says: the years are
counted from 1900 and the months from zero.

## Main definitions

* `Tm`: `struct tm`, without the fields nothing reads
* `Tm.ofMoment`: the fields of a moment of the calendar
* `localtime offset`: the local time at a fixed offset from UTC

## Main results

* `Tm.ofMoment_injective`, `Tm.ofMoment_ranges`: the fields determine the moment, and are in their
  ranges
* `localtime_eq_iff`: the fields that `localtime` fills in
-/

namespace SimpleChat

open Calendar

/-- `struct tm`. The fields are of type `int`; overflow, which begins more than two thousand million
years from the epoch, is not modelled. -/
structure Tm where
  tmSec : ℤ
  tmMin : ℤ
  tmHour : ℤ
  tmMday : ℤ
  tmMon : ℤ
  tmYear : ℤ
  deriving DecidableEq, Repr

/-- The fields of a moment: `tm_mday` is counted from 1, `tm_mon` from 0 and `tm_year` from
1900. -/
def Tm.ofMoment (x : Moment) : Tm where
  tmSec := x.second
  tmMin := x.minute
  tmHour := x.hour
  tmMday := x.date.day + 1
  tmMon := x.date.month
  tmYear := x.date.year - 1900

theorem Tm.ofMoment_injective : Function.Injective Tm.ofMoment := by
  intro x y h
  simp only [Tm.ofMoment, Tm.mk.injEq] at h
  obtain ⟨hsec, hmin, hhour, hday, hmonth, hyear⟩ := h
  refine Moment.ext (Date.ext ?_ ?_ ?_) (Fin.ext ?_) (Fin.ext ?_) (Fin.ext ?_) <;> omega

/-- The fields are in the ranges of the C standard. -/
theorem Tm.ofMoment_ranges (x : Moment) :
    (0 ≤ (ofMoment x).tmSec ∧ (ofMoment x).tmSec < 60) ∧
      (0 ≤ (ofMoment x).tmMin ∧ (ofMoment x).tmMin < 60) ∧
      (0 ≤ (ofMoment x).tmHour ∧ (ofMoment x).tmHour < 24) ∧
      1 ≤ (ofMoment x).tmMday ∧ 0 ≤ (ofMoment x).tmMon ∧ (ofMoment x).tmMon < 12 := by
  have hmonth := x.date.month_lt
  simp only [ofMoment]
  omega

/-- The moment of the time zero. -/
def epoch : Moment where
  date := ⟨1970, 0, 0, Nat.zero_lt_succ 30⟩
  hour := ⟨0, Nat.zero_lt_succ 23⟩
  minute := ⟨0, Nat.zero_lt_succ 59⟩
  second := ⟨0, Nat.zero_lt_succ 59⟩

/-- The moment of a time in UTC. -/
def momentOf (t : Time) : Moment := .ofSecond (epoch.toSecond + t)

def localtime (offset t : Time) : Tm := .ofMoment (momentOf (t + offset))

theorem momentOf_eq_iff {t : Time} {x : Moment} :
    momentOf t = x ↔ x.toSecond = epoch.toSecond + t :=
  Moment.secondEquiv.symm_apply_eq.trans eq_comm

/-- The fields are those of the moment that the local clock shows. -/
theorem localtime_eq_iff {offset t : Time} {x : Moment} :
    localtime offset t = .ofMoment x ↔ x.toSecond = epoch.toSecond + (t + offset) := by
  rw [localtime, Tm.ofMoment_injective.eq_iff, momentOf_eq_iff]

theorem year_momentOf {t : Time} (ht : 0 ≤ t) : 1970 ≤ (momentOf t).date.year := by
  have hday : (epoch.toSecond + t) / 86400 = 719162 + t / 86400 := by
    have hepoch : epoch.toSecond = 719162 * 86400 := by decide
    have hadd := Int.add_mul_ediv_right t 719162 (show (86400 : ℤ) ≠ 0 by decide)
    rw [hepoch, Int.add_comm, hadd, Int.add_comm]
  have hnonneg : 0 ≤ t / 86400 := Int.ediv_nonneg ht (by decide)
  show 1970 ≤ yearOf ((epoch.toSecond + t) / 86400)
  apply le_yearOf
  rw [hday, show daysBefore 1970 = 719162 by decide]
  exact le_add_of_nonneg_right hnonneg

end SimpleChat
