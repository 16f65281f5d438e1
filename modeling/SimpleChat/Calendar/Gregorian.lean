import Mathlib.Algebra.Order.Group.Unbundled.Int
import Mathlib.Data.List.Basic
import Mathlib.Logic.Equiv.Defs
import Mathlib.Tactic.Ring

/-!
# The Gregorian calendar

The days of the proleptic Gregorian calendar, numbered from 1 January of the year 1, and the
seconds of these days. A date is valid by construction.

## Main definitions

* `locate`: the position of a number in consecutive blocks of given lengths
* `Date`: a date of the calendar, with `Date.toDay` and `Date.ofDay`
* `Moment`: a date with a time of day, with `Moment.toSecond` and `Moment.ofSecond`

## Main results

* `daysBefore_yearOf`: every day lies in the year it is counted to
* `Date.dayEquiv`: the dates are the days, one to one
* `Moment.secondEquiv`: the moments are the seconds, one to one
* `Moment.sameHour_iff`: the hour that seconds lie in
-/

namespace Calendar

/-! ## Positions in consecutive blocks -/

/-- The block that a number falls in, and its offset there; the blocks have the given lengths. -/
def locate : List ℕ → ℕ → ℕ × ℕ
  | [], d => (0, d)
  | l :: ls, d => if d < l then (0, d) else ((locate ls (d - l)).1 + 1, (locate ls (d - l)).2)

theorem locate_spec {ls : List ℕ} {d : ℕ} (hd : d < ls.sum) :
    (locate ls d).2 < ls.getD (locate ls d).1 0 ∧
      (ls.take (locate ls d).1).sum + (locate ls d).2 = d := by
  induction ls generalizing d with
  | nil => simp at hd
  | cons l ls ih =>
    rw [List.sum_cons] at hd
    rw [locate]
    split
    · next hl => simpa using hl
    · next hl =>
      obtain ⟨hoff, hsum⟩ := ih (d := d - l) (by omega)
      refine ⟨by simpa using hoff, ?_⟩
      rw [List.take_succ_cons, List.sum_cons]
      omega

/-- A position determines its block and its offset. -/
theorem locate_take_sum_add {ls : List ℕ} {i r : ℕ} (hr : r < ls.getD i 0) :
    locate ls ((ls.take i).sum + r) = (i, r) := by
  induction ls generalizing i with
  | nil => simp at hr
  | cons l ls ih =>
    cases i with
    | zero =>
      have hl : r < l := by simpa using hr
      simp [locate, hl]
    | succ i =>
      have hi : r < ls.getD i 0 := by simpa using hr
      rw [List.take_succ_cons, List.sum_cons, locate, if_neg (by omega),
        show l + (ls.take i).sum + r - l = (ls.take i).sum + r by omega, ih hi]

theorem take_sum_add_lt {ls : List ℕ} {i r : ℕ} (hr : r < ls.getD i 0) :
    (ls.take i).sum + r < ls.sum := by
  induction ls generalizing i with
  | nil => simp at hr
  | cons l ls ih =>
    cases i with
    | zero =>
      have hl : r < l := by simpa using hr
      simp
      omega
    | succ i =>
      have hi := ih (i := i) (by simpa using hr)
      rw [List.take_succ_cons, List.sum_cons, List.sum_cons]
      omega

/-! ## Years -/

/-- Every fourth year is a leap year, except for three of four full centuries. -/
def IsLeap (y : ℤ) : Prop := y % 4 = 0 ∧ (y % 100 ≠ 0 ∨ y % 400 = 0)

instance decidableIsLeap (y : ℤ) : Decidable (IsLeap y) :=
  inferInstanceAs (Decidable (y % 4 = 0 ∧ (y % 100 ≠ 0 ∨ y % 400 = 0)))

/-- The lengths of the months, from January on. -/
def monthLengths (y : ℤ) : List ℕ :=
  [31, if IsLeap y then 29 else 28, 31, 30, 31, 30, 31, 31, 30, 31, 30, 31]

def yearLength (y : ℤ) : ℕ := (monthLengths y).sum

/-- The number of the first of January, where that of the year 1 has the number 0. -/
def daysBefore (y : ℤ) : ℤ := 365 * (y - 1) + (y - 1) / 4 - (y - 1) / 100 + (y - 1) / 400

theorem yearLength_eq (y : ℤ) : yearLength y = if IsLeap y then 366 else 365 := by
  by_cases h : IsLeap y <;> simp [yearLength, monthLengths, h]

/-- The next year begins when the year is over. -/
theorem daysBefore_succ (y : ℤ) : daysBefore (y + 1) = daysBefore y + yearLength y := by
  rw [yearLength_eq, daysBefore, daysBefore, add_sub_cancel_right]
  split
  · next h =>
    obtain ⟨h4, h100⟩ := h
    push_cast
    omega
  · next h =>
    simp only [IsLeap, not_and_or, not_or, not_not] at h
    push_cast
    omega

theorem daysBefore_mono {y z : ℤ} (h : y ≤ z) : daysBefore y ≤ daysBefore z := by
  unfold daysBefore
  omega

/-- The year of a day: the full cycles of 400, of 100, of 4 and of one year before it. The last
day of a longer cycle is not a cycle of its own. -/
def yearOf (d : ℤ) : ℤ :=
  let n400 := d / 146097
  let r400 := d % 146097
  let n100 := min 3 (r400 / 36524)
  let r100 := r400 - 36524 * n100
  let n4 := r100 / 1461
  let r4 := r100 % 1461
  let n1 := min 3 (r4 / 365)
  400 * n400 + 100 * n100 + 4 * n4 + n1 + 1

/-- The first day of a year, by its cycles. -/
theorem daysBefore_cycles {a b c e : ℤ} (hb : 0 ≤ b ∧ b ≤ 3) (hc : 0 ≤ c ∧ c ≤ 24)
    (he : 0 ≤ e ∧ e ≤ 3) :
    daysBefore (400 * a + 100 * b + 4 * c + e + 1) =
      146097 * a + 36524 * b + 1461 * c + 365 * e := by
  unfold daysBefore
  omega

/-- A year that ends its cycle of four years is a leap year, unless it ends a century that does
not end 400 years. -/
theorem isLeap_cycles {a b c : ℤ} (hc : 0 ≤ c ∧ c ≤ 24)
    (hlast : c < 24 ∨ b = 3) : IsLeap (400 * a + 100 * b + 4 * c + 3 + 1) := by
  unfold IsLeap
  omega

theorem daysBefore_yearOf (d : ℤ) :
    daysBefore (yearOf d) ≤ d ∧ d < daysBefore (yearOf d + 1) := by
  obtain ⟨a, ha⟩ : ∃ a, a = d / 146097 := ⟨_, rfl⟩
  obtain ⟨r, hr⟩ : ∃ r, r = d % 146097 := ⟨_, rfl⟩
  obtain ⟨b, hb⟩ : ∃ b, b = min 3 (r / 36524) := ⟨_, rfl⟩
  obtain ⟨c, hc⟩ : ∃ c, c = (r - 36524 * b) / 1461 := ⟨_, rfl⟩
  obtain ⟨q, hq⟩ : ∃ q, q = (r - 36524 * b) % 1461 := ⟨_, rfl⟩
  obtain ⟨e, he⟩ : ∃ e, e = min 3 (q / 365) := ⟨_, rfl⟩
  have hyear : yearOf d = 400 * a + 100 * b + 4 * c + e + 1 := by
    rw [he, hq, hc, hb, hr, ha]
    rfl
  have hb' : 0 ≤ b ∧ b ≤ 3 := by omega
  have hc' : 0 ≤ c ∧ c ≤ 24 := by omega
  have he' : 0 ≤ e ∧ e ≤ 3 := by omega
  rw [daysBefore_succ, yearLength_eq, hyear, daysBefore_cycles hb' hc' he']
  constructor
  · omega
  · by_cases hlast : q = 1460
    · -- the last day of a leap year
      have he3 : e = 3 := by omega
      have hleap := isLeap_cycles (a := a) hc' (show c < 24 ∨ b = 3 by omega)
      rw [he3, if_pos hleap]
      push_cast
      omega
    · split <;> push_cast <;> omega

theorem le_yearOf {y d : ℤ} (h : daysBefore y ≤ d) : y ≤ yearOf d := by
  obtain ⟨-, hlt⟩ := daysBefore_yearOf d
  by_contra hy
  have hmono := daysBefore_mono (show yearOf d + 1 ≤ y by omega)
  omega

/-- A day lies in one year only. -/
theorem yearOf_eq {y d : ℤ} (hle : daysBefore y ≤ d) (hlt : d < daysBefore (y + 1)) :
    yearOf d = y := by
  obtain ⟨hle', -⟩ := daysBefore_yearOf d
  refine le_antisymm ?_ (le_yearOf hle)
  by_contra hy
  have hmono := daysBefore_mono (show y + 1 ≤ yearOf d by omega)
  omega

/-! ## Dates -/

/-- A date, with its month counted from January and its day from the first of the month. -/
@[ext] structure Date where
  year : ℤ
  month : ℕ
  day : ℕ
  valid : day < (monthLengths year).getD month 0
  deriving DecidableEq, Repr

namespace Date

/-- The number of a date. -/
def toDay (x : Date) : ℤ := daysBefore x.year + ((monthLengths x.year).take x.month).sum + x.day

theorem dayOfYear_lt (d : ℤ) : (d - daysBefore (yearOf d)).toNat < yearLength (yearOf d) := by
  obtain ⟨hle, hlt⟩ := daysBefore_yearOf d
  rw [daysBefore_succ] at hlt
  omega

/-- The date with a number. -/
def ofDay (d : ℤ) : Date :=
  let y := yearOf d
  let p := locate (monthLengths y) (d - daysBefore y).toNat
  ⟨y, p.1, p.2, (locate_spec (dayOfYear_lt d)).1⟩

theorem toDay_ofDay (d : ℤ) : (ofDay d).toDay = d := by
  obtain ⟨hle, -⟩ := daysBefore_yearOf d
  have hsum := (locate_spec (dayOfYear_lt d)).2
  simp only [toDay, ofDay]
  omega

theorem yearOf_toDay (x : Date) : yearOf x.toDay = x.year := by
  have hlt := take_sum_add_lt x.valid
  have hlen : yearLength x.year = (monthLengths x.year).sum := rfl
  apply yearOf_eq
  · simp only [toDay]
    omega
  · rw [daysBefore_succ]
    simp only [toDay]
    omega

theorem ofDay_toDay (x : Date) : ofDay x.toDay = x := by
  have hyear := yearOf_toDay x
  have hoff : (x.toDay - daysBefore x.year).toNat =
      ((monthLengths x.year).take x.month).sum + x.day := by
    simp only [toDay]
    omega
  have hloc := locate_take_sum_add x.valid
  ext <;> simp only [ofDay, hyear, hoff, hloc]

/-- The dates of the calendar are the days, one to one. -/
def dayEquiv : Date ≃ ℤ := ⟨toDay, ofDay, ofDay_toDay, toDay_ofDay⟩

theorem month_lt (x : Date) : x.month < 12 := by
  by_contra h
  have hval := x.valid
  have hlen : (monthLengths x.year).length ≤ x.month := not_lt.mp h
  rw [List.getD_eq_getElem?_getD, List.getElem?_eq_none hlen] at hval
  exact absurd hval (Nat.not_lt_zero _)

end Date

/-! ## Moments -/

/-- A date and a time of day. -/
@[ext] structure Moment where
  date : Date
  hour : Fin 24
  minute : Fin 60
  second : Fin 60
  deriving DecidableEq, Repr

namespace Moment

/-- The number of a second, where the first second of the day 0 has the number 0. -/
def toSecond (x : Moment) : ℤ :=
  86400 * x.date.toDay + 3600 * x.hour + 60 * x.minute + x.second

/-- The moment with a number. -/
def ofSecond (t : ℤ) : Moment :=
  ⟨.ofDay (t / 86400), Fin.ofNat 24 (t % 86400 / 3600).toNat,
    Fin.ofNat 60 (t % 3600 / 60).toNat, Fin.ofNat 60 (t % 60).toNat⟩

theorem hour_ofSecond (t : ℤ) : ((ofSecond t).hour : ℤ) = t % 86400 / 3600 := by
  simp only [ofSecond, Fin.val_ofNat]
  omega

theorem minute_ofSecond (t : ℤ) : ((ofSecond t).minute : ℤ) = t % 3600 / 60 := by
  simp only [ofSecond, Fin.val_ofNat]
  omega

theorem second_ofSecond (t : ℤ) : ((ofSecond t).second : ℤ) = t % 60 := by
  simp only [ofSecond, Fin.val_ofNat]
  omega

theorem toSecond_ofSecond (t : ℤ) : (ofSecond t).toSecond = t := by
  rw [toSecond, hour_ofSecond, minute_ofSecond, second_ofSecond]
  simp only [ofSecond, Date.toDay_ofDay]
  omega

theorem ofSecond_toSecond (x : Moment) : ofSecond x.toSecond = x := by
  have hh := x.hour.isLt
  have hm := x.minute.isLt
  have hs := x.second.isLt
  have hday : x.toSecond / 86400 = x.date.toDay := by
    simp only [toSecond]
    omega
  have hhour := hour_ofSecond x.toSecond
  have hminute := minute_ofSecond x.toSecond
  have hsecond := second_ofSecond x.toSecond
  simp only [toSecond] at hhour hminute hsecond
  refine Moment.ext ?_ (Fin.ext ?_) (Fin.ext ?_) (Fin.ext ?_)
  · simp only [ofSecond, hday, Date.ofDay_toDay]
  · simp only [toSecond]
    omega
  · simp only [toSecond]
    omega
  · simp only [toSecond]
    omega

/-- Seconds show the same date and hour exactly if they lie in the same hour. -/
theorem sameHour_iff {s t : ℤ} :
    (ofSecond s).date = (ofSecond t).date ∧ (ofSecond s).hour = (ofSecond t).hour ↔
      s / 3600 = t / 3600 := by
  have hs := hour_ofSecond s
  have ht := hour_ofSecond t
  constructor
  · rintro ⟨hdate, hhour⟩
    have hday : s / 86400 = t / 86400 := Date.dayEquiv.symm.injective hdate
    rw [hhour] at hs
    omega
  · intro h
    refine ⟨congrArg Date.ofDay ?_, Fin.ext ?_⟩ <;> omega

/-- The moments are the seconds, one to one. -/
def secondEquiv : Moment ≃ ℤ := ⟨toSecond, ofSecond, ofSecond_toSecond, toSecond_ofSecond⟩

end Moment

end Calendar
