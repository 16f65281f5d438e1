import SimpleChat.Common.LocalTime
import SimpleChat.Text.Decimal

/-!
# Messages as text

A message is shown, and logged, with the date and the time it was stamped. The months of the date
are those of `struct tm`, which are counted from zero: read as a date of the calendar, the text
denotes another time or none.

## Main definitions

* `Message.getDate`, `Message.toString`: the text of a message
* `renderDate january x`: the date of a moment, with the number `january` for January
* `readDate january`: the time that the text of a date denotes

## Main results

* `readDate_eq_some`: what is read is the time of the moment whose date it is
* `readDate_getDate`: with January as month zero, the date of a message is read as its time
* `readDate_getDate_ne`: with January as month one, never
-/

namespace SimpleChat

open Calendar Text

namespace Message

/-- `GetDate`, with the `localtime` of the system. -/
def getDate (localtime : Time → Tm) (m : Message) : Bytes :=
  let date := localtime m.msgTimestamp
  bytes "[" ++ decimalInt (1900 + date.tmYear) ++
    bytes "-" ++ decimalInt date.tmMon ++
    bytes "-" ++ decimalInt date.tmMday ++
    bytes " " ++ decimalInt date.tmHour ++
    bytes ":" ++ decimalInt date.tmMin ++
    bytes ":" ++ decimalInt date.tmSec ++
    bytes "]"

def toString (localtime : Time → Tm) (m : Message) : Bytes :=
  m.getDate localtime ++ bytes " " ++ m.user.username ++ bytes ": " ++ m.text

end Message

/-! ## Dates as text -/

/-- `[year-month-day hour:minute:second]`, where January has the number `january`. -/
def renderDate (january : ℕ) (x : Moment) : Bytes :=
  91 :: (decimal x.date.year.toNat ++ 45 :: (decimal (x.date.month + january) ++
    45 :: (decimal (x.date.day + 1) ++ 32 :: (decimal x.hour ++ 58 :: (decimal x.minute ++
      58 :: (decimal x.second ++ [93]))))))

theorem decimalInt_natCast (n : ℕ) : decimalInt n = decimal n := by
  rw [decimalInt, if_neg (by omega), Int.natAbs_natCast]

/-- The fields of `struct tm` are written as they are: January is month zero. -/
theorem getDate_eq {localtime : Time → Tm} {m : Message} {x : Moment}
    (h : localtime m.msgTimestamp = .ofMoment x) (hyear : 0 ≤ x.date.year) :
    m.getDate localtime = renderDate 0 x := by
  have hy : 1900 + (x.date.year - 1900) = (x.date.year.toNat : ℤ) := by omega
  have hd : (x.date.day : ℤ) + 1 = ((x.date.day + 1 : ℕ) : ℤ) := rfl
  rw [Message.getDate, h]
  simp only [Tm.ofMoment, hy, hd, decimalInt_natCast]
  simp [renderDate, bytes]

/-- The time of a date and a time of day given as numbers, if there is one. -/
def timeOf (january year month mday hour minute second : ℕ) : Option Time :=
  if hdate : january ≤ month ∧ 1 ≤ mday ∧
      mday - 1 < (monthLengths year).getD (month - january) 0 then
    if htime : hour < 24 ∧ minute < 60 ∧ second < 60 then
      let x : Moment := ⟨⟨year, month - january, mday - 1, hdate.2.2⟩,
        ⟨hour, htime.1⟩, ⟨minute, htime.2.1⟩, ⟨second, htime.2.2⟩⟩
      some (x.toSecond - epoch.toSecond)
    else none
  else none

/-- The time in UTC that the text of a date denotes. -/
def readDate (january : ℕ) : Bytes → Option Time
  | 91 :: bs => do
    let (year, bs) ← readField 45 bs
    let (month, bs) ← readField 45 bs
    let (mday, bs) ← readField 32 bs
    let (hour, bs) ← readField 58 bs
    let (minute, bs) ← readField 58 bs
    let (second, bs) ← readField 93 bs
    if bs = [] then timeOf january year month mday hour minute second else none
  | _ => none

theorem timeOf_eq_some {january year month mday hour minute second : ℕ} {t : Time} :
    timeOf january year month mday hour minute second = some t ↔
      ∃ x : Moment, t = x.toSecond - epoch.toSecond ∧ x.date.year = year ∧
        x.date.month + january = month ∧ x.date.day + 1 = mday ∧ x.hour = hour ∧
        x.minute = minute ∧ x.second = second := by
  unfold timeOf
  constructor
  · intro h
    split at h
    · next hdate =>
      split at h
      · next htime =>
        refine ⟨_, (Option.some.inj h).symm, rfl, ?_, ?_, rfl, rfl, rfl⟩
        · exact Nat.sub_add_cancel hdate.1
        · exact Nat.sub_add_cancel hdate.2.1
      · cases h
    · cases h
  · rintro ⟨⟨⟨y, mo, d, hvalid⟩, hh, mi, se⟩, rfl, rfl, rfl, rfl, rfl, rfl, rfl⟩
    simpa [List.getD_eq_getElem?_getD] using hvalid

/-- What is read is the time of the moment whose date it is. -/
theorem readDate_eq_some {january : ℕ} {bs : Bytes} {t : Time} :
    readDate january bs = some t ↔
      ∃ x : Moment, 0 ≤ x.date.year ∧ t = x.toSecond - epoch.toSecond ∧
        bs = renderDate january x := by
  have hminus : ¬ IsDigit 45 := by decide
  have hspace : ¬ IsDigit 32 := by decide
  have hcolon : ¬ IsDigit 58 := by decide
  have hclose : ¬ IsDigit 93 := by decide
  constructor
  · intro h
    unfold readDate at h
    split at h
    · simp only [Option.bind_eq_bind, Option.bind_eq_some_iff, Prod.exists,
        readField_eq_some hminus, readField_eq_some hspace, readField_eq_some hcolon,
        readField_eq_some hclose] at h
      obtain ⟨year, _, rfl, month, _, rfl, mday, _, rfl, hour, _, rfl, minute, _, rfl, second, _,
        rfl, h⟩ := h
      split at h
      · next hrest =>
        subst hrest
        obtain ⟨x, rfl, hyear, rfl, rfl, rfl, rfl, rfl⟩ := timeOf_eq_some.mp h
        refine ⟨x, by omega, rfl, ?_⟩
        rw [renderDate, hyear, Int.toNat_natCast]
      · cases h
    · cases h
  · rintro ⟨x, hyear, rfl, rfl⟩
    have htime : timeOf january x.date.year.toNat (x.date.month + january) (x.date.day + 1) x.hour
        x.minute x.second = some (x.toSecond - epoch.toSecond) :=
      timeOf_eq_some.mpr
        ⟨x, rfl, (Int.toNat_of_nonneg hyear).symm, rfl, rfl, rfl, rfl, rfl⟩
    simp only [readDate, renderDate, Option.bind_eq_bind, (readField_eq_some hminus).mpr rfl,
      (readField_eq_some hspace).mpr rfl, (readField_eq_some hcolon).mpr rfl,
      (readField_eq_some hclose).mpr rfl, Option.bind_some, if_true, htime]

/-- The text of a date shows its month. -/
theorem month_of_renderDate {j k : ℕ} {x y : Moment} (h : renderDate j x = renderDate k y) :
    x.date.month + j = y.date.month + k := by
  have hminus : ∀ n : ℕ, 45 ∉ decimal n := not_mem_decimal (by decide)
  obtain ⟨-, hrest⟩ := append_cons_inj (hminus _) (hminus _) (List.cons.inj h).2
  obtain ⟨hmonth, -⟩ := append_cons_inj (hminus _) (hminus _) hrest
  exact decimal_injective hmonth

/-! ## Reading the date of a message -/

/-- The date of a message that is not older than the epoch. -/
theorem getDate_localtime {m : Message} (h : 0 ≤ m.msgTimestamp) :
    m.getDate (localtime 0) = renderDate 0 (momentOf m.msgTimestamp) := by
  have hyear := year_momentOf h
  refine getDate_eq ?_ (by omega)
  rw [localtime, add_zero]

/-- With January as month zero, the date of a message is read as the time it was stamped. -/
theorem readDate_getDate {m : Message} (h : 0 ≤ m.msgTimestamp) :
    readDate 0 (m.getDate (localtime 0)) = some m.msgTimestamp := by
  have hyear := year_momentOf h
  rw [getDate_localtime h]
  apply readDate_eq_some.mpr
  refine ⟨momentOf m.msgTimestamp, by omega, ?_, rfl⟩
  rw [momentOf_eq_iff.mp rfl, add_sub_cancel_left]

/-- **With January as month one, the date of a message is never read as the time it was
stamped.** -/
theorem readDate_getDate_ne {m : Message} (h : 0 ≤ m.msgTimestamp) :
    readDate 1 (m.getDate (localtime 0)) ≠ some m.msgTimestamp := by
  rw [getDate_localtime h]
  intro hread
  obtain ⟨x, -, htime, hdate⟩ := readDate_eq_some.mp hread
  -- the moment read has the month before that of the message, but the same time
  have hmonth := month_of_renderDate hdate
  have hx : momentOf m.msgTimestamp = x := by
    rw [momentOf_eq_iff, htime, add_sub_cancel]
  rw [hx] at hmonth
  omega

/-- A message that was stamped at the epoch. -/
def epochMessage : Message := ⟨.ofUsername (bytes "bob"), bytes "hi", 0⟩

/-- The first of January 1970 is shown as the first of the month zero, which no calendar has. -/
theorem epochMessage_date :
    epochMessage.getDate (localtime 0) = bytes "[1970-0-1 0:0:0]" ∧
      readDate 1 (epochMessage.getDate (localtime 0)) = none ∧
      ¬ readDate 1 (epochMessage.getDate (localtime 0)) = some epochMessage.msgTimestamp := by
  have hdate : epochMessage.getDate (localtime 0) = bytes "[1970-0-1 0:0:0]" := by decide
  have hnone : readDate 1 (bytes "[1970-0-1 0:0:0]") = none := by decide
  rw [hdate, hnone]
  exact ⟨rfl, rfl, by simp⟩

/-- A message that was stamped at noon of the first of May 2024. -/
def mayMessage : Message := ⟨.ofUsername (bytes "bob"), bytes "hi", 1714564800⟩

/-- The first of May is shown, and read, as the first of April. -/
theorem readDate_getDate_mayMessage :
    mayMessage.getDate (localtime 0) = bytes "[2024-4-1 12:0:0]" ∧
      readDate 1 (bytes "[2024-4-1 12:0:0]") = some (mayMessage.msgTimestamp - 30 * 86400) ∧
      readDate 1 (mayMessage.getDate (localtime 0)) ≠ some mayMessage.msgTimestamp :=
  ⟨by decide, by decide, readDate_getDate_ne (by decide)⟩

end SimpleChat
