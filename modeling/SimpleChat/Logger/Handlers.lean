import SimpleChat.Common.FileHandler
import SimpleChat.Common.Message
import Mathlib.Data.Finset.Insert

/-!
# The logger

The logger appends every message to its current file. The name of the file is that of an hour: it is
set from the clock, not from the message.

## Main definitions

* `Logger`: the directory, the names of the files in it and the current one
* `logName`: the name of the file of an hour
* `Logger.setCurrentLogName`, `Logger.newMessage`: its functions
* `wholeHours k`: the local time at `k` hours from UTC

## Main results

* `logName_eq_iff`: at whole hours from UTC, two times share a file exactly if they share an hour
-/

namespace SimpleChat

open Calendar Text

/-- The logger, without its mutex and its event receiver. -/
structure Logger where
  logDir : Bytes
  backlogFiles : Finset Bytes
  currentLogFile : Bytes

/-- The name that `SetCurrentLogName` makes of a time. -/
def logName (localtime : Time → Tm) (t : Time) : Bytes :=
  let date := localtime t
  decimalInt (1900 + date.tmYear) ++
    bytes "-" ++ decimalInt date.tmMon ++
    bytes "-" ++ decimalInt date.tmMday ++
    bytes "_" ++ decimalInt date.tmHour ++ bytes ".log"

namespace Logger

def setCurrentLogName (localtime : Time → Tm) (l : Logger) (now : Time) : Logger :=
  { l with
    currentLogFile := logName localtime now
    backlogFiles := insert (logName localtime now) l.backlogFiles }

/-- The path of a file of the logger. -/
def pathOf (l : Logger) (name : Bytes) : Bytes := l.logDir ++ bytes "/" ++ name

/-- What the logger writes for a message. -/
def line (localtime : Time → Tm) (m : Message) : Bytes := m.toString localtime ++ bytes "\n"

/-- `NewMessage` on the files; `appendGranted` and `writeGranted` tell which openings succeed. -/
def newMessage (localtime : Time → Tm) (l : Logger) (m : Message)
    (appendGranted writeGranted : Bool) (fs : FileStore) : FileStore :=
  fileAppendOrWrite fs
    ⟨l.pathOf l.currentLogFile, line localtime m, appendGranted, writeGranted⟩

theorem pathOf_injective (l : Logger) : Function.Injective l.pathOf := fun _ _ h =>
  List.append_cancel_left h

end Logger

/-! ## The names of the files -/

/-- The local time at a whole number of hours from UTC. -/
def wholeHours (k : ℤ) : Time → Tm := localtime (3600 * k)

theorem logName_eq (localtime : Time → Tm) (t : Time) :
    logName localtime t =
      decimalInt (1900 + (localtime t).tmYear) ++ 45 :: (decimalInt (localtime t).tmMon ++
        45 :: (decimalInt (localtime t).tmMday ++ 95 :: (decimalInt (localtime t).tmHour ++
          46 :: [108, 111, 103]))) := by
  simp [logName, bytes]

/-- The name of a file shows the year, the month, the day and the hour. -/
theorem fields_of_logName {localtime : Time → Tm} {s t : Time}
    (h : logName localtime s = logName localtime t) :
    (localtime s).tmYear = (localtime t).tmYear ∧ (localtime s).tmMon = (localtime t).tmMon ∧
      (localtime s).tmMday = (localtime t).tmMday ∧
      (localtime s).tmHour = (localtime t).tmHour := by
  have hminus : ¬ IsDigit 45 := by decide
  rw [logName_eq, logName_eq] at h
  obtain ⟨hyear, h⟩ := decimalInt_append_inj hminus h
  obtain ⟨hmon, h⟩ := decimalInt_append_inj hminus h
  obtain ⟨hmday, h⟩ := decimalInt_append_inj (by decide) h
  obtain ⟨hhour, -⟩ := decimalInt_append_inj (by decide) h
  exact ⟨add_left_cancel hyear, hmon, hmday, hhour⟩

/-- At whole hours from UTC, the hour of the local clock is the hour of the time. -/
theorem localHour_iff (k s t : ℤ) :
    (epoch.toSecond + (s + 3600 * k)) / 3600 = (epoch.toSecond + (t + 3600 * k)) / 3600 ↔
      s / 3600 = t / 3600 := by
  rw [show epoch.toSecond = 719162 * 86400 by decide]
  omega

/-- At whole hours from UTC, two times share a file exactly if they share an hour. -/
theorem logName_eq_iff {k : ℤ} {s t : Time} :
    logName (wholeHours k) s = logName (wholeHours k) t ↔ s / 3600 = t / 3600 := by
  rw [← localHour_iff k s t, ← Moment.sameHour_iff]
  constructor
  · intro h
    obtain ⟨hyear, hmon, hmday, hhour⟩ := fields_of_logName h
    refine ⟨Date.ext ?_ ?_ ?_, Fin.ext ?_⟩
    · exact sub_left_injective hyear
    · exact Int.natCast_inj.mp hmon
    · exact Int.natCast_inj.mp (add_right_cancel hmday)
    · exact Int.natCast_inj.mp hhour
  · rintro ⟨hdate, hhour⟩
    simp only [logName, wholeHours, localtime, momentOf, Tm.ofMoment, hdate, hhour]

end SimpleChat
