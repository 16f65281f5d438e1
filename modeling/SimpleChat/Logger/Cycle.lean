import SimpleChat.Logger.Handlers
import Mathlib.Tactic.Linarith

/-!
# The hourly files of the logger

A thread renames the current file: at its start, again `3600 - now % 3600 + 1` seconds later, and
then every 3600 seconds. From the second time on it is one second late: a message of the first
second of an hour goes to the file of the hour before.

## Main definitions

* `Logging`, `Logging.step`: the logger and its files, with the clock and the end of the sleep of
  the thread
* `initSleep`: how long the thread sleeps after its start
* `Logging.Handles`, `Logging.ToOwnFile`: a message can be handled in a state, and the file it is
  appended to is that of its hour
* `OffBoundary`: the condition on a start and on the time of a message

## Main results

* `Logging.step_cases`: what a step does
* `since_of_reachable`: when the current name was set, and when the next one is
* `toOwnFile_iff`: a message goes to the file of its hour exactly if its time is off the boundary
* `exists_handles`: every time after the start is reached
* `content_step`, `content_of_hour`: what one step, and a run of such messages, adds to an hourly
  file
-/

namespace SimpleChat

open Files Transition

/-- `HOUR_S - (time(nullptr) % HOUR_S) + 1`; the remainder of the language is that of a division
that rounds to zero. -/
def initSleep (now : ℤ) : ℤ := 3600 - Int.tmod now 3600 + 1

/-- The logger at a time of its clock, its files, and the time at which its thread wakes. -/
structure Logging where
  logger : Logger
  files : FileStore
  clock : Time
  wakes : Time

/-- The thread wakes, or a message is handled at the time it was stamped. -/
inductive LogAction where
  | wake
  | newMessage (m : Message) (appendGranted writeGranted : Bool)
  deriving DecidableEq, Repr

namespace Logging

variable {localtime : Time → Tm}

/-- `InitCycle` up to its sleep. -/
def start (localtime : Time → Tm) (l : Logger) (files : FileStore) (now : Time) : Logging where
  logger := l.setCurrentLogName localtime now
  files := files
  clock := now
  wakes := now + initSleep now

/-- The clock has not passed the time of the message, and the thread still sleeps then. -/
def Handles (s : Logging) (m : Message) : Prop :=
  s.clock ≤ m.msgTimestamp ∧ m.msgTimestamp < s.wakes

instance decidableHandles (s : Logging) (m : Message) : Decidable (s.Handles m) :=
  inferInstanceAs (Decidable (s.clock ≤ m.msgTimestamp ∧ m.msgTimestamp < s.wakes))

/-- A round of `Cyclic`, or a message. A sleep lasts as long as asked, and a name that is due is set
before a message of that time is handled. -/
def step (localtime : Time → Tm) (s : Logging) : LogAction → Option Logging
  | .wake => some
      { s with
        logger := s.logger.setCurrentLogName localtime s.wakes
        clock := s.wakes
        wakes := s.wakes + 3600 }
  | .newMessage m appendGranted writeGranted =>
    if s.Handles m then
      some
        { s with
          files := s.logger.newMessage localtime m appendGranted writeGranted s.files
          clock := m.msgTimestamp }
    else none

/-- What a step does. -/
inductive StepCases (localtime : Time → Tm) (s : Logging) : LogAction → Logging → Prop
  | wake :
      StepCases localtime s .wake
        { s with
          logger := s.logger.setCurrentLogName localtime s.wakes
          clock := s.wakes
          wakes := s.wakes + 3600 }
  | newMessage (m : Message) (appendGranted writeGranted : Bool) (hm : s.Handles m) :
      StepCases localtime s (.newMessage m appendGranted writeGranted)
        { s with
          files := s.logger.newMessage localtime m appendGranted writeGranted s.files
          clock := m.msgTimestamp }

theorem step_cases {s s' : Logging} {a : LogAction} (h : s.step localtime a = some s') :
    StepCases localtime s a s' := by
  cases a with
  | wake =>
    obtain rfl := Option.some.inj h
    exact .wake
  | newMessage m appendGranted writeGranted =>
    rw [step] at h
    split at h
    · next hm =>
      obtain rfl := Option.some.inj h
      exact .newMessage m appendGranted writeGranted hm
    · cases h

/-- The file that the message would be appended to is that of its own hour. -/
def ToOwnFile (localtime : Time → Tm) (s : Logging) (m : Message) : Prop :=
  s.logger.pathOf s.logger.currentLogFile = s.logger.pathOf (logName localtime m.msgTimestamp)

/-! ## The name in a reachable state -/

/-- The current name was set at the time `last`, at the start or in a round of `Cyclic`, and the
next one is due when the thread wakes. -/
structure Since (localtime : Time → Tm) (t0 : ℤ) (s : Logging) (last : ℤ) : Prop where
  name : s.logger.currentLogFile = logName localtime last
  le_clock : last ≤ s.clock
  clock_le : s.clock ≤ s.wakes
  phase : last = t0 ∧ s.wakes = t0 + initSleep t0 ∨
    t0 + initSleep t0 ≤ last ∧ (last - (t0 + initSleep t0)) % 3600 = 0 ∧ s.wakes = last + 3600

/-- The thread wakes after its start, at the first second of an hour plus one. -/
theorem initSleep_spec (t0 : ℤ) :
    0 < initSleep t0 ∧ (t0 + initSleep t0) % 3600 = 1 ∧
      (0 ≤ t0 ∨ t0 % 3600 = 0 → (t0 + initSleep t0) / 3600 = t0 / 3600 + 1) ∧
      (¬ (0 ≤ t0 ∨ t0 % 3600 = 0) → (t0 + initSleep t0) / 3600 = t0 / 3600 + 2) := by
  rw [initSleep, Int.tmod_eq_emod]
  split <;> omega

theorem since_start (l : Logger) (files : FileStore) (t0 : ℤ) :
    (start localtime l files t0).Since localtime t0 t0 where
  name := rfl
  le_clock := le_refl _
  clock_le := le_add_of_nonneg_right (initSleep_spec t0).1.le
  phase := .inl ⟨rfl, rfl⟩

theorem since_step {t0 : ℤ} {s s' : Logging} {a : LogAction} {last : ℤ}
    (hs : s.Since localtime t0 last) (h : s.step localtime a = some s') :
    ∃ last', s'.Since localtime t0 last' := by
  obtain ⟨hname, hle, hclock, hphase⟩ := hs
  cases step_cases h with
  | wake =>
    refine ⟨s.wakes, rfl, le_refl _, ?_, .inr ?_⟩
    · exact le_add_of_nonneg_right (by decide)
    · rcases hphase with ⟨-, hwakes⟩ | ⟨hfirst, hmod, hwakes⟩
      · rw [hwakes]
        exact ⟨le_refl _, by simp, rfl⟩
      · rw [hwakes]
        refine ⟨?_, ?_, rfl⟩ <;> omega
  | newMessage m appendGranted writeGranted hm =>
    exact ⟨last, hname, hle.trans hm.1, hm.2.le, hphase⟩

theorem since_of_reachable {l : Logger} {files : FileStore} {t0 : Time} {s : Logging}
    (h : Reachable (step localtime) (start localtime l files t0) s) :
    ∃ last, s.Since localtime t0 last :=
  h.invariant (P := fun s => ∃ last, s.Since localtime t0 last) ⟨t0, since_start l files t0⟩
    fun _ _ _ ⟨_, hlast⟩ hstep => since_step hlast hstep

/-! ## Messages in the file of their hour -/

/-- The time lies in the hour of the start, or not in the first second of an hour; after a start
before the epoch that is not on the hour, not in the hour after that of the start either. -/
def OffBoundary (t0 t : ℤ) : Prop :=
  t / 3600 = t0 / 3600 ∨
    t % 3600 ≠ 0 ∧ (0 ≤ t0 ∨ t0 % 3600 = 0 ∨ t0 / 3600 + 2 ≤ t / 3600)

/-- A time before the thread wakes is in the hour that the current name is of exactly if it is off
the boundary. -/
theorem sameHour_iff_offBoundary {t0 last wakes t : ℤ}
    (hphase : last = t0 ∧ wakes = t0 + initSleep t0 ∨
      t0 + initSleep t0 ≤ last ∧ (last - (t0 + initSleep t0)) % 3600 = 0 ∧ wakes = last + 3600)
    (hle : last ≤ t) (hlt : t < wakes) : last / 3600 = t / 3600 ↔ OffBoundary t0 t := by
  obtain ⟨hpos, hmod, hnext, hlater⟩ := initSleep_spec t0
  generalize t0 + initSleep t0 = first at *
  unfold OffBoundary
  rcases hphase with ⟨rfl, rfl⟩ | ⟨hfirst, hlast, rfl⟩
  · -- no round of `Cyclic` yet: the name is that of the hour of the start
    by_cases hstart : 0 ≤ last ∨ last % 3600 = 0
    · have hhour := hnext hstart
      omega
    · have hhour := hlater hstart
      omega
  · -- the name was set in the second second of an hour
    by_cases hstart : 0 ≤ t0 ∨ t0 % 3600 = 0
    · have hhour := hnext hstart
      omega
    · have hhour := hlater hstart
      omega

/-- The current name in a state that can handle a message. -/
theorem currentLogFile_eq_iff {k : ℤ} {l : Logger} {files : FileStore} {t0 : Time} {s : Logging}
    (hs : Reachable (step (wholeHours k)) (start (wholeHours k) l files t0) s) {m : Message}
    (hm : s.Handles m) :
    s.logger.currentLogFile = logName (wholeHours k) m.msgTimestamp ↔
      OffBoundary t0 m.msgTimestamp := by
  obtain ⟨last, hlast⟩ := since_of_reachable hs
  rw [hlast.name, logName_eq_iff]
  exact sameHour_iff_offBoundary hlast.phase (hlast.le_clock.trans hm.1) hm.2

/-- **A message goes to the file of its own hour exactly if its time is off the boundary.** -/
theorem toOwnFile_iff {k : ℤ} {l : Logger} {files : FileStore} {t0 : Time} {s : Logging}
    (hs : Reachable (step (wholeHours k)) (start (wholeHours k) l files t0) s) {m : Message}
    (hm : s.Handles m) : s.ToOwnFile (wholeHours k) m ↔ OffBoundary t0 m.msgTimestamp := by
  rw [ToOwnFile, s.logger.pathOf_injective.eq_iff]
  exact currentLogFile_eq_iff hs hm

/-- The logger starts at the epoch, and one hour later its thread has not woken yet. -/
def startedAtEpoch : Logging :=
  start (wholeHours 0) ⟨bytes "logs", ∅, []⟩ (fun _ => none) 0

/-- A message of the first second of the second hour. -/
def hourMessage : Message := ⟨.ofUsername (bytes "bob"), bytes "hi", 3600⟩

theorem reachable_startedAtEpoch :
    Reachable (step (wholeHours 0)) (start (wholeHours 0) ⟨bytes "logs", ∅, []⟩ (fun _ => none) 0)
      startedAtEpoch := Reachable.refl _

/-- A message of one o'clock is appended to the file of midnight. -/
theorem hourMessage_in_previous_file :
    Reachable (step (wholeHours 0))
        (start (wholeHours 0) ⟨bytes "logs", ∅, []⟩ (fun _ => none) 0) startedAtEpoch ∧
      startedAtEpoch.Handles hourMessage ∧
      startedAtEpoch.logger.currentLogFile = bytes "1970-0-1_0.log" ∧
      logName (wholeHours 0) hourMessage.msgTimestamp = bytes "1970-0-1_1.log" ∧
      ¬ startedAtEpoch.ToOwnFile (wholeHours 0) hourMessage := by
  have hname : startedAtEpoch.logger.currentLogFile = bytes "1970-0-1_0.log" := by decide
  have hown : logName (wholeHours 0) hourMessage.msgTimestamp = bytes "1970-0-1_1.log" := by decide
  refine ⟨reachable_startedAtEpoch, by decide, hname, hown, fun h => ?_⟩
  have heq := startedAtEpoch.logger.pathOf_injective h
  rw [hname, hown] at heq
  revert heq
  decide

theorem toOwnFile_hourMessage :
    startedAtEpoch.ToOwnFile (wholeHours 0) hourMessage ↔ OffBoundary 0 3600 :=
  toOwnFile_iff reachable_startedAtEpoch (by decide)

theorem exists_handles_of_lt {m : Message} (n : ℕ) {s : Logging}
    (hclock : s.clock ≤ m.msgTimestamp) (hlt : m.msgTimestamp < s.wakes + 3600 * n) :
    ∃ s', Reachable (step localtime) s s' ∧ s'.Handles m := by
  induction n generalizing s with
  | zero => exact ⟨s, Reachable.refl s, hclock, by simpa using hlt⟩
  | succ n ih =>
    by_cases hm : m.msgTimestamp < s.wakes
    · exact ⟨s, Reachable.refl s, hclock, hm⟩
    · let t : Logging :=
        { s with
          logger := s.logger.setCurrentLogName localtime s.wakes
          clock := s.wakes
          wakes := s.wakes + 3600 }
      have hround : m.msgTimestamp < t.wakes + 3600 * n := by
        push_cast at hlt
        show m.msgTimestamp < s.wakes + 3600 + 3600 * n
        linarith
      obtain ⟨s', ⟨as, has⟩, hs'⟩ := ih (s := t) (not_lt.mp hm) hround
      exact ⟨s', ⟨.wake :: as, has⟩, hs'⟩

/-- Every time after the start is reached, with the name in place that is due by then. -/
theorem exists_handles {s : Logging} {m : Message} (hclock : s.clock ≤ m.msgTimestamp) :
    ∃ s', Reachable (step localtime) s s' ∧ s'.Handles m := by
  refine exists_handles_of_lt (m.msgTimestamp - s.wakes + 1).toNat hclock ?_
  have hle := Int.self_le_toNat (m.msgTimestamp - s.wakes + 1)
  linarith

/-! ## The content of an hourly file -/

/-- The lines of the messages of a run that are of the hour of `t`, in order. -/
def linesOf (localtime : Time → Tm) (t : Time) : List LogAction → Bytes :=
  List.flatMap fun
    | .wake => []
    | .newMessage m _ _ =>
      if m.msgTimestamp / 3600 = t / 3600 then Logger.line localtime m else []

@[simp] theorem linesOf_append (t : Time) (as bs : List LogAction) :
    linesOf localtime t (as ++ bs) = linesOf localtime t as ++ linesOf localtime t bs :=
  List.flatMap_append

@[simp] theorem linesOf_wake (t : Time) : linesOf localtime t [.wake] = [] := rfl

@[simp] theorem linesOf_newMessage (t : Time) (m : Message) (appendGranted writeGranted : Bool) :
    linesOf localtime t [.newMessage m appendGranted writeGranted] =
      if m.msgTimestamp / 3600 = t / 3600 then Logger.line localtime m else [] :=
  List.append_nil _

/-- The messages of a run are off the boundary, and their files can be opened. -/
def Undisturbed (t0 : ℤ) (as : List LogAction) : Prop :=
  ∀ m appendGranted writeGranted, .newMessage m appendGranted writeGranted ∈ as →
    appendGranted = true ∧ OffBoundary t0 m.msgTimestamp

theorem logDir_of_reachable {l : Logger} {files : FileStore} {t0 : Time} {s : Logging}
    (h : Reachable (step localtime) (start localtime l files t0) s) :
    s.logger.logDir = l.logDir := by
  refine h.invariant (P := fun s => s.logger.logDir = l.logDir) rfl ?_
  intro s a u hs hstep
  cases step_cases hstep with
  | wake => exact hs
  | newMessage m appendGranted writeGranted hm => exact hs

/-- A message off the boundary is added to the file of its hour, and to no other hourly file. -/
theorem content_step {k : ℤ} {l : Logger} {files : FileStore} {t0 : Time} {s u : Logging}
    {a : LogAction} (hs : Reachable (step (wholeHours k)) (start (wholeHours k) l files t0) s)
    (hstep : s.step (wholeHours k) a = some u) (ha : Undisturbed t0 [a]) (t : Time) :
    content u.files (l.pathOf (logName (wholeHours k) t)) =
      content s.files (l.pathOf (logName (wholeHours k) t)) ++ linesOf (wholeHours k) t [a] := by
  cases step_cases hstep with
  | wake => rw [linesOf_wake, List.append_nil]
  | newMessage m appendGranted writeGranted hm =>
    obtain ⟨rfl, hoff⟩ := ha m _ _ (List.mem_singleton_self _)
    have hpath : s.logger.pathOf s.logger.currentLogFile =
        l.pathOf (logName (wholeHours k) m.msgTimestamp) := by
      rw [(currentLogFile_eq_iff hs hm).mpr hoff, Logger.pathOf, Logger.pathOf,
        logDir_of_reachable hs]
    simp only [Logger.newMessage, fileAppendOrWrite_eq, if_true, hpath, linesOf_newMessage]
    by_cases hhour : m.msgTimestamp / 3600 = t / 3600
    · rw [logName_eq_iff.mpr hhour, content_update_self, if_pos hhour]
    · have hne : l.pathOf (logName (wholeHours k) t) ≠
          l.pathOf (logName (wholeHours k) m.msgTimestamp) := fun h =>
        hhour (logName_eq_iff.mp (l.pathOf_injective h)).symm
      rw [content, Function.update_of_ne hne, ← content, if_neg hhour, List.append_nil]

/-- Each hourly file gains the messages of its hour, in order, and nothing else. -/
theorem content_of_hour {k : ℤ} {l : Logger} {files : FileStore} {t0 : Time}
    {as : List LogAction} {s : Logging}
    (hrun : run (step (wholeHours k)) (start (wholeHours k) l files t0) as = some s)
    (has : Undisturbed t0 as) (t : Time) :
    content s.files (l.pathOf (logName (wholeHours k) t)) =
      content files (l.pathOf (logName (wholeHours k) t)) ++ linesOf (wholeHours k) t as := by
  refine run_history_induction (P := fun as s => Undisturbed t0 as →
    content s.files (l.pathOf (logName (wholeHours k) t)) =
      content files (l.pathOf (logName (wholeHours k) t)) ++ linesOf (wholeHours k) t as)
    ?_ ?_ hrun has
  · intro _
    simp [linesOf, start]
  · intro p s a u hp ih hstep hpa
    have hcontent := ih fun m g w hm => hpa m g w (List.mem_append_left _ hm)
    have hlast : Undisturbed t0 [a] := fun m g w hm => hpa m g w (List.mem_append_right _ hm)
    rw [content_step ⟨p, hp⟩ hstep hlast t, hcontent, linesOf_append, List.append_assoc]

end Logging

end SimpleChat
