import SimpleChat.Logger.Transcript
import SimpleChat.Server.Settling

/-!
# The log files of the server

The logger writes the messages of a run to the file whose name is current, and a thread renames it by
the clock, at any time. A file gains lines in one stretch of the run, that of its hour, so the files
read in the order of their hours are the log.

`localtime` has one buffer for all threads. The thread of the logger calls it before it takes the lock
and reads the buffer after that, and whoever makes a text of a message in between has the buffer hold
the time of the message. Within `GetDate`, which calls `localtime` and reads the buffer at once, no
other call is assumed to come in between.

## Main definitions

* `LoggedSystem`, `LoggedSystem.step`: the server with its logger, its files and the buffer
* `LoggedSystem.KeepsHour`: the condition on a step, that the buffer holds the hour that was read
* `LoggedSystem.Filed`: what each hourly file has gained

## Main results

* `LoggedSystem.system_run`: the server does not see the files
* `LoggedSystem.filed_step`: what a step keeps
* `LoggedSystem.log_is_conversation`: the files of the hours of a run hold the conversation
-/

namespace SimpleChat

open Files Transition

/-- The message that a step has the logger append. -/
def System.appendsLog {Hdl : Type} [LinearOrder Hdl] (s : System Hdl) : Action Hdl → Option Message
  | .runThread i => (s.bus.take i).bind fun r => r.1.writes .log
  | _ => none

/-- The message whose date a step has a callback make: the line of the logger and the row of
`DbManager` have one. -/
def System.rendersDate {Hdl : Type} [LinearOrder Hdl] (s : System Hdl) : Action Hdl → Option Message
  | .runThread i => (s.bus.take i).bind fun r => (r.1.writes .log).or (r.1.writes .table)
  | _ => none

theorem System.logged_step {Hdl : Type} [LinearOrder Hdl] {s s' : System Hdl} {a : Action Hdl}
    (h : s.step a = some s') : s'.logged = s.logged ++ (s.appendsLog a).toList := by
  cases a with
  | runThread i =>
    cases step_cases h with
    | runThread _ w bus hi =>
      rw [appendsLog, hi]
      exact written_perform { s with bus := bus } w .log
  | _ => simpa [appendsLog] using (frame_of_step h nofun).1

/-- The server with its logger and the files, the time that the thread of the logger has read last,
and the time whose date is in the buffer of `localtime`. -/
structure LoggedSystem (Hdl : Type) [LinearOrder Hdl] where
  system : System Hdl
  logger : Logger
  files : FileStore
  time : Time
  buffer : Time

/-- A step of the server, with the openings that succeed if a message is appended in it; or
`MessageHandler` makes the text of a message for one more connection; or the thread of the logger reads
the time and calls `localtime`, or takes the lock and sets the name of the file. -/
inductive LoggedAction (Hdl : Type) where
  | act (a : Action Hdl) (appendGranted writeGranted : Bool)
  | toString (m : Message)
  | readTime
  | setCurrentLogName

/-- The step of the server, if it is one. -/
def LoggedAction.action {Hdl : Type} : LoggedAction Hdl → Option (Action Hdl)
  | act a _ _ => some a
  | toString _ => none
  | readTime => none
  | setCurrentLogName => none

namespace LoggedSystem

variable {Hdl : Type} [LinearOrder Hdl]

/-- The server starts, and the logger has a name for its file. -/
def start (localtime : Time → Tm) (l : Logger) (files : FileStore) (now : Time) : LoggedSystem Hdl :=
  ⟨.init now, l.setCurrentLogName localtime now, files, now, now⟩

def step (localtime : Time → Tm) (s : LoggedSystem Hdl) :
    LoggedAction Hdl → Option (LoggedSystem Hdl)
  | .act a appendGranted writeGranted => (s.system.step a).map fun system =>
      { s with
        system := system
        files := (s.system.appendsLog a).elim s.files fun m =>
          s.logger.newMessage localtime m appendGranted writeGranted s.files
        buffer := (s.system.rendersDate a).elim s.buffer Message.msgTimestamp }
  | .toString m => some { s with buffer := m.msgTimestamp }
  | .readTime => some { s with time := s.system.clock, buffer := s.system.clock }
  | .setCurrentLogName =>
      some { s with logger := s.logger.setCurrentLogName localtime s.buffer }

/-- The name of the file is set only while the buffer holds a time of the hour that was read. -/
def KeepsHour (s : LoggedSystem Hdl) : LoggedAction Hdl → Prop
  | .setCurrentLogName => s.buffer / 3600 = s.time / 3600
  | _ => True

instance (s : LoggedSystem Hdl) : (a : LoggedAction Hdl) → Decidable (s.KeepsHour a)
  | .setCurrentLogName => inferInstanceAs (Decidable (s.buffer / 3600 = s.time / 3600))
  | .act _ _ _ => isTrue trivial
  | .toString _ => isTrue trivial
  | .readTime => isTrue trivial

/-- What the files of the hours have gained: `added h` are the messages in the file of the hour `h`.
The current name was set in the hour `now / 3600 + d`, and no file of a later hour was written. -/
structure Filed (k : ℤ) (l : Logger) (files : FileStore) (now : ℤ) (added : ℤ → List Message)
    (s : LoggedSystem Hdl) : Prop where
  logDir : s.logger.logDir = l.logDir
  content : ∀ t : ℤ, content s.files (l.pathOf (logName (wholeHours k) t)) =
    content files (l.pathOf (logName (wholeHours k) t)) ++
      transcript (wholeHours k) (added (t / 3600))
  time_le : s.time ≤ s.system.clock
  current : ∃ (last : ℤ) (d : ℕ), s.logger.currentLogFile = logName (wholeHours k) last ∧
    last ≤ s.time ∧ last / 3600 = now / 3600 + d ∧
    (∀ i : ℕ, d < i → added (now / 3600 + i) = []) ∧
    (List.range (d + 1)).flatMap (fun i : ℕ => added (now / 3600 + i)) = s.system.logged

variable {k : ℤ} {l : Logger} {files : FileStore} {now : ℤ} {added : ℤ → List Message}
  {s s' : LoggedSystem Hdl}

/-- The server does not see the logger and the files. -/
theorem system_run {localtime : Time → Tm} {as : List (LoggedAction Hdl)}
    (hrun : run (step localtime) (start localtime l files now) as = some s) :
    run System.step (.init now) (as.filterMap LoggedAction.action) = some s.system := by
  refine run_history_induction (P := fun p s =>
    run System.step (.init now) (p.filterMap LoggedAction.action) = some s.system) rfl ?_ hrun
  intro p t a u _ ih hstep
  rw [List.filterMap_append]
  cases a with
  | act a appendGranted writeGranted =>
    obtain ⟨system, hsystem, rfl⟩ := Option.map_eq_some_iff.mp hstep
    exact run_concat_eq_some.mpr ⟨t.system, ih, hsystem⟩
  | _ =>
    obtain rfl := Option.some.inj hstep
    rw [← ih]
    exact congrArg _ (List.append_nil _)

/-- Hours in which nothing was written add nothing. -/
theorem flatMap_range_of_nil {f : ℕ → List Message} {d n : ℕ} (hf : ∀ i, d < i → f i = [])
    (hn : d < n) : (List.range n).flatMap f = (List.range (d + 1)).flatMap f := by
  induction n, hn using Nat.le_induction with
  | base => rfl
  | succ n hn ih =>
    rw [List.range_succ, List.flatMap_append, ih, List.flatMap_singleton, hf n hn, List.append_nil]

theorem filed_start : (start (wholeHours k) l files now : LoggedSystem Hdl).Filed k l files now
    fun _ => [] where
  logDir := rfl
  content t := by simp [start, transcript]
  time_le := le_rfl
  current := ⟨now, 0, rfl, le_rfl, by simp, fun _ _ => rfl, rfl⟩

/-- A line goes to the file of the hour in which the current name was set. -/
theorem filed_newMessage (hs : s.Filed k l files now added) (m : Message) (writeGranted : Bool)
    {system : System Hdl} (hclock : s.system.clock ≤ system.clock)
    (hlogged : system.logged = s.system.logged ++ [m]) (buffer : Time) :
    ∃ added', Filed k l files now added' { s with
      system := system
      files := s.logger.newMessage (wholeHours k) m true writeGranted s.files
      buffer := buffer } := by
  obtain ⟨last, d, hname, hle, hhour, hlater, hall⟩ := hs.current
  refine ⟨Function.update added (last / 3600) (added (last / 3600) ++ [m]), hs.logDir, fun t => ?_,
    hs.time_le.trans hclock, last, d, hname, hle, hhour, fun i hi => ?_, ?_⟩
  · have hpath : s.logger.pathOf s.logger.currentLogFile =
        l.pathOf (logName (wholeHours k) last) := by
      rw [hname, Logger.pathOf, Logger.pathOf, hs.logDir]
    simp only [Logger.newMessage, fileAppendOrWrite_eq, if_true, hpath]
    by_cases ht : t / 3600 = last / 3600
    · rw [logName_eq_iff.mpr ht, content_update_self, hs.content, ht, Function.update_self,
        transcript, transcript, List.flatMap_append, List.flatMap_singleton, List.append_assoc]
    · have hne : l.pathOf (logName (wholeHours k) t) ≠ l.pathOf (logName (wholeHours k) last) :=
        fun h => ht (logName_eq_iff.mp (l.pathOf_injective h))
      rw [content, Function.update_of_ne hne, Function.update_of_ne ht]
      exact hs.content t
  · rw [Function.update_of_ne (by omega)]
    exact hlater i hi
  · have hearlier : ∀ i ∈ List.range d, Function.update added (last / 3600)
        (added (last / 3600) ++ [m]) (now / 3600 + i) = added (now / 3600 + i) := by
      intro i hi
      have hlt := List.mem_range.mp hi
      exact Function.update_of_ne (by omega) _ _
    rw [List.range_succ, List.flatMap_append, List.flatMap_singleton] at hall ⊢
    rw [List.flatMap_congr hearlier, ← hhour, Function.update_self, hlogged, ← hall,
      List.append_assoc, hhour]

/-- A step keeps account of the files, if the file can be opened for appending and its name is set
while the buffer holds the hour that was read. -/
theorem filed_step (hs : s.Filed k l files now added) {a : LoggedAction Hdl} (hkeeps : s.KeepsHour a)
    (hgranted : ∀ act appendGranted writeGranted, a = .act act appendGranted writeGranted →
      appendGranted = true)
    (hstep : s.step (wholeHours k) a = some s') : ∃ added', s'.Filed k l files now added' := by
  cases a with
  | act a appendGranted writeGranted =>
    obtain rfl := hgranted a _ _ rfl
    obtain ⟨system, hsystem, rfl⟩ := Option.map_eq_some_iff.mp hstep
    have hclock := System.clock_le_of_step hsystem
    have hlogged := System.logged_step hsystem
    cases hm : s.system.appendsLog a with
    | some m =>
      rw [hm] at hlogged
      exact filed_newMessage hs m writeGranted hclock hlogged _
    | none =>
      obtain ⟨last, d, hname, hle, hhour, hlater, hall⟩ := hs.current
      rw [hm, Option.toList_none, List.append_nil] at hlogged
      exact ⟨added, hs.logDir, hs.content, hs.time_le.trans hclock, last, d, hname, hle, hhour,
        hlater, hall.trans hlogged.symm⟩
  | toString m =>
    obtain rfl := Option.some.inj hstep
    exact ⟨added, hs.logDir, hs.content, hs.time_le, hs.current⟩
  | readTime =>
    obtain rfl := Option.some.inj hstep
    obtain ⟨last, d, hname, hle, hrest⟩ := hs.current
    exact ⟨added, hs.logDir, hs.content, le_rfl, last, d, hname, hle.trans hs.time_le, hrest⟩
  | setCurrentLogName =>
    obtain rfl := Option.some.inj hstep
    obtain ⟨last, d, hname, hle, hhour, hlater, hall⟩ := hs.current
    -- the hours since the last name was set have no lines yet
    obtain ⟨time, htime⟩ : ∃ time : ℤ, s.time = time := ⟨_, rfl⟩
    have hhours : last / 3600 ≤ time / 3600 := Int.ediv_le_ediv (by decide) (hle.trans htime.le)
    have hname' : logName (wholeHours k) s.buffer = logName (wholeHours k) time := by
      rw [← htime]
      exact logName_eq_iff.mpr hkeeps
    refine ⟨added, hs.logDir, hs.content, hs.time_le, time, (time / 3600 - now / 3600).toNat,
      hname', htime.ge, by omega, fun i hi => ?_, ?_⟩
    · exact hlater i (by omega)
    · rw [← hall]
      exact flatMap_range_of_nil hlater (by omega)

/-- The file can be opened for appending whenever a message is appended. -/
def Granted (as : List (LoggedAction Hdl)) : Prop :=
  ∀ a appendGranted writeGranted, .act a appendGranted writeGranted ∈ as → appendGranted = true

theorem filed_run {as : List (LoggedAction Hdl)}
    (hrun : run (step (wholeHours k)) (start (wholeHours k) l files now) as = some s)
    (hgranted : Granted as)
    (hkeeps : Meets (step (wholeHours k)) KeepsHour (start (wholeHours k) l files now) as) :
    ∃ added, s.Filed k l files now added := by
  refine run_history_induction (P := fun p s => p <+: as → ∃ added, s.Filed k l files now added)
    (fun _ => ⟨_, filed_start⟩) ?_ hrun (List.prefix_refl as)
  intro p t a u hp ih hstep hpre
  obtain ⟨added, hfiled⟩ := ih ((List.prefix_append p [a]).trans hpre)
  refine filed_step hfiled (hkeeps p a t hpre hp) (fun x g w hx => hgranted x g w ?_) hstep
  exact hpre.subset (List.mem_append_right _ (List.mem_singleton.mpr hx.symm))

/-- **The log files hold the conversation**: whenever the thread of the logger renames its file, as long
as the buffer of `localtime` then holds the hour that the thread read, and whatever the schedule is,
once every event is handled the hourly files have gained together, in the order of the hours, each
message of the conversation once, and in its order, if the messages were appended in order. -/
theorem log_is_conversation {as : List (LoggedAction Hdl)}
    (hrun : run (step (wholeHours k)) (start (wholeHours k) l files now) as = some s)
    (hgranted : Granted as)
    (hkeeps : Meets (step (wholeHours k)) KeepsHour (start (wholeHours k) l files now) as)
    (hhandled : s.system.AllHandled) :
    ∃ added : ℤ → List Message,
      (∀ t : ℤ, content s.files (l.pathOf (logName (wholeHours k) t)) =
        content files (l.pathOf (logName (wholeHours k) t)) ++
          transcript (wholeHours k) (added (t / 3600))) ∧
      ∀ n : ℕ, s.system.clock / 3600 < now / 3600 + n →
        ((List.range n).flatMap fun i : ℕ => added (now / 3600 + i)).Perm
            (System.messages now (as.filterMap LoggedAction.action)) ∧
          (Meets System.step System.WritesInOrder (.init now)
              (as.filterMap LoggedAction.action) →
            ((List.range n).flatMap fun i : ℕ => added (now / 3600 + i)) =
              System.messages now (as.filterMap LoggedAction.action)) := by
  obtain ⟨added, hfiled⟩ := filed_run hrun hgranted hkeeps
  refine ⟨added, hfiled.content, fun n hn => ?_⟩
  obtain ⟨last, d, -, hle, hhour, hlater, hall⟩ := hfiled.current
  obtain ⟨clock, hclock⟩ : ∃ clock : ℤ, s.system.clock = clock := ⟨_, rfl⟩
  have hle' : last ≤ clock := hle.trans (hfiled.time_le.trans hclock.le)
  rw [hclock] at hn
  have hhours : last / 3600 ≤ clock / 3600 := Int.ediv_le_ediv (by decide) hle'
  have hd : d < n := by
    have hn' : clock / 3600 < now / 3600 + (n : ℤ) := hn
    omega
  have hsystem := system_run hrun
  have hlogged : ((List.range n).flatMap fun i : ℕ => added (now / 3600 + i)) =
      s.system.logged := (flatMap_range_of_nil hlater hd).trans hall
  rw [hlogged]
  constructor
  · have hperm := System.written_perm hsystem .log
    rwa [hhandled.2, List.filterMap_nil, List.append_nil] at hperm
  · intro horder
    have hwritten := System.written_append_pending hsystem horder .log
    rwa [hhandled.2, List.filterMap_nil, List.append_nil] at hwritten

/-- Two messages are sent in different hours, and the file is renamed before the first of them is
appended; the thread of the logger read the time before it was delayed for an hour. -/
def lateRun : List (LoggedAction ℕ) :=
  [.act (.call (.validateHandler 1 (Connections.requestNamed "bob"))) true true,
    .act (.call (.openHandler 1)) true true,
    .act (.call (.messageHandler 1 ⟨bytes "hello", .text⟩)) true true,
    .act (.advance 3600) true true, .readTime, .act (.advance 3600) true true, .setCurrentLogName,
    .act (.call (.messageHandler 1 ⟨bytes "bye", .text⟩)) true true, .act .popEvent true true,
    .act .popEvent true true, .act .popEvent true true] ++
    [0, 0, 1, 2, 3, 4, 5, 6].map fun i => .act (.runThread i) true true

/-- A logger whose directory is empty. -/
def freshLogger : Logger := ⟨bytes "./logs", ∅, []⟩

theorem lateRun_runs : (run (step (wholeHours 0))
    (start (wholeHours 0) freshLogger (fun _ => none) 0) lateRun).isSome = true := by decide

/-- The state after both messages were appended. -/
def late : LoggedSystem ℕ := (run (step (wholeHours 0))
  (start (wholeHours 0) freshLogger (fun _ => none) 0) lateRun).get lateRun_runs

theorem log_is_conversation_late :
    ∃ added : ℤ → List Message,
      (∀ t : ℤ, content late.files (freshLogger.pathOf (logName (wholeHours 0) t)) =
        content (fun _ => none) (freshLogger.pathOf (logName (wholeHours 0) t)) ++
          transcript (wholeHours 0) (added (t / 3600))) ∧
      ∀ n : ℕ, late.system.clock / 3600 < 0 / 3600 + n →
        ((List.range n).flatMap fun i : ℕ => added (0 / 3600 + i)).Perm
            (System.messages 0 (lateRun.filterMap LoggedAction.action)) ∧
          (Meets System.step System.WritesInOrder (.init 0)
              (lateRun.filterMap LoggedAction.action) →
            ((List.range n).flatMap fun i : ℕ => added (0 / 3600 + i)) =
              System.messages 0 (lateRun.filterMap LoggedAction.action)) := by
  refine log_is_conversation (Option.some_get _).symm ?_ (meets_of_take (by decide)) (by decide)
  intro a appendGranted writeGranted hmem
  have hgranted : ∀ x ∈ lateRun, (match x with | .act _ g _ => g | _ => true) = true := by decide
  exact hgranted _ hmem

end LoggedSystem

end SimpleChat
