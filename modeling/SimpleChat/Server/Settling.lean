import SimpleChat.Server.History
import SimpleChat.Server.Roster
import Mathlib.Algebra.Order.BigOperators.Group.List
import Mathlib.Algebra.Order.Ring.Nat

/-!
# The bus comes to rest

The callbacks send no events. So each event costs the bus a fixed number of steps, one for taking it
from the queue and one for each section of its callbacks, in whatever order the threads run; and when
the bus cannot take a step, every event is handled, unless the server was terminated. From every state
there is a schedule in which no section overtakes another.

## Main definitions

* `Action.isBusStep`: the steps of the bus and of its threads
* `System.sentEvents`, `eventCost`: the events that a step sends, and the steps that an event costs
* `System.work`: the steps that the bus has still to take
* `System.AllHandled`: every event that was sent is handled

## Main results

* `System.work_run`: the steps of the bus in a run
* `System.every_schedule_settles`: every schedule of the bus comes to rest, with everything handled
* `System.bus_keeps_up`: the steps of the bus are at most four for each other step
* `System.exists_schedule_in_order`: from every state, the bus can come to rest in order
* `System.roster_settles`: then the roster agrees with the connections
-/

namespace SimpleChat

open Transition

/-- The step is one of `EventBus::Cyclic` or of the thread of a callback. -/
def Action.isBusStep {Hdl : Type} : Action Hdl → Bool
  | .popEvent => true
  | .runThread _ => true
  | _ => false

/-- The steps that an event costs: it is taken from the queue, and the sections of its callbacks
run. -/
def eventCost (e : Event) : ℕ := 1 + (callbacks e).flatten.length

theorem eventCost_le (e : Event) : eventCost e ≤ 4 := by
  rw [eventCost, flatten_callbacks]
  cases e <;> simp

namespace System

variable {Hdl : Type} [LinearOrder Hdl]

/-- The events that a step sends. -/
def sentEvents (s : System Hdl) : Action Hdl → List Event
  | .call c => (s.conn.server.sentEvent s.clock c).toList
  | .kickUser username => [.disconnectUser (.ofUsername username)]
  | .checkEntry =>
    match s.snapshot with
    | [] => []
    | entry :: _ => if ClientMgr.isIdle s.clock entry then [.disconnectUser entry.1] else []
  | _ => []

/-- The steps that the bus has still to take. -/
def work (s : System Hdl) : ℕ := s.bus.work callbacks

/-- Every event that was sent is handled by all its callbacks. -/
def AllHandled (s : System Hdl) : Prop := s.bus.queue = [] ∧ s.pending = []

instance (s : System Hdl) : Decidable s.AllHandled := inferInstanceAs (Decidable (_ ∧ _))

theorem work_eq_zero {s : System Hdl} : s.work = 0 ↔ s.AllHandled := Dispatcher.work_eq_zero

theorem AllHandled.settled {s : System Hdl} (h : s.AllHandled) : s.Settled :=
  settled_of_pending h.2

/-- A step of the bus does one step of the work, every other step adds the cost of its events. -/
theorem work_step {s s' : System Hdl} {a : Action Hdl} (h : s.step a = some s') :
    s'.work + (if a.isBusStep then 1 else 0) = s.work + ((s.sentEvents a).map eventCost).sum := by
  cases step_cases h with
  | call c conn hadm hconn =>
    cases hsent : s.conn.server.sentEvent s.clock c with
    | none => simp [work, sentEvents, hsent, Action.isBusStep]
    | some e =>
      simpa [work, sentEvents, hsent, Action.isBusStep, eventCost] using s.bus.work_send e
  | kickUser username =>
    simpa [work, sendAsync, sentEvents, Action.isBusStep, eventCost] using s.bus.work_send _
  | idleEntry entry rest hs hidle =>
    simpa [work, sendAsync, sentEvents, hs, hidle, Action.isBusStep, eventCost] using s.bus.work_send _
  | busyEntry entry rest hs hbusy => simp [work, sentEvents, hs, hbusy, Action.isBusStep]
  | popEvent bus hpop =>
    simpa [work, sentEvents, Action.isBusStep] using Dispatcher.work_pop hpop
  | runThread i w bus hi =>
    have hwork : (({ s with bus := bus } : System Hdl).perform w).work = bus.work callbacks := by
      rw [work, perform_bus]
    rw [hwork]
    simpa [work, sentEvents, Action.isBusStep] using Dispatcher.work_take hi
  | _ => simp [work, sentEvents, Action.isBusStep]

/-- The events that are sent in a run from a state. -/
def eventsSent (s : System Hdl) (as : List (Action Hdl)) : List Event :=
  (trace step sentEvents s as).flatMap Prod.snd

theorem eventsSent_concat {s t : System Hdl} {as : List (Action Hdl)}
    (hrun : run step s as = some t) (a : Action Hdl) :
    s.eventsSent (as ++ [a]) = s.eventsSent as ++ t.sentEvents a := by
  rw [eventsSent, trace_concat hrun, List.flatMap_append]
  simp [eventsSent]

/-- The steps that the bus took in a run, and those it has still to take, are those it had to take
before and those that the events of the run cost. -/
theorem work_run {s t : System Hdl} {as : List (Action Hdl)} (hrun : run step s as = some t) :
    as.countP Action.isBusStep + t.work = s.work + ((s.eventsSent as).map eventCost).sum := by
  refine run_history_induction (P := fun p t => p.countP Action.isBusStep + t.work =
    s.work + ((s.eventsSent p).map eventCost).sum) (by simp [eventsSent, trace]) ?_ hrun
  intro p t a u hp ih hstep
  have hwork := work_step hstep
  rw [eventsSent_concat hp, List.map_append, List.sum_append, List.countP_append,
    List.countP_singleton]
  omega

/-- The callbacks send no events. -/
theorem cost_sentEvents_le (s : System Hdl) (a : Action Hdl) :
    ((s.sentEvents a).map eventCost).sum ≤ 4 * if a.isBusStep then 0 else 1 := by
  cases a with
  | call c =>
    cases hsent : s.conn.server.sentEvent s.clock c with
    | none => simp [sentEvents, hsent]
    | some e => simpa [sentEvents, hsent, Action.isBusStep] using eventCost_le e
  | kickUser username => simpa [sentEvents, Action.isBusStep] using eventCost_le _
  | checkEntry =>
    rw [sentEvents]
    split
    · simp
    · split
      · simpa [Action.isBusStep] using eventCost_le _
      · simp
  | _ => simp [sentEvents]

theorem cost_eventsSent_le {s t : System Hdl} {as : List (Action Hdl)}
    (hrun : run step s as = some t) :
    ((s.eventsSent as).map eventCost).sum ≤ 4 * as.countP fun a => !a.isBusStep := by
  refine run_history_induction (P := fun p _ => ((s.eventsSent p).map eventCost).sum ≤
    4 * p.countP fun a => !a.isBusStep) (by simp [eventsSent, trace]) ?_ hrun
  intro p t a u hp ih hstep
  have hcost := cost_sentEvents_le t a
  rw [eventsSent_concat hp, List.map_append, List.sum_append, List.countP_append,
    List.countP_singleton]
  cases ha : a.isBusStep with
  | true =>
    simp only [ha, if_true, Bool.not_true, Bool.false_eq_true, if_false] at hcost ⊢
    omega
  | false =>
    simp only [ha, if_true, Bool.not_false, Bool.false_eq_true, if_false] at hcost ⊢
    omega

/-! ## Schedules in order -/

/-- A step in which no section overtakes another. -/
def Overtakes (s : System Hdl) : Action Hdl → Prop
  | .runThread i => s.bus.earlier i ≠ []
  | _ => False

theorem inOrder_of_not_overtakes {s : System Hdl} {a : Action Hdl} (h : ¬ s.Overtakes a) :
    s.UsersInOrder a ∧ s.TimeoutsInOrder a ∧ s.WritesInOrder a := by
  cases a with
  | runThread i =>
    have hnil : s.bus.earlier i = [] := not_not.mp h
    simp [UsersInOrder, TimeoutsInOrder, WritesInOrder, hnil]
  | _ => exact ⟨trivial, trivial, trivial⟩

/-- While the server runs and there is work, the bus has a step that overtakes nothing. -/
theorem exists_step_in_order {s : System Hdl} (h : ¬ (s.terminated = true ∨ s.AllHandled)) :
    ∃ a s', a.isBusStep = true ∧ s.step a = some s' ∧ ¬ s.Overtakes a := by
  obtain ⟨hrunning, hwork⟩ := not_or.mp h
  rw [← work_eq_zero] at hwork
  rcases Dispatcher.exists_next callbacks hwork with ⟨bus, hpop⟩ | ⟨i, w, bus, hi, hearlier⟩
  · exact ⟨.popEvent, { s with bus := bus }, rfl, by simp [step, hrunning, hpop], id⟩
  · refine ⟨.runThread i, ({ s with bus := bus } : System Hdl).perform w, rfl, ?_, ?_⟩
    · simp [step, hrunning, hi]
    · exact fun hover => hover hearlier

/-! ## Coming to rest -/

/-- The bus cannot take a step exactly if the server was terminated or there is no work. -/
theorem no_busStep_iff (s : System Hdl) :
    (∀ a : Action Hdl, a.isBusStep = true → s.step a = none) ↔
      s.terminated = true ∨ s.AllHandled := by
  constructor
  · intro h
    by_contra hnot
    obtain ⟨a, s', ha, hstep, -⟩ := exists_step_in_order hnot
    rw [h a ha] at hstep
    cases hstep
  · intro h a ha
    rw [Option.eq_none_iff_forall_ne_some]
    intro s' hstep
    have hwork := work_step hstep
    have hcost := cost_sentEvents_le s a
    simp only [ha, if_true, Nat.mul_zero] at hwork hcost
    rcases h with hterm | hhandled
    · simp [step, hterm] at hstep
    · have hzero := work_eq_zero.mpr hhandled
      omega

/-- **Every schedule of the bus comes to rest**, after as many steps as there was work to do, and then
every event is handled, unless a callback terminated the server. -/
theorem every_schedule_settles {s t : System Hdl} {as : List (Action Hdl)}
    (hbus : ∀ a ∈ as, a.isBusStep = true) (hrun : run step s as = some t) :
    as.length + t.work = s.work ∧
      ((∀ a : Action Hdl, a.isBusStep = true → t.step a = none) ↔
        t.terminated = true ∨ t.AllHandled) := by
  refine ⟨?_, no_busStep_iff t⟩
  have hwork := work_run hrun
  have hcost := cost_eventsSent_le hrun
  have hothers : (as.countP fun a => !a.isBusStep) = 0 :=
    List.countP_eq_zero.mpr fun a ha => by simp [hbus a ha]
  rw [List.countP_eq_length.mpr hbus] at hwork
  omega

/-- **The bus takes at most four steps for each other step**, in every run. -/
theorem bus_keeps_up {s t : System Hdl} {as : List (Action Hdl)} (hrun : run step s as = some t) :
    as.countP Action.isBusStep + t.work ≤ s.work + 4 * as.countP fun a => !a.isBusStep := by
  have hwork := work_run hrun
  have hcost := cost_eventsSent_le hrun
  omega

/-- **From every state the bus can come to rest in order**: there is a schedule in which no section
overtakes another, and after which every event is handled or the server was terminated. -/
theorem exists_schedule_in_order (s : System Hdl) :
    ∃ as t, (∀ a ∈ as, a.isBusStep = true) ∧ run step s as = some t ∧
      Meets step (fun s a => ¬ s.Overtakes a) s as ∧ (t.terminated = true ∨ t.AllHandled) := by
  induction hn : s.work using Nat.strong_induction_on generalizing s with
  | _ n ih =>
    by_cases hrest : s.terminated = true ∨ s.AllHandled
    · exact ⟨[], s, by simp, rfl, meets_nil, hrest⟩
    · -- a step of the bus leaves less work
      obtain ⟨a, s', ha, hstep, horder⟩ := exists_step_in_order hrest
      have hwork := work_step hstep
      have hcost := cost_sentEvents_le s a
      simp only [ha, if_true, Nat.mul_zero] at hwork hcost
      obtain ⟨as, t, has, hrun, hmeets, hend⟩ := ih s'.work (by omega) s' rfl
      refine ⟨a :: as, t, ?_, ?_, (meets_cons hstep).mpr ⟨horder, hmeets⟩, hend⟩
      · rw [List.forall_mem_cons]
        exact ⟨ha, has⟩
      · rw [run, hstep]
        exact hrun

/-- Two messages were sent, and their events were taken from the queue. -/
def talked : System ℕ := (run step (init 0) conversation).get (by decide)

/-- The threads of the second message run before one of the first. -/
def talkedSchedule : List (Action ℕ) := [.runThread 5, .runThread 6, .runThread 2]

theorem talkedSchedule_runs : (run step talked talkedSchedule).isSome = true := by decide

theorem every_schedule_settles_talked :
    talkedSchedule.length + ((run step talked talkedSchedule).get talkedSchedule_runs).work =
        talked.work ∧
      ((∀ a : Action ℕ, a.isBusStep = true →
          ((run step talked talkedSchedule).get talkedSchedule_runs).step a = none) ↔
        ((run step talked talkedSchedule).get talkedSchedule_runs).terminated = true ∨
          ((run step talked talkedSchedule).get talkedSchedule_runs).AllHandled) :=
  every_schedule_settles (by decide) (Option.some_get _).symm

theorem bus_keeps_up_orderly : orderlyRun.countP Action.isBusStep + orderly.work ≤
    (init 0 : System ℕ).work + 4 * orderlyRun.countP fun a => !a.isBusStep :=
  bus_keeps_up run_orderlyRun

/-! ## The journals at rest -/

/-- What is written to a journal and what is to be written to it make up the conversation, in some
order. -/
theorem written_perm {now : Time} {as : List (Action Hdl)} {s : System Hdl}
    (hrun : run step (init now) as = some s) (j : Journal) :
    (s.written j ++ s.pending.filterMap (Work.writes j)).Perm (messages now as) := by
  refine run_history_induction (P := fun p t =>
    (t.written j ++ t.pending.filterMap (Work.writes j)).Perm (messages now p)) ?_ ?_ hrun
  · cases j <;> rfl
  · intro p t a u hp ih hstep
    rw [messages_concat hp]
    have hwritten : (∀ i, a ≠ .runThread i) → u.written j = t.written j := by
      intro ha
      obtain ⟨hlogged, hrows, -⟩ := frame_of_step hstep ha
      cases j with
      | log => exact hlogged
      | table => exact hrows
    cases a with
    | call c =>
      obtain ⟨-, -, -, hpending, -⟩ := call_effect hstep
      rw [hwritten nofun, hpending, List.filterMap_append, writes_sentEvent, ← List.append_assoc]
      exact ih.append_right _
    | runThread i =>
      cases step_effect hstep with
      | other _ _ ha => exact absurd rfl (ha i)
      | ran _ w bus hi =>
        obtain ⟨later, hbefore, hafter⟩ := pending_ran hi
        rw [hbefore] at ih
        have hmove : (t.written j ++ (w.writes j).toList ++
            (t.bus.earlier i ++ later).filterMap (Work.writes j)).Perm
              (t.written j ++ (t.bus.earlier i ++ w :: later).filterMap (Work.writes j)) := by
          rw [List.append_assoc, List.filterMap_append, List.filterMap_append]
          refine List.Perm.append_left _ ?_
          cases hw : w.writes j with
          | none => simp [hw]
          | some m => simpa [hw] using List.perm_middle.symm
        rw [hafter, written_perform]
        simpa [written, broadcastMessage] using hmove.trans ih
    | _ =>
      cases step_effect hstep with
      | other _ _ ha hconn hmgr ws hpending hws =>
        have hnone : ws.filterMap (Work.writes j) = [] := by
          refine List.filterMap_eq_nil_iff.mpr fun w hw => ?_
          obtain ⟨u, rfl⟩ := hws w hw
          cases j <;> rfl
        rw [hwritten ha, hpending, List.filterMap_append, hnone]
        simpa [broadcastMessage] using ih

/-- **No message is lost or written twice**: when every event is handled, the callbacks of `Logger` and
of `DbManager` ran for each message of the conversation once, whatever the schedule was. -/
theorem journals_complete {now : Time} {as : List (Action Hdl)} {s : System Hdl}
    (hrun : run step (init now) as = some s) (hhandled : s.AllHandled) (j : Journal) :
    (s.written j).Perm (messages now as) := by
  have hperm := written_perm hrun j
  rwa [hhandled.2, List.filterMap_nil, List.append_nil] at hperm

/-- Every section runs, those of the second message before those of the first. -/
def reversedRun : List (Action ℕ) :=
  overtaken ++ [.runThread 4, .runThread 1, .runThread 0, .runThread 0]

theorem reversedRun_runs : (run step (init 0) reversedRun).isSome = true := by decide

/-- The state at rest after the reversed run. -/
def reversed : System ℕ := (run step (init 0) reversedRun).get reversedRun_runs

theorem journals_complete_reversed : (reversed.written .log).Perm (messages 0 reversedRun) :=
  journals_complete (Option.some_get _).symm (by decide) .log

/-! ## The roster at rest -/

/-- The users that the client manager will have once it has handled every event sent so far agree
with the connections. -/
theorem completed_users_agree {start : Time} {as : List (Action Hdl)}
    (hdistinct : Along step (fun s => s.conn.DistinctNames) (init start) as)
    (horder : Meets step UsersInOrder (init start) as) :
    Along step (fun s => s.conn.UsersAgree (usersView.completed s)) (init start) as := by
  have h0 : Connections.UsersAgree (usersView.get .init) (.init : Connections Hdl) := by
    intro u
    simp [usersView, ClientMgr.init, UserStored, Connections.init, WebsocketServer.init]
  have hord : Meets step usersView.InOrder (init start) as := fun p a t hp ht =>
    usersView_inOrder (horder p a t hp ht)
  refine View.completed_along h0 ?_ hdistinct hord
  intro c c' now call users hc hd hd' hu h
  exact Connections.usersAgree_step hc hd hd' hu h

/-- The bus leaves the connections alone. -/
theorem conn_of_busSteps {s : System Hdl} {as : List (Action Hdl)}
    (hbus : ∀ a ∈ as, a.isBusStep = true) :
    Along step (fun u => u.conn = s.conn) s as := by
  refine Meets.along (C := fun _ a => a.isBusStep = true) ?_ rfl ?_
  · intro p a u hp _
    exact hbus a (hp.subset (by simp))
  · intro u a v hu ha hstep
    rw [← hu]
    cases step_cases hstep with
    | popEvent bus hpop => rfl
    | runThread i w bus hi => rw [perform_conn]
    | _ => cases ha

/-- **The roster can always be brought to agree with the connections**: after every run in which no
two open connections share a name and the users are changed in the order of the events, the bus has a
schedule at whose end the users are those of the open connections, unless the server was terminated. -/
theorem roster_settles {start : Time} {as : List (Action Hdl)} {s : System Hdl}
    (hrun : run step (init start) as = some s)
    (hdistinct : Along step (fun s => s.conn.DistinctNames) (init start) as)
    (horder : Meets step UsersInOrder (init start) as) :
    ∃ bs t, (∀ b ∈ bs, b.isBusStep = true) ∧ run step s bs = some t ∧ t.conn = s.conn ∧
      (t.terminated = true ∨ t.AllHandled ∧ t.conn.UsersAgree t.clientMgr.users) := by
  obtain ⟨bs, t, hbus, hbs, hmeets, hend⟩ := exists_schedule_in_order s
  have hconn := conn_of_busSteps (s := s) hbus
  refine ⟨bs, t, hbus, hbs, hconn.last hbs, hend.imp_right fun hhandled => ⟨hhandled, ?_⟩⟩
  have hdistinct' : Along step (fun s => s.conn.DistinctNames) s bs := by
    intro p u hp hu
    rw [hconn p u hp hu]
    exact hdistinct.last hrun
  have horder' : Meets step UsersInOrder s bs := fun p a u hp hu =>
    (inOrder_of_not_overtakes (hmeets p a u hp hu)).1
  have hagree := (completed_users_agree (hdistinct.append hrun hdistinct')
    ((meets_append hrun).mpr ⟨horder, horder'⟩)).last (run_append_eq_some.mpr ⟨s, hrun, hbs⟩)
  rwa [View.completed_of_settled hhandled.settled] at hagree

/-- One user is connected and another one leaves; the opening of the second is being handled, and the
events of the closing and of a third connection are in the queue. -/
def crowdedRun : List (Action ℕ) :=
  [.call (.validateHandler 1 (Connections.requestNamed "bob")), .call (.openHandler 1),
    .call (.validateHandler 2 (Connections.requestNamed "alice")), .call (.openHandler 2),
    .popEvent, .runThread 0, .runThread 0, .popEvent, .runThread 1, .call (.closeHandler 1),
    .call (.validateHandler 3 (Connections.requestNamed "eve")), .call (.openHandler 3)]

theorem crowdedRun_runs : (run step (init 0) crowdedRun).isSome = true := by decide

/-- The state after the crowded run. -/
def crowded : System ℕ := (run step (init 0) crowdedRun).get crowdedRun_runs

example : crowded.pending.length = 5 := by decide

theorem roster_settles_crowded :
    ∃ bs t, (∀ b ∈ bs, b.isBusStep = true) ∧ run step crowded bs = some t ∧ t.conn = crowded.conn ∧
      (t.terminated = true ∨ t.AllHandled ∧ t.conn.UsersAgree t.clientMgr.users) :=
  roster_settles (Option.some_get crowdedRun_runs).symm (along_distinctNames (by decide))
    (meets_of_take (by decide))

end System

end SimpleChat
