import SimpleChat.Server.System
import SimpleChat.WebsocketServer.Usernames

/-!
# The loop of `MessageHandler`

`MessageHandler` copies `conn_user_map`, sends its event, and then sends the message to each
connection of the copy in order. A connection stays in the map while it is closing, and `srv.send`
raises an exception on it, which leaves the loop. No lock is held in the loop: the bus, its threads,
`ClientMgr::Cyclic` and the REST server go on between two sends, so a disconnection can begin there.
The thread of websocketpp is in the handler, so it calls no other one and reads no close frame.

## Main definitions

* `SendLoop`, `beginLoop`: what the loop has still to do, and where it begins
* `System.broadcast`: the message with its sends, if no step of another thread comes between them
* `SendingSystem`, `SendingSystem.step`: the server with the loop, one send a step
* `SendingSystem.Handling`: a run of the server from the arrival of a message to the end of its loop
* `SendingSystem.SentToAll`: the handler returned, and every open connection was sent the message once
* `SendingSystem.Undisturbed`: the condition on a step, that it closes no connection that is to come

## Main results

* `run_sendNext`, `broadcast_of_run_sendNext`: the loop ends, and does what `broadcast` says if no
  other thread takes a step before
* `sent_to_all_iff`: a message is sent to all exactly if no connection is closing when it arrives and
  none that is to come begins to close in the loop
-/

namespace SimpleChat

open Containers Std Transition

/-- A loop of `MessageHandler`: what it sends, and the connections it has still to come to. -/
structure SendLoop (Hdl : Type) where
  message : Message
  opcode : Opcode
  remaining : List Hdl
  deriving DecidableEq, Repr

namespace WebsocketServer

variable {Hdl : Type} [LinearOrder Hdl]

/-- `MessageHandler` up to its loop. The lookup of the sender is in the snapshot. -/
def beginLoop (s : WebsocketServer Hdl) (hdl : Hdl) (msg : WsMessage) (now : Time) : SendLoop Hdl :=
  let (user, snapshot) := subscript s.connUserMap hdl
  ⟨⟨user, msg.payload, now⟩, msg.opcode, snapshot.keys⟩

theorem messageHandler_eq_sendAll (s : WebsocketServer Hdl) (isOpen : Hdl → Bool) (hdl : Hdl)
    (msg : WsMessage) (now : Time) :
    s.messageHandler isOpen hdl msg now =
      let l := s.beginLoop hdl msg now
      ⟨l.message, (sendAll isOpen l.message l.opcode l.remaining).1,
        (sendAll isOpen l.message l.opcode l.remaining).2⟩ := rfl

/-- The loop for a connected sender goes over the whole map. -/
theorem beginLoop_eq {s : WebsocketServer Hdl} {hdl : Hdl} {u : User} (msg : WsMessage) (now : Time)
    (h : s.connUserMap[hdl]? = some u) :
    s.beginLoop hdl msg now = ⟨⟨u, msg.payload, now⟩, msg.opcode, s.connUserMap.keys⟩ := by
  simp [beginLoop, subscript_of_getElem? h]

end WebsocketServer

/-- What `MessageHandler` does with a message that arrives from a connection, if no other thread
takes a step meanwhile. -/
def System.broadcast {Hdl : Type} [LinearOrder Hdl] (s : System Hdl) (hdl : Hdl) (msg : WsMessage) :
    Broadcast Hdl :=
  s.conn.server.messageHandler (fun k => decide (s.IsOpen k)) hdl msg s.clock

/-- A message comes from a connection that was opened, and leaves the connections alone. -/
theorem Connections.step_messageHandler {Hdl : Type} [LinearOrder Hdl] {s s' : Connections Hdl}
    {now : Time} {hdl : Hdl} {msg : WsMessage} (h : s.step (now, .messageHandler hdl msg) = some s') :
    s.phase hdl = .opened ∧ s' = s := by
  cases step_cases h with
  | message _ _ hp => exact ⟨hp, rfl⟩

/-- Where the thread of websocketpp is: in no handler, with the way it left the last one, or in the
loop of `MessageHandler`. -/
inductive HandlerState (Hdl : Type) where
  | returned
  | raised
  | sending (loop : SendLoop Hdl)
  deriving DecidableEq, Repr

/-- The connections that the loop has still to come to. -/
def HandlerState.remaining {Hdl : Type} : HandlerState Hdl → List Hdl
  | sending loop => loop.remaining
  | _ => []

/-- The actions that the thread of websocketpp takes. -/
def Action.OnServerThread {Hdl : Type} : Action Hdl → Prop
  | call _ => True
  | peerClose _ => True
  | _ => False

instance {Hdl : Type} (a : Action Hdl) : Decidable a.OnServerThread := by
  cases a <;> unfold Action.OnServerThread <;> infer_instance

/-- The server with the loop of `MessageHandler`. -/
structure SendingSystem (Hdl : Type) [LinearOrder Hdl] where
  system : System Hdl
  handler : HandlerState Hdl

/-- A step of the server, where the call of `MessageHandler` goes up to its loop, or the next step of
the loop. -/
inductive SendingAction (Hdl : Type) where
  | act (a : Action Hdl)
  | sendNext
  deriving Repr

/-- The step of the server, if it is one. -/
def SendingAction.action {Hdl : Type} : SendingAction Hdl → Option (Action Hdl)
  | act a => some a
  | sendNext => none

namespace SendingSystem

variable {Hdl : Type} [LinearOrder Hdl]

def init (now : Time) : SendingSystem Hdl := ⟨.init now, .returned⟩

/-- The thread of websocketpp is in the loop. -/
def Sending (s : SendingSystem Hdl) : Prop := ∃ loop, s.handler = .sending loop

instance (s : SendingSystem Hdl) : Decidable s.Sending :=
  match h : s.handler with
  | .sending loop => isTrue ⟨loop, h⟩
  | .returned => isFalse (by rintro ⟨loop, hs⟩; rw [h] at hs; cases hs)
  | .raised => isFalse (by rintro ⟨loop, hs⟩; rw [h] at hs; cases hs)

/-- Where the thread of websocketpp is after an action. -/
def handlerAfter (s : SendingSystem Hdl) : Action Hdl → HandlerState Hdl
  | .call (.messageHandler hdl msg) =>
    .sending (s.system.conn.server.beginLoop hdl msg s.system.clock)
  | .call _ => .returned
  | _ => s.handler

/-- `srv.send` raises an exception on a connection that is not open. -/
def afterSend (s : SendingSystem Hdl) (loop : SendLoop Hdl) : HandlerState Hdl :=
  match loop.remaining with
  | [] => .returned
  | hdl :: rest => if s.system.IsOpen hdl then .sending { loop with remaining := rest } else .raised

def step (s : SendingSystem Hdl) : SendingAction Hdl → Option (SendingSystem Hdl)
  | .act a =>
    if s.Sending ∧ a.OnServerThread then none
    else (s.system.step a).map fun system => ⟨system, s.handlerAfter a⟩
  | .sendNext =>
    match s.handler with
    | .sending loop =>
      if s.system.terminated then none else some { s with handler := s.afterSend loop }
    | _ => none

/-- The call of `srv.send` that a step makes, if it succeeds. -/
def sent (s : SendingSystem Hdl) : SendingAction Hdl → Option (Send Hdl)
  | .sendNext =>
    match s.handler with
    | .sending ⟨message, opcode, hdl :: _⟩ =>
      if s.system.IsOpen hdl then some ⟨hdl, message, opcode⟩ else none
    | _ => none
  | .act _ => none

/-- The calls of `srv.send` that succeed in a run. -/
def sends (s : SendingSystem Hdl) (as : List (SendingAction Hdl)) : List (Send Hdl) :=
  (trace step sent s as).filterMap Prod.snd

/-- What a step does. -/
inductive StepCases (s : SendingSystem Hdl) : SendingAction Hdl → SendingSystem Hdl → Prop
  | act (a : Action Hdl) (system : System Hdl) (hfree : s.Sending → ¬ a.OnServerThread)
      (hsystem : s.system.step a = some system) :
      StepCases s (.act a) ⟨system, s.handlerAfter a⟩
  | ended (message : Message) (opcode : Opcode) (hs : s.handler = .sending ⟨message, opcode, []⟩)
      (hterm : s.system.terminated = false) :
      StepCases s .sendNext { s with handler := .returned }
  | next (message : Message) (opcode : Opcode) (hdl : Hdl) (rest : List Hdl)
      (hs : s.handler = .sending ⟨message, opcode, hdl :: rest⟩)
      (hterm : s.system.terminated = false) (hopen : s.system.IsOpen hdl) :
      StepCases s .sendNext { s with handler := .sending ⟨message, opcode, rest⟩ }
  | raised (message : Message) (opcode : Opcode) (hdl : Hdl) (rest : List Hdl)
      (hs : s.handler = .sending ⟨message, opcode, hdl :: rest⟩)
      (hterm : s.system.terminated = false) (hopen : ¬ s.system.IsOpen hdl) :
      StepCases s .sendNext { s with handler := .raised }

theorem step_cases {s s' : SendingSystem Hdl} {a : SendingAction Hdl} (h : s.step a = some s') :
    StepCases s a s' := by
  cases a with
  | act a =>
    simp only [step, Option.ite_none_left_eq_some, Option.map_eq_some_iff, not_and] at h
    obtain ⟨hfree, system, hsystem, rfl⟩ := h
    exact .act a system hfree hsystem
  | sendNext =>
    cases hs : s.handler with
    | sending loop =>
      simp only [step, hs, Option.ite_none_left_eq_some, Option.some.injEq, Bool.not_eq_true] at h
      obtain ⟨hterm, rfl⟩ := h
      obtain ⟨message, opcode, remaining⟩ := loop
      cases remaining with
      | nil => exact .ended message opcode hs hterm
      | cons hdl rest =>
        by_cases hopen : s.system.IsOpen hdl
        · simp only [afterSend, hopen, if_true]
          exact .next message opcode hdl rest hs hterm hopen
        · simp only [afterSend, hopen, if_false]
          exact .raised message opcode hdl rest hs hterm hopen
    | _ => simp [step, hs] at h

/-- The server does not see the loop. -/
theorem system_run {s t : SendingSystem Hdl} {as : List (SendingAction Hdl)}
    (hrun : run step s as = some t) :
    run System.step s.system (as.filterMap SendingAction.action) = some t.system := by
  refine run_history_induction (P := fun p t =>
    run System.step s.system (p.filterMap SendingAction.action) = some t.system) rfl ?_ hrun
  intro p t a u _ ih hstep
  rw [List.filterMap_append]
  cases step_cases hstep with
  | act a system hfree hsystem => exact run_concat_eq_some.mpr ⟨t.system, ih, hsystem⟩
  | _ =>
    rw [← ih]
    exact congrArg _ (List.append_nil _)

theorem system_reachable {now : Time} {s : SendingSystem Hdl} (h : Reachable step (init now) s) :
    Reachable System.step (.init now) s.system := by
  obtain ⟨as, hrun⟩ := h
  exact ⟨as.filterMap SendingAction.action, system_run hrun⟩

theorem sends_concat {s t : SendingSystem Hdl} {as : List (SendingAction Hdl)}
    (hrun : run step s as = some t) (a : SendingAction Hdl) :
    s.sends (as ++ [a]) = s.sends as ++ (t.sent a).toList := by
  rw [sends, trace_concat hrun, List.filterMap_append]
  cases t.sent a <;> simp [sends]

theorem sends_cons {s t : SendingSystem Hdl} {a : SendingAction Hdl} (hstep : s.step a = some t)
    (as : List (SendingAction Hdl)) : s.sends (a :: as) = (s.sent a).toList ++ t.sends as := by
  rw [sends, trace, hstep, Option.elim_some]
  cases s.sent a <;> simp [sends]

/-- The loop is over after finitely many steps of its own. If no other thread takes one meanwhile,
it makes the sends of `sendAll`, and raises an exception if that does. -/
theorem run_sendNext {s : SendingSystem Hdl} {loop : SendLoop Hdl} (hs : s.handler = .sending loop)
    (hterm : s.system.terminated = false) :
    let b := WebsocketServer.sendAll (fun k => decide (s.system.IsOpen k)) loop.message loop.opcode
      loop.remaining
    ∃ n, run step s (List.replicate n .sendNext) =
        some { s with handler := if b.2 then .raised else .returned } ∧
      s.sends (List.replicate n .sendNext) = b.1 := by
  obtain ⟨message, opcode, remaining⟩ := loop
  induction remaining generalizing s with
  | nil =>
    have hstep : s.step .sendNext = some { s with handler := .returned } := by
      simp [step, hs, hterm, afterSend]
    refine ⟨1, (run_singleton _).trans hstep, ?_⟩
    rw [List.replicate_one, sends_cons hstep]
    simp [sent, hs, sends, trace, WebsocketServer.sendAll]
  | cons hdl rest ih =>
    by_cases hopen : s.system.IsOpen hdl
    · have hstep : s.step .sendNext = some { s with handler := .sending ⟨message, opcode, rest⟩ } := by
        simp [step, hs, hterm, afterSend, hopen]
      obtain ⟨n, hrun, hsends⟩ := ih (s := { s with handler := .sending ⟨message, opcode, rest⟩ })
        hterm rfl
      refine ⟨n + 1, ?_, ?_⟩
      · rw [List.replicate_succ, run, hstep, Option.bind_some, hrun]
        simp [WebsocketServer.sendAll, hopen]
      · rw [List.replicate_succ, sends_cons hstep, hsends]
        simp [sent, hs, hopen, WebsocketServer.sendAll]
    · have hstep : s.step .sendNext = some { s with handler := .raised } := by
        simp [step, hs, hterm, afterSend, hopen]
      refine ⟨1, ?_, ?_⟩
      · rw [List.replicate_one, run_singleton, hstep]
        simp [WebsocketServer.sendAll, hopen]
      · rw [List.replicate_one, sends_cons hstep]
        simp [sent, hs, hopen, sends, trace, WebsocketServer.sendAll]

/-- What `broadcast` says of a message is what happens to it if no other thread takes a step before
the loop is over. -/
theorem broadcast_of_run_sendNext {s t : SendingSystem Hdl} {hdl : Hdl} {msg : WsMessage}
    (hstep : s.step (.act (.call (.messageHandler hdl msg))) = some t) :
    ∃ n, run step t (List.replicate n .sendNext) = some { t with
        handler := if (s.system.broadcast hdl msg).raised then .raised else .returned } ∧
      t.sends (List.replicate n .sendNext) = (s.system.broadcast hdl msg).sends := by
  cases step_cases hstep with
  | act _ system hfree hsystem =>
    obtain ⟨-, hconn, -, -, hclosing, hterm⟩ := System.call_effect hsystem
    obtain ⟨-, hkept⟩ := Connections.step_messageHandler hconn
    have hrunning := System.running_of_step hsystem
    have hopen : ∀ k, system.IsOpen k ↔ s.system.IsOpen k := by
      intro k
      rw [System.IsOpen, System.IsOpen, hkept, hclosing]
      rfl
    have hloop : (⟨system, s.handlerAfter (.call (.messageHandler hdl msg))⟩ :
        SendingSystem Hdl).handler =
          .sending (s.system.conn.server.beginLoop hdl msg s.system.clock) := rfl
    obtain ⟨n, hrun, hsends⟩ := run_sendNext hloop (hterm.trans hrunning)
    simp only [hopen] at hrun hsends
    exact ⟨n, hrun, hsends⟩

/-! ## What goes on in the loop -/

theorem handlerAfter_of_not_onServerThread (s : SendingSystem Hdl) {a : Action Hdl}
    (ha : ¬ a.OnServerThread) : s.handlerAfter a = s.handler := by
  cases a with
  | call c => exact absurd trivial ha
  | _ => rfl

/-- The other threads leave the connections alone, and end the close of none. -/
theorem system_frame {s s' : System Hdl} {a : Action Hdl} (h : s.step a = some s')
    (ha : ¬ a.OnServerThread) : s'.conn = s.conn ∧ s.closing ⊆ s'.closing := by
  constructor
  · cases System.step_effect h with
    | handled c => exact absurd trivial ha
    | ran i w bus hi => rw [System.perform_conn]
    | other _ _ _ hconn => exact hconn
  · cases System.close_cases h with
    | ended hdl hc =>
      subst hc
      exact absurd trivial ha
    | byPeer hdl hc =>
      subst hc
      exact absurd trivial ha
    | kicked user hdl _ _ _ hclosing => rw [hclosing]; exact Finset.subset_insert _ _
    | doubled user hdl _ _ _ hclosing => rw [hclosing]
    | kept _ hclosing => rw [hclosing]

/-- A message arrives while no loop runs. Its loop goes over the whole map. -/
theorem arrives_spec {now : Time} {s t : SendingSystem Hdl} (hs : Reachable step (init now) s)
    {hdl : Hdl} {msg : WsMessage} (h : s.step (.act (.call (.messageHandler hdl msg))) = some t) :
    ¬ s.Sending ∧ t.system.terminated = false ∧ s.system.IsOpen hdl ∧
      t.system.conn = s.system.conn ∧ t.system.closing = s.system.closing ∧
      t.handler = .sending ⟨(s.system.broadcast hdl msg).message, msg.opcode,
        s.system.conn.server.connUserMap.keys⟩ := by
  cases step_cases h with
  | act _ system hfree hsystem =>
    obtain ⟨hadm, hconn, -, -, hclosing, hterm⟩ := System.call_effect hsystem
    obtain ⟨hopened, hkept⟩ := Connections.step_messageHandler hconn
    obtain ⟨v, hv⟩ := (System.inv_of_reachable (system_reachable hs)).exists_connected hopened
    refine ⟨fun hsending => hfree hsending trivial, ?_, ⟨hopened, hadm⟩, hkept, hclosing, ?_⟩
    · exact hterm.trans (System.running_of_step hsystem)
    · rw [handlerAfter, WebsocketServer.beginLoop_eq msg _ hv, System.broadcast,
        WebsocketServer.messageHandler_eq _ msg _ hv]

/-- The message arrives in the first state from its open sender, and the run goes on from the second
state until the handler has left the loop or the server was terminated. -/
structure Handling (s : SendingSystem Hdl) (hdl : Hdl) (msg : WsMessage) (t : SendingSystem Hdl)
    (as : List (SendingAction Hdl)) (u : SendingSystem Hdl) : Prop where
  arrives : s.step (.act (.call (.messageHandler hdl msg))) = some t
  runs : run step t as = some u
  running : ∀ p v, p <+: as → p ≠ as → run step t p = some v → v.Sending
  ended : ¬ u.Sending ∨ u.system.terminated = true

/-- The handler returned, and every connection that was open when the message arrived was sent it
once. -/
def SentToAll (s : SendingSystem Hdl) (hdl : Hdl) (msg : WsMessage) (u : SendingSystem Hdl)
    (sends : List (Send Hdl)) : Prop :=
  u.system.terminated = false ∧ u.handler = .returned ∧ ∀ k, s.system.IsOpen k →
    (sends.filter fun x => x.hdl = k) = [⟨k, (s.system.broadcast hdl msg).message, msg.opcode⟩]

/-- A disconnection in the loop closes no connection that the loop has still to come to, and none
that is closing. -/
def Undisturbed (s : SendingSystem Hdl) : SendingAction Hdl → Prop
  | .act a => ∀ user, s.system.Handles a user →
      ∀ hdl, s.system.conn.server.disconnectUser user = some hdl →
        hdl ∉ s.handler.remaining ∧ hdl ∉ s.system.closing
  | .sendNext => True

/-- The loop over the connections `hdls` has come to the end of `done` without an exception, and none
of those to come is closing. -/
structure Going (hdls : List Hdl) (message : Message) (opcode : Opcode) (done : List Hdl)
    (sends : List (Send Hdl)) (s : SendingSystem Hdl) : Prop where
  sent : sends = done.map fun hdl => ⟨hdl, message, opcode⟩
  running : s.system.terminated = false
  opened : ∀ k ∈ hdls, s.system.conn.phase k = .opened
  handler : (∃ rest, s.handler = .sending ⟨message, opcode, rest⟩ ∧ hdls = done ++ rest ∧
      ∀ k ∈ rest, k ∉ s.system.closing) ∨
    s.handler = .returned ∧ done = hdls

/-- The loop was left by an exception, or it will be, or the server was terminated. -/
def Lost (s : SendingSystem Hdl) : Prop :=
  s.system.terminated = true ∨ s.handler = .raised ∨
    ∃ k ∈ s.handler.remaining, k ∈ s.system.closing

/-- A loop that comes to a closing connection is left there, whatever happens before. -/
theorem lost_step {s s' : SendingSystem Hdl} (hs : s.Sending) (hlost : s.Lost)
    {a : SendingAction Hdl} (hstep : s.step a = some s') : s'.Lost := by
  obtain ⟨loop, hloop⟩ := hs
  rcases hlost with hterm | hraised | ⟨k, hk, hclosing⟩
  · cases step_cases hstep with
    | act a system hfree hsystem =>
      exact absurd (hterm.symm.trans (System.running_of_step hsystem)) (by decide)
    | ended message opcode _ hrun => exact absurd (hterm.symm.trans hrun) (by decide)
    | next message opcode hdl rest _ hrun => exact absurd (hterm.symm.trans hrun) (by decide)
    | raised message opcode hdl rest _ hrun => exact absurd (hterm.symm.trans hrun) (by decide)
  · rw [hraised] at hloop
    cases hloop
  · cases step_cases hstep with
    | act a system hfree hsystem =>
      have ha := hfree ⟨loop, hloop⟩
      refine .inr (.inr ⟨k, ?_, (system_frame hsystem ha).2 hclosing⟩)
      rwa [s.handlerAfter_of_not_onServerThread ha]
    | ended message opcode hs => simp [hs, HandlerState.remaining] at hk
    | next message opcode hdl rest hs hterm hopen =>
      have hne : k ≠ hdl := by
        rintro rfl
        exact hopen.2 hclosing
      rw [hs, HandlerState.remaining, List.mem_cons, or_iff_right hne] at hk
      exact .inr (.inr ⟨k, hk, hclosing⟩)
    | raised message opcode hdl rest hs hterm hopen => exact .inr (.inl rfl)

/-- A step of the server disturbs the loop exactly if it terminates the server or begins to close a
connection that is to come. -/
theorem undisturbed_iff {s : SendingSystem Hdl} {s' : System Hdl} {a : Action Hdl}
    (hinv : s.system.conn.Inv) (hterm : s.system.terminated = false)
    (hrest : ∀ k ∈ s.handler.remaining, k ∉ s.system.closing) (hstep : s.system.step a = some s')
    (ha : ¬ a.OnServerThread) :
    s.Undisturbed (.act a) ↔ s'.terminated = false ∧ ∀ k ∈ s.handler.remaining, k ∉ s'.closing := by
  cases System.close_cases hstep with
  | ended hdl hc =>
    subst hc
    exact absurd trivial ha
  | byPeer hdl hc =>
    subst hc
    exact absurd trivial ha
  | kicked user hdl hhandles htarget hopen hclosing hterm' =>
    constructor
    · intro hund
      obtain ⟨hnot, -⟩ := hund user hhandles hdl htarget
      refine ⟨hterm'.trans hterm, fun k hk => ?_⟩
      rw [hclosing, Finset.mem_insert, not_or]
      exact ⟨fun h => hnot (h ▸ hk), hrest k hk⟩
    · rintro ⟨-, hkept⟩ v hv k hk
      obtain rfl := hv.unique hhandles
      obtain rfl := Option.some.inj (hk.symm.trans htarget)
      exact ⟨fun hmem => hkept k hmem (by simp [hclosing]), hopen.2⟩
  | doubled user hdl hhandles htarget hopen _ hterm' =>
    constructor
    · intro hund
      -- the target is in the map, so it is closing if it is not open
      have hcarries := (WebsocketServer.disconnectUser_eq_some.mp htarget).1
      exact absurd ⟨hinv.opened_of_carries hcarries, (hund user hhandles hdl htarget).2⟩ hopen
    · rintro ⟨hrun, -⟩
      exact absurd (hterm'.symm.trans hrun) (by decide)
  | kept hnone hclosing hterm' =>
    constructor
    · intro _
      exact ⟨hterm'.trans hterm, by rwa [hclosing]⟩
    · intro _ user hhandles hdl htarget
      rw [hnone user hhandles] at htarget
      cases htarget

/-- A step keeps the loop going exactly if it does not disturb it. -/
theorem going_step {hdls : List Hdl} {message : Message} {opcode : Opcode} {done : List Hdl}
    {sends : List (Send Hdl)} {s s' : SendingSystem Hdl} (hinv : s.system.conn.Inv)
    (hs : s.Sending) (hgoing : Going hdls message opcode done sends s) {a : SendingAction Hdl}
    (hstep : s.step a = some s') :
    (s.Undisturbed a →
      ∃ done', Going hdls message opcode done' (sends ++ (s.sent a).toList) s') ∧
      (¬ s.Undisturbed a → s'.Lost) := by
  obtain ⟨loop, hloop⟩ := hs
  obtain ⟨rest, hhandler, hhdls, hrest⟩ : ∃ rest, s.handler = .sending ⟨message, opcode, rest⟩ ∧
      hdls = done ++ rest ∧ ∀ k ∈ rest, k ∉ s.system.closing := by
    refine hgoing.handler.resolve_right fun h => ?_
    rw [h.1] at hloop
    cases hloop
  cases step_cases hstep with
  | act a system hfree hsystem =>
    have ha := hfree ⟨loop, hloop⟩
    obtain ⟨hconn, -⟩ := system_frame hsystem ha
    have hafter := s.handlerAfter_of_not_onServerThread ha
    have hiff := undisturbed_iff hinv hgoing.running (by rwa [hhandler]) hsystem ha
    rw [hiff, hhandler]
    constructor
    · rintro ⟨hterm, hclosing⟩
      refine ⟨done, by simpa [SendingSystem.sent] using hgoing.sent, hterm, ?_,
        .inl ⟨rest, hafter.trans hhandler, hhdls, hclosing⟩⟩
      rw [hconn]
      exact hgoing.opened
    · intro hdist
      cases hterm : system.terminated with
      | true => exact .inl hterm
      | false =>
        have hlost : ∃ k ∈ rest, k ∈ system.closing := by
          by_contra hnone
          exact hdist ⟨hterm, fun k hk hclosing => hnone ⟨k, hk, hclosing⟩⟩
        refine .inr (.inr ?_)
        rw [hafter, hhandler]
        exact hlost
  | ended _ _ hs hterm =>
    obtain rfl : rest = [] := by
      rw [hhandler] at hs
      cases hs
      rfl
    rw [List.append_nil] at hhdls
    refine ⟨fun _ => ⟨done, ?_, hterm, hgoing.opened, .inr ⟨rfl, hhdls.symm⟩⟩,
      fun h => absurd trivial h⟩
    simpa [SendingSystem.sent, hs] using hgoing.sent
  | next m o hdl rest' hs hterm hopen =>
    rw [hhandler] at hs
    cases hs
    refine ⟨fun _ => ⟨done ++ [hdl], ?_, hterm, hgoing.opened, .inl ⟨rest', rfl, ?_, ?_⟩⟩,
      fun h => absurd trivial h⟩
    · simp [SendingSystem.sent, hhandler, hopen, hgoing.sent]
    · rw [hhdls, List.append_assoc, List.singleton_append]
    · exact fun k hk => hrest k (List.mem_cons_of_mem _ hk)
  | raised m o hdl rest' hs hterm hopen =>
    rw [hhandler] at hs
    cases hs
    have hmem : hdl ∈ hdls := hhdls ▸ List.mem_append_right _ (List.mem_cons_self ..)
    exact absurd ⟨hgoing.opened hdl hmem, hrest hdl (List.mem_cons_self ..)⟩ hopen

/-- Whether the loop is still going is decided by the connections that are closing when the message
arrives and by the steps so far. -/
theorem Handling.going_iff {now : Time} {s t u : SendingSystem Hdl} {hdl : Hdl} {msg : WsMessage}
    {as : List (SendingAction Hdl)} (hs : Reachable step (init now) s)
    (h : Handling s hdl msg t as u) :
    (s.system.closing = ∅ ∧ Meets step Undisturbed t as →
      ∃ done, Going s.system.conn.server.connUserMap.keys (s.system.broadcast hdl msg).message
        msg.opcode done (t.sends as) u) ∧
      (¬ (s.system.closing = ∅ ∧ Meets step Undisturbed t as) → u.Lost) := by
  obtain ⟨-, hterm, -, hconn, hclosing, hhandler⟩ := arrives_spec hs h.arrives
  have hinv := System.inv_of_reachable (system_reachable hs)
  have hkeys : ∀ k, k ∈ s.system.conn.server.connUserMap.keys ↔ s.system.conn.phase k = .opened := by
    intro k
    rw [ExtTreeMap.mem_keys, hinv.mem_connUserMap]
  have ht : Reachable step (init now) t := hs.concat h.arrives
  refine run_history_induction (P := fun p v => p <+: as →
    (s.system.closing = ∅ ∧ Meets step Undisturbed t p → ∃ done, Going _ _ _ done (t.sends p) v) ∧
      (¬ (s.system.closing = ∅ ∧ Meets step Undisturbed t p) → v.Lost)) ?_ ?_ h.runs
    (List.prefix_refl as)
  · intro _
    constructor
    · rintro ⟨hempty, -⟩
      refine ⟨[], rfl, hterm, fun k hk => by rw [hconn]; exact (hkeys k).mp hk, .inl ⟨_, hhandler, rfl,
        fun k _ => ?_⟩⟩
      rw [hclosing, hempty]
      exact Finset.notMem_empty k
    · intro hne
      obtain ⟨k, hk⟩ := Finset.nonempty_iff_ne_empty.mpr fun hempty => hne ⟨hempty, meets_nil⟩
      have hopened := System.opened_of_mem_closing (system_reachable hs) k hk
      refine .inr (.inr ⟨k, ?_, by rwa [hclosing]⟩)
      rw [hhandler]
      exact (hkeys k).mpr hopened
  · intro p v a w hp ih hstep hpre
    have hp' : p <+: as := (List.prefix_append p [a]).trans hpre
    obtain ⟨hgo, hlost⟩ := ih hp'
    have hsending : v.Sending := by
      refine h.running p v hp' ?_ hp
      rintro rfl
      have hlen := hpre.length_le
      simp only [List.length_append, List.length_singleton] at hlen
      omega
    have hinv' := System.inv_of_reachable (system_reachable (ht.run hp))
    have hlast : (∀ x, run step t p = some x → x.Undisturbed a) ↔ v.Undisturbed a := by
      simp [hp]
    rw [meets_concat, hlast, ← and_assoc, sends_concat hp]
    by_cases hmet : s.system.closing = ∅ ∧ Meets step Undisturbed t p
    · obtain ⟨done, hgoing⟩ := hgo hmet
      obtain ⟨hnext, hleft⟩ := going_step hinv' hsending hgoing hstep
      exact ⟨fun hund => hnext hund.2, fun hdist => hleft fun hund => hdist ⟨hmet, hund⟩⟩
    · exact ⟨fun hund => absurd hund.1 hmet, fun _ => lost_step hsending (hlost hmet) hstep⟩

/-- **A message that arrives is sent to every open connection exactly if no connection is closing
then, and no disconnection closes one that its loop has still to come to.** -/
theorem sent_to_all_iff {now : Time} {s t u : SendingSystem Hdl} {hdl : Hdl} {msg : WsMessage}
    {as : List (SendingAction Hdl)} (hs : Reachable step (init now) s)
    (h : Handling s hdl msg t as u) :
    SentToAll s hdl msg u (t.sends as) ↔
      s.system.closing = ∅ ∧ Meets step Undisturbed t as := by
  obtain ⟨hgo, hlost⟩ := h.going_iff hs
  constructor
  · rintro ⟨hterm, hreturned, -⟩
    by_contra hnot
    rcases hlost hnot with hterm' | hraised | ⟨k, hk, -⟩
    · exact absurd (hterm'.symm.trans hterm) (by decide)
    · rw [hreturned] at hraised
      cases hraised
    · simp [hreturned, HandlerState.remaining] at hk
  · intro hmet
    obtain ⟨done, hgoing⟩ := hgo hmet
    have hend : u.handler = .returned ∧ done = s.system.conn.server.connUserMap.keys := by
      refine hgoing.handler.resolve_left ?_
      rintro ⟨rest, hrest, -⟩
      rcases h.ended with hended | hterm
      · exact hended ⟨_, hrest⟩
      · exact absurd (hgoing.running.symm.trans hterm) (by decide)
    obtain ⟨hreturned, rfl⟩ := hend
    refine ⟨hgoing.running, hreturned, fun k hk => ?_⟩
    -- a key of the map occurs once in the loop
    have hmem : k ∈ s.system.conn.server.connUserMap.keys := by
      rw [ExtTreeMap.mem_keys,
        (System.inv_of_reachable (system_reachable hs)).mem_connUserMap]
      exact hk.1
    have hcount := List.count_eq_one_of_mem ExtTreeMap.nodup_keys hmem
    rw [hgoing.sent, List.filter_map]
    simp only [Function.comp_def, List.filter_eq, hcount, List.replicate_one, List.map_singleton]

theorem Handling.of_take {s t u : SendingSystem Hdl} {hdl : Hdl} {msg : WsMessage}
    {as : List (SendingAction Hdl)}
    (harrives : s.step (.act (.call (.messageHandler hdl msg))) = some t)
    (hruns : run step t as = some u)
    (hrunning : ∀ k < as.length, ∀ v ∈ run step t (as.take k), v.Sending)
    (hended : ¬ u.Sending ∨ u.system.terminated = true) : Handling s hdl msg t as u where
  arrives := harrives
  runs := hruns
  running p v hp hne hv := by
    have htake := List.prefix_iff_eq_take.mp hp
    have hlt : p.length < as.length :=
      Nat.lt_of_le_of_ne hp.length_le fun h => hne (hp.eq_of_length h)
    exact hrunning p.length hlt v (by rwa [← htake])
  ended := hended

/-- Two connections are opened. -/
def opened : List (SendingAction ℕ) :=
  [.act (.call (.validateHandler 1 (Connections.requestNamed "bob"))), .act (.call (.openHandler 1)),
    .act (.call (.validateHandler 2 (Connections.requestNamed "alice"))),
    .act (.call (.openHandler 2))]

/-- The event that disconnects the first connection is sent and taken from the queue. -/
def kickPopped : List (SendingAction ℕ) :=
  opened ++ [.act (.kickUser (bytes "bob")), .act .popEvent, .act .popEvent, .act .popEvent]

/-- The close frame of the first connection arrives. -/
def peerLeft : List (SendingAction ℕ) := opened ++ [.act (.peerClose 1)]

/-- The message of the second connection. -/
def greeting : WsMessage := ⟨bytes "hi", .text⟩

theorem kickPopped_runs : (run step (init 0) kickPopped).isSome = true := by decide

/-- The thread that disconnects the first connection was started. -/
def kicking : SendingSystem ℕ := (run step (init 0) kickPopped).get kickPopped_runs

theorem reachable_kicking : Reachable step (init 0) kicking := ⟨kickPopped, (Option.some_get _).symm⟩

theorem kicking_steps :
    (kicking.step (.act (.call (.messageHandler 2 greeting)))).isSome = true := by decide

/-- A message has arrived, and nothing is closing. -/
def kickingLooped : SendingSystem ℕ := (kicking.step _).get kicking_steps

/-- The first connection is disconnected before the loop has come to it. -/
def kickedBefore : List (SendingAction ℕ) := [.act (.runThread 2), .sendNext]

/-- The first connection is disconnected when the loop has passed it. -/
def kickedAfter : List (SendingAction ℕ) := [.sendNext, .act (.runThread 2), .sendNext, .sendNext]

theorem kickedBefore_runs : (run step kickingLooped kickedBefore).isSome = true := by decide

theorem kickedAfter_runs : (run step kickingLooped kickedAfter).isSome = true := by decide

theorem sent_to_all_kickedAfter :
    SentToAll kicking 2 greeting ((run step kickingLooped kickedAfter).get kickedAfter_runs)
        (kickingLooped.sends kickedAfter) ↔
      kicking.system.closing = ∅ ∧ Meets step Undisturbed kickingLooped kickedAfter :=
  sent_to_all_iff reachable_kicking (.of_take (Option.some_get _).symm (Option.some_get _).symm
    (by decide) (by decide))

theorem peerLeft_runs : (run step (init 0) peerLeft).isSome = true := by decide

/-- The first connection is closing. -/
def peerClosing : SendingSystem ℕ := (run step (init 0) peerLeft).get peerLeft_runs

theorem peerClosing_steps :
    (peerClosing.step (.act (.call (.messageHandler 2 greeting)))).isSome = true := by decide

/-- A message has arrived while the first connection is closing. -/
def peerClosingLooped : SendingSystem ℕ := (peerClosing.step _).get peerClosing_steps

theorem peerClosingLooped_runs : (run step peerClosingLooped [.sendNext]).isSome = true := by decide

/-- While the first connection is closing, a message raises an exception and does not even reach its
sender. It does the same if the disconnection of the first connection begins in the loop. -/
theorem message_lost_while_closing :
    Reachable step (init 0) peerClosing ∧ peerClosing.system.IsOpen 2 ∧
      (∃ u, Handling peerClosing 2 greeting peerClosingLooped [.sendNext] u ∧ u.handler = .raised ∧
        peerClosingLooped.sends [.sendNext] = [] ∧
        ¬ SentToAll peerClosing 2 greeting u (peerClosingLooped.sends [.sendNext])) ∧
      kicking.system.closing = ∅ ∧
      ∃ u, Handling kicking 2 greeting kickingLooped kickedBefore u ∧ u.handler = .raised ∧
        kickingLooped.sends kickedBefore = [] ∧
        ¬ SentToAll kicking 2 greeting u (kickingLooped.sends kickedBefore) := by
  refine ⟨⟨peerLeft, (Option.some_get _).symm⟩, by decide, ?_, by decide, ?_⟩
  · refine ⟨(run step peerClosingLooped [.sendNext]).get peerClosingLooped_runs,
      .of_take (Option.some_get _).symm (Option.some_get _).symm (by decide) (by decide), by decide,
      by decide, ?_⟩
    rintro ⟨-, hreturned, -⟩
    revert hreturned
    decide
  · refine ⟨(run step kickingLooped kickedBefore).get kickedBefore_runs,
      .of_take (Option.some_get _).symm (Option.some_get _).symm (by decide) (by decide), by decide,
      by decide, ?_⟩
    rintro ⟨-, hreturned, -⟩
    revert hreturned
    decide

end SendingSystem

end SimpleChat
