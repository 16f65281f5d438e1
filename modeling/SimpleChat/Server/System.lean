import SimpleChat.ClientMgr.Handlers
import SimpleChat.EventBus.Subscriptions
import SimpleChat.Transition.Dispatcher
import SimpleChat.WebsocketServer.LifeCycle

/-!
# The server

The components of the server, as `main` connects them. The handlers of the websocket server send
events; `EventBus::Cyclic` takes them from its queue in order and starts a detached thread for each,
which runs the callbacks of the subscribers on threads of their own. These threads take their
sections in any order. `ClientMgr::Cyclic` and the REST server send the events that disconnect users.

A connection is closing from `srv.close`, or the peer's close frame, until its `CloseHandler`.
`srv.send` and `srv.close` raise an exception on a connection that is not open: in `MessageHandler`
it leaves the handler, in the thread of a callback it terminates the server. That the server runs on
after an exception has left a handler is assumed of websocketpp, for nothing around `srv.run` catches
it.

The step that calls `MessageHandler` is its snapshot of `conn_user_map` with its event; what it sends
does not change the server. `Server/Broadcast.lean` takes its loop apart. A step that runs
`Logger::NewMessage` or `DbManager::NewMessage` records that it ran: what the log and the table then
hold is said in `Server/LogFiles.lean` and `Server/History.lean`.

## Main definitions

* `mainCalls`, `subscribers`: the subscriptions that `main` sets up
* `Work`, `callbacks`: the sections of the callbacks, and the callbacks that an event starts
* `System`, `System.step`: the server and its steps

## Main results

* `subscribers_spec`: the bus, after the calls of `main`, delivers to exactly the `subscribers`
* `System.step_cases`: every step is one of `StepCases`
* `System.call_effect`, `System.step_effect`: what each step does to the client manager
* `System.close_cases`: what each step does to the connections that are closing
* `System.conn_run`: the calls of a run are a run of the connections
* `System.opened_of_mem_closing`: a closing connection was opened, and its `CloseHandler` did not run
-/

namespace SimpleChat

open Containers Std Transition

/-! ## Subscriptions -/

/-- The calls that the constructors make of the bus: `ClientMgr` has the id 0, `Logger` 1,
`DbManager` 2 and `WebsocketServer` 3. -/
def mainCalls : List (BusCall ReceiverId) :=
  [.addReceiver 0, .subscribe 0 .connectionOpened, .subscribe 0 .connectionClosed,
    .subscribe 0 .newMessage, .subscribe 0 .getUsers,
    .addReceiver 1, .subscribe 1 .newMessage,
    .addReceiver 2, .subscribe 2 .newMessage,
    .addReceiver 3, .subscribe 3 .disconnectUser]

/-- The receivers of an event. -/
def subscribers (e : EventId) : List ReceiverId :=
  [0, 1, 2, 3].filter fun id => (id, e) ∈ (Subscriptions.after mainCalls).pairs

/-- After the calls of `main`, the delivery of an event runs the callbacks of its subscribers. -/
theorem subscribers_spec (receivers : ReceiverId → EventReceiver)
    (hid : ∀ id, (receivers id).id = id) :
    ∃ b, run EventBus.next (EventBus.init receivers) mainCalls = some b ∧
      ∀ e, e.IsValid → ∃ ret threads, b.sendSync e = some (ret, threads) ∧
        threads.Perm (subscribers e) := by
  have hids : (fun ref => (receivers ref).id) = id := funext hid
  have hcalls : mainCalls.map (BusCall.map id) = mainCalls := by decide
  have hknown : ∀ p ∈ (Subscriptions.after mainCalls).pairs, p.1 ∈ ([0, 1, 2, 3] : List ℤ) := by
    decide
  obtain ⟨b, hb, href, hsame⟩ := EventBus.refines_run receivers mainCalls
  rw [hids, hcalls] at href
  refine ⟨b, hb, fun e hv => ?_⟩
  have hreg : ∀ id, b.Indexed id e → ∃ ref, b.Registered id ref := fun id h =>
    href.exists_registered (href.pairs_registered id e ((href.indexed id e).mp h))
  obtain ⟨ret, threads, hsend, hnodup, -, hmem⟩ :=
    EventBus.sendSync_spec href.toWellFormed hv hreg
  simp only [hsame, hid, List.map_id'] at hnodup hmem
  refine ⟨ret, threads, hsend, ?_⟩
  -- neither list repeats a receiver, so they need only have the same elements
  have hsub : (subscribers e).Nodup := List.Nodup.filter _ (by decide)
  rw [List.perm_ext_iff_of_nodup hnodup hsub]
  intro id
  rw [hmem, href.indexed, subscribers, List.mem_filter, decide_eq_true_iff]
  exact ⟨fun h => ⟨hknown _ h, h⟩, And.right⟩

/-- A section of a callback. -/
inductive Work where
  | clientMgr (x : ClientMgr.Section)
  | appendLog (message : Message)
  | insertRow (message : Message)
  | disconnectUser (user : User)
  deriving DecidableEq, Repr

/-- The `EventHandler` of each receiver. -/
def eventHandler (id : ReceiverId) (e : Event) : List Work :=
  match id, e with
  | 0, e => (ClientMgr.eventHandler e).map .clientMgr
  | 1, .newMessage message => [.appendLog message]
  | 2, .newMessage message => [.insertRow message]
  | 3, .disconnectUser user => [.disconnectUser user]
  | _, _ => []

/-- The callbacks that an event starts, each with its sections. -/
def callbacks (e : Event) : List (List Work) :=
  (subscribers e.getEventId).map fun id => eventHandler id e

theorem subscribers_eq : subscribers .connectionOpened = [0] ∧ subscribers .newMessage = [0, 1, 2] ∧
    subscribers .connectionClosed = [0] ∧ subscribers .connectionFailed = [] ∧
    subscribers .disconnectUser = [3] := by decide

/-- The sections that an event leads to. -/
theorem flatten_callbacks (e : Event) : (callbacks e).flatten =
    match e with
    | .connectionOpened u => [.clientMgr (.setTimeout u), .clientMgr (.insertUser u)]
    | .newMessage m => [.clientMgr (.setTimeout m.user), .appendLog m, .insertRow m]
    | .connectionClosed u => [.clientMgr (.eraseTimeout u), .clientMgr (.eraseUser u)]
    | .connectionFailed _ => []
    | .disconnectUser u => [.disconnectUser u] := by
  obtain ⟨h₁, h₂, h₃, h₄, h₅⟩ := subscribers_eq
  cases e <;> simp only [callbacks, Event.getEventId, h₁, h₂, h₃, h₄, h₅] <;> rfl

/-! ## The system -/

/-- The server, with the connections that are closing and the snapshot entries that
`ClientMgr::Cyclic` has still to look at. `logged` and `rows` are the messages for which
`Logger::NewMessage` and `DbManager::NewMessage` ran, whatever became of their line and row. -/
structure System (Hdl : Type) [LinearOrder Hdl] where
  conn : Connections Hdl
  closing : Finset Hdl
  bus : Dispatcher Event Work
  clientMgr : ClientMgr
  snapshot : List (User × Time)
  clock : Time
  logged : List Message
  rows : List Message
  terminated : Bool

/-- The steps of the server and of its surroundings. -/
inductive Action (Hdl : Type) where
  /-- websocketpp calls a handler. -/
  | call (c : Call Hdl)
  /-- The close frame of a peer arrives. -/
  | peerClose (hdl : Hdl)
  /-- `RestServer::Handler_KickUser` -/
  | kickUser (username : Bytes)
  /-- `ClientMgr::Cyclic` takes its snapshot. -/
  | takeSnapshot
  /-- `ClientMgr::Cyclic` looks at the next entry of its snapshot. -/
  | checkEntry
  /-- Time passes. -/
  | advance (seconds : ℕ)
  /-- `EventBus::Cyclic` takes an event from its queue. -/
  | popEvent
  /-- The thread of a callback runs its next section. -/
  | runThread (i : ℕ)
  deriving Repr

namespace System

variable {Hdl : Type} [LinearOrder Hdl]

def init (now : Time) : System Hdl where
  conn := .init
  closing := ∅
  bus := .empty
  clientMgr := .init
  snapshot := []
  clock := now
  logged := []
  rows := []
  terminated := false

/-- The websocketpp state of the connection is open. -/
def IsOpen (s : System Hdl) (hdl : Hdl) : Prop := s.conn.phase hdl = .opened ∧ hdl ∉ s.closing

instance (s : System Hdl) (hdl : Hdl) : Decidable (s.IsOpen hdl) :=
  inferInstanceAs (Decidable (_ ∧ _))

def sendAsync (s : System Hdl) (e : Event) : System Hdl := { s with bus := s.bus.send e }

/-- A message arrives only while its connection is open. -/
def Admits (s : System Hdl) : Call Hdl → Prop
  | .messageHandler hdl _ => hdl ∉ s.closing
  | _ => True

instance (s : System Hdl) (c : Call Hdl) : Decidable (s.Admits c) := by
  cases c <;> unfold Admits <;> infer_instance

/-- The close handshake of a connection is over when its `CloseHandler` runs. -/
def closingAfter (s : System Hdl) : Call Hdl → Finset Hdl
  | .closeHandler hdl => s.closing.erase hdl
  | _ => s.closing

/-- A call of a handler, which sends its event. -/
def handle (s : System Hdl) (c : Call Hdl) : Option (System Hdl) :=
  if s.Admits c then
    (s.conn.step (s.clock, c)).map fun conn =>
      { s with
        conn := conn
        closing := s.closingAfter c
        bus := (s.conn.server.sentEvent s.clock c).elim s.bus s.bus.send }
  else none

/-- `CloseConnection`. Nothing catches the exception of `srv.close` on the thread of a callback. -/
def closeConnection (s : System Hdl) (hdl : Hdl) : System Hdl :=
  if s.IsOpen hdl then { s with closing := insert hdl s.closing } else { s with terminated := true }

/-- A section of a callback. -/
def perform (s : System Hdl) : Work → System Hdl
  | .clientMgr x => { s with clientMgr := s.clientMgr.perform s.clock x }
  | .appendLog message => { s with logged := s.logged ++ [message] }
  | .insertRow message => { s with rows := s.rows ++ [message] }
  | .disconnectUser user =>
    match s.conn.server.disconnectUser user with
    | none => s
    | some hdl => s.closeConnection hdl

def step (s : System Hdl) (a : Action Hdl) : Option (System Hdl) :=
  if s.terminated then none
  else match a with
    | .call c => s.handle c
    | .peerClose hdl =>
      if s.IsOpen hdl then some { s with closing := insert hdl s.closing } else none
    | .kickUser username => some (s.sendAsync (.disconnectUser (.ofUsername username)))
    | .takeSnapshot =>
      -- the loop over the snapshot before is over
      if s.snapshot = [] then some { s with snapshot := s.clientMgr.userTimeouts.toList } else none
    | .checkEntry =>
      match s.snapshot with
      | [] => none
      | entry :: snapshot =>
        let s' : System Hdl := { s with snapshot := snapshot }
        some (if ClientMgr.isIdle s.clock entry then s'.sendAsync (.disconnectUser entry.1) else s')
    | .advance seconds => some { s with clock := s.clock + seconds }
    | .popEvent => (s.bus.pop callbacks).map fun bus => { s with bus := bus }
    | .runThread i => (s.bus.take i).map fun r => ({ s with bus := r.2 } : System Hdl).perform r.1

/-! ## What a step does -/

/-- A server that was terminated takes no step. -/
theorem running_of_step {s s' : System Hdl} {a : Action Hdl} (h : s.step a = some s') :
    s.terminated = false := by
  by_contra hne
  simp [step, hne] at h

/-- What a step does, action by action. -/
inductive StepCases (s : System Hdl) : Action Hdl → System Hdl → Prop
  | call (c : Call Hdl) (conn : Connections Hdl) (hadm : s.Admits c)
      (hconn : s.conn.step (s.clock, c) = some conn) :
      StepCases s (.call c)
        { s with
          conn := conn
          closing := s.closingAfter c
          bus := (s.conn.server.sentEvent s.clock c).elim s.bus s.bus.send }
  | peerClose (hdl : Hdl) (hopen : s.IsOpen hdl) :
      StepCases s (.peerClose hdl) { s with closing := insert hdl s.closing }
  | kickUser (username : Bytes) :
      StepCases s (.kickUser username) (s.sendAsync (.disconnectUser (.ofUsername username)))
  | takeSnapshot (hended : s.snapshot = []) :
      StepCases s .takeSnapshot { s with snapshot := s.clientMgr.userTimeouts.toList }
  | idleEntry (entry : User × Time) (rest : List (User × Time)) (hs : s.snapshot = entry :: rest)
      (hidle : ClientMgr.isIdle s.clock entry = true) :
      StepCases s .checkEntry
        (({ s with snapshot := rest } : System Hdl).sendAsync (.disconnectUser entry.1))
  | busyEntry (entry : User × Time) (rest : List (User × Time)) (hs : s.snapshot = entry :: rest)
      (hbusy : ClientMgr.isIdle s.clock entry = false) :
      StepCases s .checkEntry { s with snapshot := rest }
  | advance (seconds : ℕ) : StepCases s (.advance seconds) { s with clock := s.clock + seconds }
  | popEvent (bus : Dispatcher Event Work) (hpop : s.bus.pop callbacks = some bus) :
      StepCases s .popEvent { s with bus := bus }
  | runThread (i : ℕ) (w : Work) (bus : Dispatcher Event Work) (hi : s.bus.take i = some (w, bus)) :
      StepCases s (.runThread i) (({ s with bus := bus } : System Hdl).perform w)

theorem step_cases {s s' : System Hdl} {a : Action Hdl} (h : s.step a = some s') :
    StepCases s a s' := by
  unfold step at h
  split at h
  · cases h
  · cases a with
    | call c =>
      simp only [handle, Option.ite_none_right_eq_some, Option.map_eq_some_iff] at h
      obtain ⟨hadm, conn, hconn, rfl⟩ := h
      exact .call c conn hadm hconn
    | peerClose hdl =>
      simp only [Option.ite_none_right_eq_some, Option.some.injEq] at h
      obtain ⟨hopen, rfl⟩ := h
      exact .peerClose hdl hopen
    | kickUser username =>
      obtain rfl := Option.some.inj h
      exact .kickUser username
    | takeSnapshot =>
      simp only [Option.ite_none_right_eq_some, Option.some.injEq] at h
      obtain ⟨hended, rfl⟩ := h
      exact .takeSnapshot hended
    | checkEntry =>
      simp only at h
      split at h
      · cases h
      · next entry rest hs =>
        obtain rfl := Option.some.inj h
        split
        · next hidle => exact .idleEntry entry rest hs hidle
        · next hbusy => exact .busyEntry entry rest hs (by simpa using hbusy)
    | advance seconds =>
      obtain rfl := Option.some.inj h
      exact .advance seconds
    | popEvent =>
      obtain ⟨bus, hpop, rfl⟩ := Option.map_eq_some_iff.mp h
      exact .popEvent bus hpop
    | runThread i =>
      obtain ⟨⟨w, bus⟩, hi, rfl⟩ := Option.map_eq_some_iff.mp h
      exact .runThread i w bus hi

/-- The sections that the callbacks of the events sent so far have still to run. -/
def pending (s : System Hdl) : List Work := s.bus.pending callbacks

/-- What a step does to the connections, to the client manager and to the pending sections. -/
inductive StepEffect (s : System Hdl) : Action Hdl → System Hdl → Prop
  | handled (c : Call Hdl) (s' : System Hdl) (hadm : s.Admits c)
      (hconn : s.conn.step (s.clock, c) = some s'.conn) (hmgr : s'.clientMgr = s.clientMgr)
      (hpending : s'.pending = s.pending ++
        ((s.conn.server.sentEvent s.clock c).elim [] fun e => (callbacks e).flatten))
      (hclosing : s'.closing = s.closingAfter c) (hterm : s'.terminated = s.terminated) :
      StepEffect s (.call c) s'
  | ran (i : ℕ) (w : Work) (bus : Dispatcher Event Work) (hi : s.bus.take i = some (w, bus)) :
      StepEffect s (.runThread i) (({ s with bus := bus } : System Hdl).perform w)
  | other (a : Action Hdl) (s' : System Hdl) (ha : ∀ i, a ≠ .runThread i) (hconn : s'.conn = s.conn)
      (hmgr : s'.clientMgr = s.clientMgr) (ws : List Work) (hpending : s'.pending = s.pending ++ ws)
      (hws : ∀ w ∈ ws, ∃ u, w = .disconnectUser u)
      (hclosing : ∀ k ∈ s'.closing, k ∈ s.closing ∨ s.IsOpen k)
      (hterm : s'.terminated = s.terminated) : StepEffect s a s'

/-- A step that leaves the pending sections alone. -/
theorem StepEffect.silent {s : System Hdl} {a : Action Hdl} {s' : System Hdl}
    (ha : ∀ i, a ≠ .runThread i) (hconn : s'.conn = s.conn) (hmgr : s'.clientMgr = s.clientMgr)
    (hpending : s'.pending = s.pending) (hclosing : ∀ k ∈ s'.closing, k ∈ s.closing ∨ s.IsOpen k)
    (hterm : s'.terminated = s.terminated) : StepEffect s a s' :=
  .other a s' ha hconn hmgr [] (by rw [hpending, List.append_nil]) (by simp) hclosing hterm

/-- A step that sends the event of a disconnection. -/
theorem StepEffect.disconnecting {s : System Hdl} {a : Action Hdl} {s' : System Hdl}
    (ha : ∀ i, a ≠ .runThread i) (hconn : s'.conn = s.conn) (hmgr : s'.clientMgr = s.clientMgr)
    (u : User) (hbus : s'.bus = s.bus.send (.disconnectUser u)) (hclosing : s'.closing = s.closing)
    (hterm : s'.terminated = s.terminated) : StepEffect s a s' := by
  refine .other a s' ha hconn hmgr [.disconnectUser u] ?_ (by simp) ?_ hterm
  · rw [pending, hbus, s.bus.pending_send, flatten_callbacks]
    rfl
  · intro k hk
    exact .inl (hclosing ▸ hk)

/-- A call of a handler takes one step of the connections and sends the event of the handler. -/
theorem call_effect {s s' : System Hdl} {c : Call Hdl} (h : s.step (.call c) = some s') :
    s.Admits c ∧ s.conn.step (s.clock, c) = some s'.conn ∧ s'.clientMgr = s.clientMgr ∧
      s'.pending = s.pending ++
        ((s.conn.server.sentEvent s.clock c).elim [] fun e => (callbacks e).flatten) ∧
      s'.closing = s.closingAfter c ∧ s'.terminated = s.terminated := by
  cases step_cases h with
  | call _ conn hadm hconn =>
    refine ⟨hadm, hconn, rfl, ?_, rfl, rfl⟩
    cases hsent : s.conn.server.sentEvent s.clock c with
    | none => simp [pending]
    | some e => simpa [pending, hsent] using s.bus.pending_send e

/-- Only the threads of callbacks run `NewMessage`, and the clock does not go back. -/
theorem frame_of_step {s s' : System Hdl} {a : Action Hdl} (h : s.step a = some s')
    (ha : ∀ i, a ≠ .runThread i) :
    s'.logged = s.logged ∧ s'.rows = s.rows ∧ s.clock ≤ s'.clock := by
  cases step_cases h with
  | advance seconds => exact ⟨rfl, rfl, by simp⟩
  | runThread i w bus hi => exact absurd rfl (ha i)
  | _ => exact ⟨rfl, rfl, le_rfl⟩

theorem step_effect {s s' : System Hdl} {a : Action Hdl} (h : s.step a = some s') :
    StepEffect s a s' := by
  cases step_cases h with
  | call c conn =>
    obtain ⟨hadm, hconn, hmgr, hpending, hclosing, hterm⟩ := call_effect h
    exact .handled c _ hadm hconn hmgr hpending hclosing hterm
  | peerClose hdl hopen =>
    refine .silent nofun rfl rfl rfl ?_ rfl
    intro k hk
    rcases Finset.mem_insert.mp hk with rfl | hk
    · exact .inr hopen
    · exact .inl hk
  | kickUser username => exact .disconnecting nofun rfl rfl (.ofUsername username) rfl rfl rfl
  | takeSnapshot hended => exact .silent nofun rfl rfl rfl (fun _ => .inl) rfl
  | idleEntry entry rest hs hidle => exact .disconnecting nofun rfl rfl entry.1 rfl rfl rfl
  | busyEntry entry rest hs hbusy => exact .silent nofun rfl rfl rfl (fun _ => .inl) rfl
  | advance seconds => exact .silent nofun rfl rfl rfl (fun _ => .inl) rfl
  | popEvent bus hpop =>
    exact .silent nofun rfl rfl (Dispatcher.pending_pop hpop) (fun _ => .inl) rfl
  | runThread i w bus hi => exact .ran i w bus hi

/-- A disconnection begins the close of a connection, or terminates the server. -/
theorem perform_disconnectUser (s : System Hdl) (u : User) : ∃ closing terminated,
    s.perform (.disconnectUser u) = { s with closing := closing, terminated := terminated } := by
  cases hd : s.conn.server.disconnectUser u with
  | none => exact ⟨s.closing, s.terminated, by simp [perform, hd]⟩
  | some hdl =>
    by_cases ho : s.IsOpen hdl
    · exact ⟨insert hdl s.closing, s.terminated, by simp [perform, hd, closeConnection, ho]⟩
    · exact ⟨s.closing, true, by simp [perform, hd, closeConnection, ho]⟩

/-- The step handles a `DISCONNECT_USER` event of the user. -/
def Handles (s : System Hdl) (a : Action Hdl) (user : User) : Prop :=
  ∃ i bus, a = .runThread i ∧ s.bus.take i = some (.disconnectUser user, bus)

/-- What a step does to the connections that are closing. -/
inductive CloseCases (s : System Hdl) (a : Action Hdl) (s' : System Hdl) : Prop
  | ended (hdl : Hdl) (ha : a = .call (.closeHandler hdl))
      (hclosing : s'.closing = s.closing.erase hdl) (hterm : s'.terminated = s.terminated)
  | byPeer (hdl : Hdl) (ha : a = .peerClose hdl) (hopen : s.IsOpen hdl)
      (hclosing : s'.closing = insert hdl s.closing) (hterm : s'.terminated = s.terminated)
  | kicked (user : User) (hdl : Hdl) (hhandles : s.Handles a user)
      (htarget : s.conn.server.disconnectUser user = some hdl) (hopen : s.IsOpen hdl)
      (hclosing : s'.closing = insert hdl s.closing) (hterm : s'.terminated = s.terminated)
  | doubled (user : User) (hdl : Hdl) (hhandles : s.Handles a user)
      (htarget : s.conn.server.disconnectUser user = some hdl) (hopen : ¬ s.IsOpen hdl)
      (hclosing : s'.closing = s.closing) (hterm : s'.terminated = true)
  | kept (hnone : ∀ user, s.Handles a user → s.conn.server.disconnectUser user = none)
      (hclosing : s'.closing = s.closing) (hterm : s'.terminated = s.terminated)

theorem Handles.unique {s : System Hdl} {a : Action Hdl} {u v : User} (hu : s.Handles a u)
    (hv : s.Handles a v) : u = v := by
  obtain ⟨i, bus, rfl, hi⟩ := hu
  obtain ⟨j, bus', hj, hj'⟩ := hv
  obtain rfl := Action.runThread.inj hj
  rw [hi] at hj'
  cases hj'
  rfl

theorem close_cases {s s' : System Hdl} {a : Action Hdl} (h : s.step a = some s') :
    CloseCases s a s' := by
  have hother : (∀ i, a ≠ .runThread i) → ∀ user, s.Handles a user →
      s.conn.server.disconnectUser user = none := by
    rintro ha user ⟨i, -, rfl, -⟩
    exact absurd rfl (ha i)
  cases step_cases h with
  | call c conn hadm hconn =>
    cases c with
    | closeHandler hdl => exact .ended hdl rfl rfl rfl
    | _ => exact .kept (hother nofun) rfl rfl
  | peerClose hdl hopen => exact .byPeer hdl rfl hopen rfl rfl
  | runThread i w bus hi =>
    cases w with
    | disconnectUser user =>
      have hhandles : s.Handles (.runThread i) user := ⟨i, bus, rfl, hi⟩
      cases htarget : s.conn.server.disconnectUser user with
      | none =>
        refine .kept (fun v hv => hv.unique hhandles ▸ htarget) ?_ ?_ <;> simp [perform, htarget]
      | some hdl =>
        by_cases hopen : s.IsOpen hdl
        · have hopen' : ({ s with bus := bus } : System Hdl).IsOpen hdl := hopen
          refine .kicked user hdl hhandles htarget hopen ?_ ?_ <;>
            simp [perform, htarget, closeConnection, hopen']
        · have hopen' : ¬ ({ s with bus := bus } : System Hdl).IsOpen hdl := hopen
          refine .doubled user hdl hhandles htarget hopen ?_ ?_ <;>
            simp [perform, htarget, closeConnection, hopen']
    | _ =>
      refine .kept ?_ rfl rfl
      rintro user ⟨j, bus', hj, hj'⟩
      obtain rfl := Action.runThread.inj hj
      rw [hi] at hj'
      cases hj'
  | _ => exact .kept (hother nofun) rfl rfl

/-- A section of a callback leaves the connections to websocketpp. It changes no queue, no snapshot
and not the clock. -/
theorem perform_frame (s : System Hdl) (w : Work) :
    (s.perform w).conn = s.conn ∧ (s.perform w).bus = s.bus ∧ (s.perform w).clock = s.clock ∧
      (s.perform w).snapshot = s.snapshot := by
  cases w with
  | disconnectUser u =>
    obtain ⟨closing, terminated, hs⟩ := s.perform_disconnectUser u
    rw [hs]
    exact ⟨rfl, rfl, rfl, rfl⟩
  | _ => exact ⟨rfl, rfl, rfl, rfl⟩

@[simp] theorem perform_conn (s : System Hdl) (w : Work) : (s.perform w).conn = s.conn :=
  (s.perform_frame w).1

@[simp] theorem perform_bus (s : System Hdl) (w : Work) : (s.perform w).bus = s.bus :=
  (s.perform_frame w).2.1

@[simp] theorem perform_clock (s : System Hdl) (w : Work) : (s.perform w).clock = s.clock :=
  (s.perform_frame w).2.2.1

@[simp] theorem perform_snapshot (s : System Hdl) (w : Work) :
    (s.perform w).snapshot = s.snapshot :=
  (s.perform_frame w).2.2.2

/-- The clock does not go back. -/
theorem clock_le_of_step {s s' : System Hdl} {a : Action Hdl} (h : s.step a = some s') :
    s.clock ≤ s'.clock := by
  cases step_cases h with
  | runThread i w bus hi => rw [perform_clock]
  | advance seconds => exact (frame_of_step h nofun).2.2
  | _ => exact le_rfl

/-- A section that runs leaves the pending ones, where those of earlier threads stand before it. -/
theorem pending_ran {s : System Hdl} {i : ℕ} {w : Work} {bus : Dispatcher Event Work}
    (hi : s.bus.take i = some (w, bus)) :
    ∃ later, s.pending = s.bus.earlier i ++ w :: later ∧
      (({ s with bus := bus } : System Hdl).perform w).pending = s.bus.earlier i ++ later := by
  obtain ⟨later, hbefore, hafter⟩ := Dispatcher.pending_take callbacks hi
  refine ⟨later, hbefore, ?_⟩
  rw [pending, perform_bus]
  exact hafter

/-- Only its own sections change the client manager. -/
theorem perform_clientMgr (s : System Hdl) {w : Work} (hw : ∀ x, w ≠ .clientMgr x) :
    (s.perform w).clientMgr = s.clientMgr := by
  cases w with
  | clientMgr x => exact absurd rfl (hw x)
  | disconnectUser u =>
    obtain ⟨closing, terminated, hs⟩ := s.perform_disconnectUser u
    rw [hs]
  | _ => rfl

/-- A callback begins the close of open connections only. -/
theorem mem_closing_perform {s : System Hdl} {w : Work} {k : Hdl} (hk : k ∈ (s.perform w).closing) :
    k ∈ s.closing ∨ s.IsOpen k := by
  cases w with
  | disconnectUser u =>
    simp only [perform] at hk
    split at hk
    · exact .inl hk
    · unfold closeConnection at hk
      split at hk
      · next hopen =>
        rcases Finset.mem_insert.mp hk with rfl | hk
        · exact .inr hopen
        · exact .inl hk
      · exact .inl hk
  | _ => exact .inl hk

/-! ## The connections of the server -/

/-- The calls of handlers in a run, each with the time at which it was made. -/
def calls (now : Time) (as : List (Action Hdl)) : List (Time × Call Hdl) :=
  (trace step (fun s _ => s.clock) (init now) as).filterMap fun r =>
    match r.1 with
    | .call c => some (r.2, c)
    | _ => none

theorem calls_concat {now : Time} {as : List (Action Hdl)} {s : System Hdl}
    (hrun : run step (init now) as = some s) (a : Action Hdl) :
    calls now (as ++ [a]) = calls now as ++
      match a with
      | .call c => [(s.clock, c)]
      | _ => [] := by
  rw [calls, trace_concat hrun, List.filterMap_append]
  cases a <;> rfl

/-- The calls of a run are a run of the connections. -/
theorem conn_run {now : Time} {as : List (Action Hdl)} {s : System Hdl}
    (hrun : run step (init now) as = some s) :
    run Connections.step Connections.init (calls now as) = some s.conn := by
  refine run_history_induction (P := fun p t =>
    run Connections.step Connections.init (calls now p) = some t.conn) rfl ?_ hrun
  intro p t a u hp ih hstep
  rw [calls_concat hp]
  cases a with
  | call c =>
    obtain ⟨-, hconn, -⟩ := call_effect hstep
    exact run_concat_eq_some.mpr ⟨t.conn, ih, hconn⟩
  | runThread i =>
    rw [List.append_nil, ih]
    cases step_effect hstep with
    | ran _ w bus hi => rw [perform_conn]
    | other _ _ ha hconn => rw [hconn]
  | _ =>
    rw [List.append_nil, ih]
    cases step_effect hstep with
    | other _ _ ha hconn => rw [hconn]

theorem conn_reachable {now : Time} {s : System Hdl} (h : Reachable step (init now) s) :
    Reachable Connections.step Connections.init s.conn := by
  obtain ⟨as, hrun⟩ := h
  exact ⟨calls now as, conn_run hrun⟩

theorem inv_of_reachable {now : Time} {s : System Hdl} (h : Reachable step (init now) s) :
    s.conn.Inv :=
  Connections.inv_of_reachable (conn_reachable h)

/-- A connection is closing only between its `OpenHandler` and its `CloseHandler`. -/
theorem opened_of_mem_closing {now : Time} {s : System Hdl} (h : Reachable step (init now) s) :
    ∀ k ∈ s.closing, s.conn.phase k = .opened := by
  refine h.invariant (P := fun s => ∀ k ∈ s.closing, s.conn.phase k = .opened) (by simp [init]) ?_
  intro t a u ht hn k hk
  cases step_effect hn with
  | handled c _ hadm hconn hmgr hpending hclosing hterm =>
    rw [hclosing] at hk
    have hstay : k ∈ t.closing ∧ c ≠ .closeHandler k := by
      cases c with
      | closeHandler x =>
        obtain ⟨hne, hk⟩ := Finset.mem_erase.mp hk
        exact ⟨hk, by simpa using hne.symm⟩
      | _ => exact ⟨hk, nofun⟩
    exact Connections.opened_of_step (ht k hstay.1) hstay.2 hconn
  | ran i w bus hi =>
    rw [perform_conn]
    rcases mem_closing_perform hk with hk | hk
    · exact ht k hk
    · exact hk.1
  | other _ _ ha hconn hmgr ws hpending hws hclosing hterm =>
    rw [hconn]
    rcases hclosing k hk with hk | hk
    · exact ht k hk
    · exact hk.1

end System

end SimpleChat
