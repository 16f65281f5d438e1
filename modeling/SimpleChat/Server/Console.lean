import SimpleChat.AdminClient.PrintUsers
import SimpleChat.RestServer.Handlers
import SimpleChat.Protobuf.WireFormat
import SimpleChat.Server.Settling
import SimpleChat.WebsocketServer.Bookkeeping
import SimpleChat.WebsocketServer.Kick

/-!
# The server seen from the console

The console shows the users that `ClientMgr` reports, after they went through the message
`ConnectedUsers`. Once every event is handled, and as far as the roster agrees with the connections,
these are the users of the open connections. A request to kick a user without a name closes nothing.

## Main definitions

* `System.shownOnConsole`: what the console prints in a state of the server
* `Connections.Lists us`: the users of the open connections, in the order of their names
* `ConsoleApp.shown`: what the console is meant to print for some users
* `ConsoleApp.kickBody`, `System.afterKick`: the request that a line typed in leads to, and the
  server once the event of the request is handled

## Main results

* `RestServer.printUsers_handlerGetUsers`: what the console prints for the users that are reported
* `System.console_shows_connections`: the console shows a line for each open connection
* `System.line_kicks_its_user`: a line typed in closes the connections of the user that it names
* `System.nameless_kick_closes_nothing`: a request without a name closes no connection
-/

namespace SimpleChat

open Containers Transition Protobuf

namespace ConsoleApp

/-- A user who joined at the time of the user's timestamp. -/
def shownUser (now : Time) (u : User) : Listed :=
  ⟨u.username, u.ip, u.port, now - u.joinedTimestamp.getD 0⟩

/-- What is to be printed for some users: a line for each, or that there is none. -/
def shown (now : ℕ → Time) (us : List User) : AdminClient.ReturnType × Bytes :=
  if us = [] then (.noLoggedUsers, [])
  else (.ok, printed (us.mapIdx fun i u => shownUser (now i) u))

/-- The body that the console posts when a line is typed in to kick a user, if it posts one. -/
def kickBody (R : Runtime) (line : Bytes) : Option Bytes :=
  (kickUser line).map fun message => (⟨message.username, []⟩ : KickUser R).serialize

/-- The user was stamped, not after the console reads the clock. -/
def JoinedBefore (now : Time) (u : User) : Prop :=
  ∃ t, u.joinedTimestamp = some t ∧ 0 ≤ t ∧ t ≤ now ∧ now < 2 ^ 63

end ConsoleApp

namespace RestServer

variable {R : Runtime}

/-- A stamped user is shown with the time since the stamp. -/
theorem listed_userMessage {now unset : Time} {u : User} (h : ConsoleApp.JoinedBefore now u) :
    ConsoleApp.listed now (userMessage R unset u) = ConsoleApp.shownUser now u := by
  obtain ⟨t, ht, hnonneg, hle, hlt⟩ := h
  -- the difference of the unsigned times does not wrap around
  have hlo : -2 ^ 63 ≤ now - t := le_trans (by decide) (sub_nonneg.mpr hle)
  have hhi : now - t < 2 ^ 63 := lt_of_le_of_lt (sub_le_self now hnonneg) hlt
  have htime := ConsoleApp.onlineTime_eq hlo hhi
  have hlisted : ConsoleApp.listed now (userMessage R unset u) =
      ⟨u.username, u.ip, u.port, ConsoleApp.onlineTime now (UInt64.ofInt t)⟩ := by
    simp [ConsoleApp.listed, userMessage, User.setUsername, User.setIp, User.setPort,
      User.setJoinedTimestamp, ht]
  rw [hlisted, htime, ConsoleApp.shownUser, ht, Option.getD_some]

/-- **The console prints a line for each user that `GET_USERS` reports**, in the order of the
names. -/
theorem printUsers_handlerGetUsers {users : UserSet} {unset : Time} {now : ℕ → Time}
    (dataAvailable : Bytes → Bool) (leftover : Bytes → ConnectedUsers R)
    (hsize : (usersMessage R unset users).byteSizeLong ≤ R.maxSize)
    (htimes : ∀ e ∈ users.toList, ∀ i, ConsoleApp.JoinedBefore (now i) e.1) :
    ConsoleApp.printUsers dataAvailable leftover now ⟨200, handlerGetUsers R unset users⟩ =
      ConsoleApp.shown now (users.toList.map Prod.fst) := by
  have hparse := ConnectedUsers.parseFromString_serialize dataAvailable _ hsize
  have hget : RestApiClient.getUsers dataAvailable leftover
      ⟨200, handlerGetUsers R unset users⟩ = (.ok, usersMessage R unset users) := by
    simp [RestApiClient.getUsers, RestApiClient.post, handlerGetUsers, hparse]
  have hlines : ConsoleApp.listing now (usersMessage R unset users).users =
      (users.toList.map Prod.fst).mapIdx fun i u => ConsoleApp.shownUser (now i) u := by
    rw [users_usersMessage, ConsoleApp.listing]
    refine List.ext_getElem? fun i => ?_
    cases h : users.toList[i]? with
    | none => simp [h]
    | some e =>
      have he := htimes e (List.mem_of_getElem? h) i
      simp [h, listed_userMessage he]
  rw [ConsoleApp.printUsers, hget, ConsoleApp.shown]
  simp only [hlines]
  by_cases hempty : users.toList = []
  · simp [users_usersMessage, hempty]
  · simp [users_usersMessage, hempty, List.length_pos_of_ne_nil hempty]

end RestServer

namespace Connections

variable {Hdl : Type} [LinearOrder Hdl]

/-- The users of the open connections, in the order of their names. -/
structure Lists (s : Connections Hdl) (us : List User) : Prop where
  sorted : us.Pairwise fun u v => compare u.username v.username = .lt
  mem_iff : ∀ u, u ∈ us ↔ ∃ h : Hdl, s.server.connUserMap[h]? = some u

/-- Users that agree with the connections list them. -/
theorem UsersAgree.lists {users : UserSet} {s : Connections Hdl} (h : UsersAgree users s) :
    s.Lists (users.toList.map Prod.fst) where
  sorted := by
    rw [List.pairwise_map]
    exact users.pairwise_toList
  mem_iff u := by
    rw [← h u, List.mem_map]
    constructor
    · rintro ⟨e, he, rfl⟩
      exact ⟨e.2, KeyedMap.mem_toList.mp he⟩
    · rintro ⟨b, hb⟩
      exact ⟨(u, b), KeyedMap.mem_toList.mpr hb, rfl⟩

end Connections

namespace System

variable {Hdl : Type} [LinearOrder Hdl] {R : Runtime}

/-- What the console prints in a state of the server, where its clock shows `now i` at the line of
the `i`-th user. -/
def shownOnConsole (s : System Hdl) (R : Runtime) (unset : Time) (dataAvailable : Bytes → Bool)
    (leftover : Bytes → ConnectedUsers R) (now : ℕ → Time) : AdminClient.ReturnType × Bytes :=
  ConsoleApp.printUsers dataAvailable leftover now
    ⟨200, RestServer.handlerGetUsers R unset s.clientMgr.getUsers⟩

/-- Handlers are called between the start of the run and now. -/
theorem calls_between {start : Time} {as : List (Action Hdl)} {s : System Hdl}
    (hrun : run step (init start) as = some s) :
    start ≤ s.clock ∧ ∀ t c, (t, c) ∈ calls start as → start ≤ t ∧ t ≤ s.clock := by
  refine run_history_induction (P := fun p s => start ≤ s.clock ∧
    ∀ t c, (t, c) ∈ calls start p → start ≤ t ∧ t ≤ s.clock) ?_ ?_ hrun
  · refine ⟨le_rfl, ?_⟩
    intro t c h
    cases h
  · intro p s a s' hp ⟨hstart, hcalls⟩ hstep
    have hle := clock_le_of_step hstep
    refine ⟨le_trans hstart hle, ?_⟩
    intro t c h
    rw [calls_concat hp] at h
    rcases List.mem_append.mp h with h | h
    · obtain ⟨hlo, hhi⟩ := hcalls t c h
      exact ⟨hlo, le_trans hhi hle⟩
    · cases a with
      | call d =>
        obtain ⟨rfl, -⟩ := Prod.mk.inj (List.mem_singleton.mp h)
        exact ⟨hstart, hle⟩
      | _ => cases h

/-- The user of an open connection has a name, and was stamped when the connection was opened. -/
theorem connected_user {start : Time} {as : List (Action Hdl)} {s : System Hdl}
    (hrun : run step (init start) as = some s) {h : Hdl} {u : User}
    (hu : s.conn.server.connUserMap[h]? = some u) :
    u.username ≠ [] ∧ ∃ t, u.joinedTimestamp = some t ∧ start ≤ t ∧ t ≤ s.clock := by
  obtain ⟨v, t, ⟨req, -, hname, rfl⟩, hmem, rfl⟩ :=
    (Connections.presented_of_run (conn_run hrun)).connected h u hu
  exact ⟨hname, t, rfl, (calls_between hrun).2 t _ hmem⟩

/-- **The console shows a line for each open connection**, in the order of the names and with the
time since it was opened, once every event is handled, in every run in which no two open connections
share a name and the users are changed in the order of the events. -/
theorem console_shows_connections {start : Time} {as : List (Action Hdl)} (hstart : 0 ≤ start)
    (hdistinct : Along step (fun s => s.conn.DistinctNames) (init start) as)
    (horder : Meets step UsersInOrder (init start) as) (R : Runtime) (unset : Time)
    (dataAvailable : Bytes → Bool) (leftover : Bytes → ConnectedUsers R) :
    Along step (fun s => s.Settled →
      (RestServer.usersMessage R unset s.clientMgr.getUsers).byteSizeLong ≤ R.maxSize →
      ∀ now : ℕ → Time, (∀ i, s.clock ≤ now i ∧ now i < 2 ^ 63) →
        ∃ us, s.conn.Lists us ∧
          s.shownOnConsole R unset dataAvailable leftover now = ConsoleApp.shown now us)
      (init start) as := by
  intro p t hp ht hsettled hsize now hnow
  have hagree : t.conn.UsersAgree (usersView.completed t) :=
    completed_users_agree hdistinct horder p t hp ht
  rw [View.completed_of_settled hsettled] at hagree
  have hlists := Connections.UsersAgree.lists hagree
  refine ⟨_, hlists, RestServer.printUsers_handlerGetUsers dataAvailable leftover hsize ?_⟩
  intro e he i
  obtain ⟨h, hh⟩ := (hlists.mem_iff e.1).mp (List.mem_map_of_mem he)
  obtain ⟨-, joined, hjoined, hlo, hhi⟩ := connected_user ht hh
  exact ⟨joined, hjoined, le_trans hstart hlo, le_trans hhi (hnow i).1, (hnow i).2⟩

theorem orderly_size : (RestServer.usersMessage wireFormat 0 orderly.clientMgr.getUsers).byteSizeLong ≤
    wireFormat.maxSize := by decide

theorem console_shows_orderly : ∃ us, orderly.conn.Lists us ∧
    orderly.shownOnConsole wireFormat 0 (fun _ => true) (fun _ => ConnectedUsers.empty)
      (fun _ => 5) = ConsoleApp.shown (fun _ => 5) us :=
  (console_shows_connections le_rfl orderly_distinct (meets_of_take (by decide)) wireFormat 0 _ _).last
    run_orderlyRun orderly_settled orderly_size _ fun _ => by decide

/-- The server once it has handled the event of the request that a line typed in leads to, if it
leads to one. -/
def afterKick (s : System Hdl) (leftover : Bytes → KickUser R) (line : Bytes) : System Hdl :=
  (ConsoleApp.kickBody R line).elim s fun body =>
    (callbacks (RestServer.handlerKickUserBody leftover body)).flatten.foldl perform s

/-- A line with a name leads to the disconnection of the name. -/
theorem afterKick_of_ne_nil {s : System Hdl} {leftover : Bytes → KickUser R} {line : Bytes}
    (hne : StringTrim.trim line ≠ [])
    (hsize : (KickUser.setUsername (R := R) .empty (StringTrim.trim line)).byteSizeLong ≤ R.maxSize) :
    s.afterKick leftover line = s.perform (.disconnectUser (.ofUsername (StringTrim.trim line))) := by
  have hbody : ConsoleApp.kickBody R line =
      some (KickUser.setUsername (R := R) .empty (StringTrim.trim line)).serialize := by
    simp [ConsoleApp.kickBody, ConsoleApp.kickUser, hne, RestApiClient.kickUser,
      KickUser.setUsername, KickUser.empty]
  rw [afterKick, hbody, Option.elim_some, RestServer.handlerKickUserBody_serialize leftover _ hsize]
  rw [RestServer.handlerKickUser, flatten_callbacks]
  rfl

/-- A disconnection of a name begins the close of the open connection that carries it, if no two
connections share a name. It terminates the server if this connection is closing already. -/
theorem perform_disconnectUser_of_distinct {s : System Hdl} (hinv : s.conn.Inv)
    (hdistinct : s.conn.DistinctNames) (name : Bytes) :
    ∃ closing terminated,
      s.perform (.disconnectUser (.ofUsername name)) =
        { s with closing := closing, terminated := terminated } ∧
      (∀ hdl, hdl ∈ closing ↔ hdl ∈ s.closing ∨ s.IsOpen hdl ∧ s.conn.server.Carries hdl name) ∧
      (terminated = true ↔ s.terminated = true ∨
        ∃ hdl ∈ s.closing, s.conn.server.Carries hdl name) := by
  by_cases hcarried : ∃ hdl, s.conn.server.Carries hdl name
  · obtain ⟨target, htarget⟩ := hcarried
    have heq : ∀ k, s.conn.server.Carries k name → k = target := fun k hk =>
      hdistinct.eq hk htarget
    have hfinds : s.conn.server.disconnectUser (.ofUsername name) = some target :=
      hdistinct.disconnectUser_eq htarget
    rw [perform, hfinds]
    by_cases hopen : s.IsOpen target
    · refine ⟨insert target s.closing, s.terminated, if_pos hopen, fun hdl => ?_, ?_⟩
      · rw [Finset.mem_insert, or_comm]
        refine or_congr_right ⟨?_, fun h => heq hdl h.2⟩
        rintro rfl
        exact ⟨hopen, htarget⟩
      · refine (or_iff_left ?_).symm
        rintro ⟨hdl, hclosing, hcarries⟩
        obtain rfl := heq hdl hcarries
        exact hopen.2 hclosing
    · -- the connection is in the map, so it is closing if it is not open
      have hopened := hinv.opened_of_carries htarget
      have hclosing : target ∈ s.closing := not_not.mp fun h => hopen ⟨hopened, h⟩
      refine ⟨s.closing, true, if_neg hopen, fun hdl => ?_, ?_⟩
      · refine (or_iff_left ?_).symm
        rintro ⟨hopen', hcarries⟩
        exact hopen (heq hdl hcarries ▸ hopen')
      · exact iff_of_true rfl (.inr ⟨target, hclosing, htarget⟩)
  · rw [perform, WebsocketServer.disconnectUser_eq_none fun hdl h => hcarried ⟨hdl, h⟩]
    refine ⟨s.closing, s.terminated, rfl, fun hdl => ?_, ?_⟩
    · exact (or_iff_left fun h => hcarried ⟨hdl, h.2⟩).symm
    · refine (or_iff_left ?_).symm
      rintro ⟨hdl, -, hcarries⟩
      exact hcarried ⟨hdl, hcarries⟩

/-- **A line typed in begins the close of the open connection that carries the name in it**, and of
no other connection, as long as no two connections share a name; a line without a name changes
nothing. Where the connection that carries the name is closing already, it is closed again, which
terminates the server. Apart from that the line changes nothing. -/
theorem line_kicks_its_user {start : Time} {s : System Hdl} (hreach : Reachable step (init start) s)
    (hdistinct : s.conn.DistinctNames) (leftover : Bytes → KickUser R) (line : Bytes) :
    (StringTrim.trim line = [] → s.afterKick leftover line = s) ∧
      (StringTrim.trim line ≠ [] →
        (KickUser.setUsername (R := R) .empty (StringTrim.trim line)).byteSizeLong ≤ R.maxSize →
        ∃ closing terminated,
          s.afterKick leftover line = { s with closing := closing, terminated := terminated } ∧
          (∀ hdl, hdl ∈ closing ↔ hdl ∈ s.closing ∨
            s.IsOpen hdl ∧ s.conn.server.Carries hdl (StringTrim.trim line)) ∧
          (terminated = true ↔ s.terminated = true ∨
            ∃ hdl ∈ s.closing, s.conn.server.Carries hdl (StringTrim.trim line))) := by
  constructor
  · intro hempty
    have hnone : ConsoleApp.kickBody R line = none := by
      simp [ConsoleApp.kickBody, ConsoleApp.kickUser, hempty]
    rw [afterKick, hnone, Option.elim_none]
  · intro hne hsize
    rw [afterKick_of_ne_nil hne hsize]
    exact perform_disconnectUser_of_distinct (inv_of_reachable hreach) hdistinct _

/-- White space around a name makes no difference. -/
theorem padded_line_kicks_alice :
    ∃ closing terminated,
      orderly.afterKick (R := wireFormat) (fun _ => .empty) (bytes " alice\t") =
        { orderly with closing := closing, terminated := terminated } ∧
      (∀ hdl, hdl ∈ closing ↔ hdl ∈ orderly.closing ∨
        orderly.IsOpen hdl ∧ orderly.conn.server.Carries hdl (bytes "alice")) ∧
      (terminated = true ↔ orderly.terminated = true ∨
        ∃ hdl ∈ orderly.closing, orderly.conn.server.Carries hdl (bytes "alice")) :=
  (line_kicks_its_user ⟨orderlyRun, run_orderlyRun⟩ (orderly_distinct.last run_orderlyRun)
    (fun _ => .empty) (bytes " alice\t")).2 (by decide) (by decide)

/-- **A request without a name closes no connection**: no open connection has an empty name. -/
theorem nameless_kick_closes_nothing {start : Time} {s : System Hdl}
    (hreach : Reachable step (init start) s) (leftover : Bytes → KickUser R) {body : Bytes}
    {message : KickUser R} (hparse : KickUser.parseFromString body = some message)
    (hname : message.username = none ∨ message.username = some []) :
    ∃ u, RestServer.handlerKickUserBody leftover body = .disconnectUser u ∧
      s.perform (.disconnectUser u) = s := by
  have hevent : RestServer.handlerKickUserBody leftover body = .disconnectUser (.ofUsername []) := by
    rw [RestServer.handlerKickUserBody, hparse, Option.getD_some]
    rcases hname with hname | hname <;> rw [RestServer.handlerKickUser, hname] <;> rfl
  obtain ⟨as, hrun⟩ := hreach
  -- no user of an open connection has the empty name that the event has
  have hnobody : s.conn.server.disconnectUser (.ofUsername []) = none := by
    refine WebsocketServer.disconnectUser_eq_none ?_
    rintro h ⟨v, hv, hname⟩
    exact (connected_user hrun hv).1 hname
  refine ⟨_, hevent, ?_⟩
  simp [perform, hnobody]

/-- A body with an empty username, after a field that `KickUser` does not know. -/
def unknownFieldBody : Bytes := [16, 1, 10, 0]

theorem unknownFieldBody_parses :
    (KickUser.parseFromString (R := wireFormat) unknownFieldBody).isSome = true := by decide

/-- A body with an unknown field and an empty username is a request without a name. -/
theorem unknown_field_closes_nothing :
    ∃ u, RestServer.handlerKickUserBody (R := wireFormat) (fun _ => .empty) unknownFieldBody =
        .disconnectUser u ∧ orderly.perform (.disconnectUser u) = orderly :=
  nameless_kick_closes_nothing ⟨orderlyRun, run_orderlyRun⟩ _
    (Option.some_get unknownFieldBody_parses).symm (.inr (by decide))

end System

end SimpleChat
