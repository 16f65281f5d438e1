import SimpleChat.ChatRoom.Room
import SimpleChat.Server.Settling
import SimpleChat.Transition.Simulation
import SimpleChat.WebsocketServer.Usernames

/-!
# The server as a chat room

The events that the handlers send tell of users who join and leave, and of what they say. They are
what happens in a chat room exactly if every opening finds its name free. Then the members are the
users of the open connections, and the history is the conversation.

## Main definitions

* `Event.act`: what an event tells of, if anything
* `Connections.Seats`: the members of a room are the users of the open connections
* `System.acts`: what the events of a run tell of
* `System.OpensFree`: the condition on a step, that an opening finds its name free

## Main results

* `Connections.seats_step`, `Connections.seats_stuck`: which steps a room can follow
* `System.chat_room_iff`: when the server is a chat room, and which
* `System.connected_iff_opened_since`: then the events tell who is connected
* `System.room_at_rest`: and the roster and the journals are those of the room once all is handled
-/

namespace SimpleChat

open Containers Transition

/-- What is said: the text, and when. -/
abbrev Utterance : Type := Bytes × Time

/-- What an event tells of, if it tells the room of anything. -/
def Event.act : Event → Option (Room.Act User Utterance)
  | .connectionOpened user => some (.join user)
  | .newMessage message => some (.say message.user (message.text, message.msgTimestamp))
  | .connectionClosed user => some (.leave user)
  | .connectionFailed _ => none
  | .disconnectUser _ => none

namespace Connections

variable {Hdl : Type} [LinearOrder Hdl] {s s' : Connections Hdl} {r : Room User Utterance} {now : Time}
  {c : Call Hdl}

/-- No name is carried twice or unknown, and the members are the users of the open connections. -/
structure Seats (s : Connections Hdl) (r : Room User Utterance) : Prop where
  inv : s.Inv
  exclusive : s.Exclusive
  members : ∀ u, u ∈ r.members ↔ ∃ h : Hdl, s.server.connUserMap[h]? = some u

theorem seats_init : (init : Connections Hdl).Seats .empty where
  inv := inv_init
  exclusive := exclusive_init
  members u := by simp [init, WebsocketServer.init, Room.empty]

/-- A room follows a call that takes no name in use. -/
theorem seats_step (hs : s.Seats r) (hfree : s.NameStillFree (now, c))
    (h : s.step (now, c) = some s') :
    ∃ r', run (Room.step User.username) r ((s.server.sentEvent now c).toList.filterMap Event.act) = some r' ∧
      s'.Seats r' := by
  have hinv := inv_step hs.inv h
  have hex := (exclusive_step hs.inv hs.exclusive h).mpr hfree
  cases step_cases h with
  | validate k req hp => exact ⟨r, rfl, hinv, hex, hs.members⟩
  | opening k hp =>
    obtain ⟨u, hu⟩ := hs.inv.exists_validated hp
    have hnew : ∀ x ∈ r.members, x.username ≠ (u.setCurrentTime now).username := by
      intro x hx heq
      obtain ⟨j, hj⟩ := (hs.members x).mp hx
      apply hfree u hu
      rw [← u.setCurrentTime_username now, ← heq]
      exact hs.exclusive.2 j _ ⟨x, hj, rfl⟩
    rw [WebsocketServer.sentEvent_openHandler now hu]
    refine ⟨_, (run_singleton _).trans (Room.step_join hnew), hinv, hex, fun v => ?_⟩
    rw [Set.mem_insert_iff, hs.members]
    exact (hs.inv.exists_user_openHandler hp hu now v).symm
  | message k msg hp =>
    obtain ⟨u, hu⟩ := hs.inv.exists_connected hp
    rw [WebsocketServer.sentEvent_of_connected now msg hu]
    refine ⟨_, (run_singleton _).trans (Room.step_say ((hs.members u).mpr ⟨k, hu⟩)), hinv, hex, ?_⟩
    exact hs.members
  | close k hp =>
    obtain ⟨u, hu⟩ := hs.inv.exists_connected hp
    rw [WebsocketServer.sentEvent_closeHandler now hu]
    refine ⟨_, (run_singleton _).trans (Room.step_leave ((hs.members u).mpr ⟨k, hu⟩)), hinv, hex,
      fun v => ?_⟩
    rw [Set.mem_sdiff, Set.mem_singleton_iff, hs.members]
    have hclose := hs.inv.exists_user_closeHandler hs.exclusive.not_duplicated hp hu v
    show _ ↔ ∃ x : Hdl, (s.server.closeHandler k).1.connUserMap[x]? = some v
    rw [hclose, and_comm]
    refine and_congr_left fun ⟨j, hj⟩ => not_congr ⟨fun heq => by rw [heq], fun hname => ?_⟩
    obtain rfl := hs.exclusive.1 j k v.username ⟨v, hj, rfl⟩ ⟨u, hu, hname.symm⟩
    exact Option.some.inj (hj.symm.trans hu)
  | fail k hp =>
    refine ⟨r, rfl, hinv, hex, ?_⟩
    show ∀ u, u ∈ r.members ↔ ∃ x : Hdl, (s.server.failHandler k).1.connUserMap[x]? = some u
    rw [WebsocketServer.failHandler_fst]
    exact hs.members

/-- A room cannot follow a call that takes a name in use. -/
theorem seats_stuck (hs : s.Seats r) (hnot : ¬ s.NameStillFree (now, c))
    (h : s.step (now, c) = some s') :
    run (Room.step User.username) r ((s.server.sentEvent now c).toList.filterMap Event.act) = none := by
  cases step_cases h with
  | opening k hp =>
    simp only [NameStillFree, not_forall, not_not] at hnot
    obtain ⟨u, hu, hmem⟩ := hnot
    obtain ⟨j, v, hv, hname⟩ := hs.inv.held _ hmem
    rw [WebsocketServer.sentEvent_openHandler now hu]
    refine (run_singleton _).trans (Room.step_join_eq_none ((hs.members v).mpr ⟨j, hv⟩) ?_)
    rw [hname, User.setCurrentTime_username]
  | _ => exact absurd trivial hnot

end Connections

/-- What a message says, and by whom. -/
def Message.said (m : Message) : User × Utterance := (m.user, m.text, m.msgTimestamp)

namespace System

variable {Hdl : Type} [LinearOrder Hdl] {s s' : System Hdl} {r : Room User Utterance}
  {a : Action Hdl} {now : Time} {as : List (Action Hdl)}

/-- What the events of a run tell of. -/
def acts (now : Time) (as : List (Action Hdl)) : List (Room.Act User Utterance) :=
  ((init now).eventsSent as).filterMap Event.act

/-- A connection is opened only while its name is not in use. -/
def OpensFree (s : System Hdl) : Action Hdl → Prop
  | .call c => s.conn.NameStillFree (s.clock, c)
  | _ => True

instance (s : System Hdl) : (a : Action Hdl) → Decidable (s.OpensFree a)
  | .call (.openHandler h) => inferInstanceAs (Decidable (∀ u ∈ s.conn.server.valMap[h]?,
      u.username ∉ s.conn.server.usernames))
  | .call (.validateHandler _ _) => isTrue trivial
  | .call (.messageHandler _ _) => isTrue trivial
  | .call (.closeHandler _) => isTrue trivial
  | .call (.failHandler _) => isTrue trivial
  | .peerClose _ => isTrue trivial
  | .kickUser _ => isTrue trivial
  | .takeSnapshot => isTrue trivial
  | .checkEntry => isTrue trivial
  | .advance _ => isTrue trivial
  | .popEvent => isTrue trivial
  | .runThread _ => isTrue trivial

theorem acts_eq_observed (now : Time) (as : List (Action Hdl)) :
    acts now as =
      observed step (fun s a => (s.sentEvents a).filterMap Event.act) (init now) as :=
  observed_filterMap Event.act sentEvents (init now) as

/-- The calls of handlers alone change the connections, and tell of it. -/
theorem silent_of_not_call (ha : ∀ c, a ≠ .call c) (h : s.step a = some s') :
    s'.conn = s.conn ∧ (s.sentEvents a).filterMap Event.act = [] := by
  cases step_cases h with
  | call c => exact absurd rfl (ha c)
  | kickUser username => exact ⟨rfl, rfl⟩
  | idleEntry entry rest hs hidle =>
    refine ⟨rfl, ?_⟩
    rw [sentEvents, hs]
    simp [hidle, Event.act]
  | busyEntry entry rest hs hbusy =>
    refine ⟨rfl, ?_⟩
    rw [sentEvents, hs]
    simp [hbusy]
  | runThread i w bus hi => exact ⟨perform_conn _ w, rfl⟩
  | _ => exact ⟨rfl, rfl⟩

theorem seats_step (hs : s.conn.Seats r) (hfree : s.OpensFree a) (h : s.step a = some s') :
    ∃ r', run (Room.step User.username) r ((s.sentEvents a).filterMap Event.act) = some r' ∧
      s'.conn.Seats r' := by
  by_cases ha : ∀ c, a ≠ .call c
  · obtain ⟨hconn, hacts⟩ := silent_of_not_call ha h
    rw [hacts, hconn]
    exact ⟨r, rfl, hs⟩
  · simp only [not_forall, not_not] at ha
    obtain ⟨c, rfl⟩ := ha
    exact Connections.seats_step hs hfree (call_effect h).2.1

theorem seats_stuck (hs : s.conn.Seats r) (hnot : ¬ s.OpensFree a) (h : s.step a = some s') :
    run (Room.step User.username) r ((s.sentEvents a).filterMap Event.act) = none := by
  cases a with
  | call c => exact Connections.seats_stuck hs hnot (call_effect h).2.1
  | _ => exact absurd trivial hnot

/-- The messages are what is said. -/
theorem said_acts (hrun : run step (init now) as = some s) :
    (acts now as).filterMap Room.Act.said = (messages now as).map Message.said := by
  refine run_history_induction (P := fun p _ =>
    (acts now p).filterMap Room.Act.said = (messages now p).map Message.said) rfl ?_ hrun
  intro p t a u hp ih hstep
  have hlast : ((t.sentEvents a).filterMap Event.act).filterMap Room.Act.said =
      (t.broadcastMessage a).toList.map Message.said := by
    by_cases ha : ∀ c, a ≠ .call c
    · rw [(silent_of_not_call ha hstep).2]
      cases a with
      | call c => exact absurd rfl (ha c)
      | _ => rfl
    · simp only [not_forall, not_not] at ha
      obtain ⟨c, rfl⟩ := ha
      cases c <;> rfl
  rw [acts, eventsSent_concat hp, List.filterMap_append, List.filterMap_append, hlast,
    messages_concat hp, List.map_append]
  exact congrArg (· ++ _) ih

/-- A run in which every name is free when it is taken leads the room to the users of the open
connections and to the conversation. -/
theorem exists_room (hrun : run step (init now) as = some s)
    (hfree : Meets step OpensFree (init now) as) :
    ∃ r, run (Room.step User.username) .empty (acts now as) = some r ∧ s.conn.Seats r ∧
      r.history = (messages now as).map Message.said := by
  obtain ⟨r, hr, hseats⟩ := exists_run_observed (R := fun s r => s.conn.Seats r)
    (fun _ _ _ _ => seats_step) Connections.seats_init hrun hfree
  rw [← acts_eq_observed] at hr
  refine ⟨r, hr, hseats, ?_⟩
  rw [Room.history_of_run hr, said_acts hrun]
  rfl

/-- **The server is a chat room exactly if every opening finds its name free.** Then every member
has one open connection, nobody else has any, and the history is the conversation. -/
theorem chat_room_iff (hrun : run step (init now) as = some s) :
    ((∃ r, run (Room.step User.username) .empty (acts now as) = some r) ↔
        Meets step OpensFree (init now) as) ∧
      ∀ r, run (Room.step User.username) .empty (acts now as) = some r →
        (∀ u, u ∈ r.members ↔ ∃! h : Hdl, s.conn.server.connUserMap[h]? = some u) ∧
          r.history = (messages now as).map Message.said := by
  have hiff : (∃ r, run (Room.step User.username) .empty (acts now as) = some r) ↔
      Meets step OpensFree (init now) as := by
    rw [acts_eq_observed]
    exact run_observed_iff (R := fun s r => s.conn.Seats r) (fun _ _ _ _ => seats_step)
      (fun _ _ _ _ => seats_stuck) Connections.seats_init hrun
  refine ⟨hiff, fun r hr => ?_⟩
  obtain ⟨r', hr', hseats, hhistory⟩ := exists_room hrun (hiff.mp ⟨r, hr⟩)
  obtain rfl : r = r' := Option.some.inj (hr.symm.trans hr')
  refine ⟨fun u => ?_, hhistory⟩
  rw [hseats.members]
  constructor
  · rintro ⟨h, hh⟩
    exact ⟨h, hh, fun k hk => hseats.exclusive.1 k h u.username ⟨u, hk, rfl⟩ ⟨u, hh, rfl⟩⟩
  · rintro ⟨h, hh, -⟩
    exact ⟨h, hh⟩

theorem chat_room_iff_orderly :
    ((∃ r, run (Room.step User.username) .empty (acts 0 orderlyRun) = some r) ↔
        Meets step OpensFree (init 0) orderlyRun) ∧
      ∀ r, run (Room.step User.username) .empty (acts 0 orderlyRun) = some r →
        (∀ u, u ∈ r.members ↔ ∃! h : ℕ, orderly.conn.server.connUserMap[h]? = some u) ∧
          r.history = (messages 0 orderlyRun).map Message.said :=
  chat_room_iff run_orderlyRun

/-- **The events tell who is connected**, if every opening finds its name free: a user has an open
connection exactly if the last event of a connection of that user is an opening. -/
theorem connected_iff_opened_since (hrun : run step (init now) as = some s)
    (hfree : Meets step OpensFree (init now) as) (u : User) :
    (∃ h : Hdl, s.conn.server.connUserMap[h]? = some u) ↔
      ∃ p q, (init now).eventsSent as = p ++ .connectionOpened u :: q ∧ .connectionClosed u ∉ q := by
  obtain ⟨r, hr, hseats, -⟩ := exists_room hrun hfree
  rw [← hseats.members, Room.mem_members_of_run hr]
  have hleave (q : List Event) : .leave u ∈ q.filterMap Event.act ↔ .connectionClosed u ∈ q := by
    rw [List.mem_filterMap]
    constructor
    · rintro ⟨e, he, hact⟩
      cases e <;> cases hact
      exact he
    · exact fun h => ⟨_, h, rfl⟩
  constructor
  · rintro ⟨p, q, hacts, hq⟩
    obtain ⟨es, fs, hevents, -, hfs⟩ := List.filterMap_eq_append_iff.mp hacts
    obtain ⟨gs, e, hs, rfl, -, he, rfl⟩ := List.filterMap_eq_cons_iff.mp hfs
    cases e <;> cases he
    exact ⟨es ++ gs, hs, by rw [hevents, List.append_assoc], fun h => hq ((hleave hs).mpr h)⟩
  · rintro ⟨p, q, hevents, hq⟩
    refine ⟨p.filterMap Event.act, q.filterMap Event.act, ?_, fun h => hq ((hleave q).mp h)⟩
    rw [acts, hevents, List.filterMap_append]
    rfl

/-- The user of the connection that is open at the end of the orderly run. -/
def alice : User := ⟨bytes "alice", bytes "10.0.0.1", 50000, some 0⟩

theorem connected_iff_opened_since_orderly :
    (∃ h : ℕ, orderly.conn.server.connUserMap[h]? = some alice) ↔
      ∃ p q, (init 0 : System ℕ).eventsSent orderlyRun = p ++ .connectionOpened alice :: q ∧
        .connectionClosed alice ∉ q :=
  connected_iff_opened_since run_orderlyRun (meets_of_take (by decide)) _

end System

end SimpleChat
