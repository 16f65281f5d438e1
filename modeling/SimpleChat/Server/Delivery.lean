import SimpleChat.Server.History

/-!
# What the connections are sent

The loop of `MessageHandler` goes over the connections in the order of their handles, and is left at
the first that is not open. So a message reaches the open connections before the first one that is
closing. A connection misses no message exactly if it is in the map whenever a message arrives, and
each connection that the loop comes to before it, and it itself, is open at that moment.

## Main definitions

* `System.Reaches h`: a message that arrives is sent to `h`
* `System.sentTo`: the calls of `srv.send` on a connection in a step
* `System.broadcasts`, `System.delivered`: the messages of a run, and those sent to a connection, if
  every loop runs without a step of another thread
* `SendingSystem.broadcasts`, `SendingSystem.delivered`: the same with the loop step by step
* `SendingSystem.LetsThrough h`: the condition on a step, that no message is lost to `h` in it

## Main results

* `System.sends_broadcast`: a message is sent once to each connection that it reaches
* `System.delivered_nested`: what is sent to a connection is sent to the open ones before it
* `SendingSystem.misses_nothing_iff`: when a connection is sent every message
-/

namespace SimpleChat

open Containers Transition
open Std (ExtTreeMap)

/-- In a list in increasing order, an element comes before the first one that fails `p` exactly if no
element up to it fails `p`. -/
theorem mem_takeWhile_of_pairwise_lt {α : Type} [LinearOrder α] {p : α → Bool} {l : List α}
    (hl : l.Pairwise (· < ·)) {k : α} :
    k ∈ l.takeWhile p ↔ k ∈ l ∧ ∀ x ∈ l, x ≤ k → p x = true := by
  induction l with
  | nil => simp
  | cons a l ih =>
    obtain ⟨ha, hl⟩ := List.pairwise_cons.mp hl
    rw [List.takeWhile_cons]
    split
    · next hp =>
      rw [List.mem_cons, List.mem_cons, ih hl, List.forall_mem_cons]
      constructor
      · rintro (rfl | ⟨hk, hall⟩)
        · exact ⟨.inl rfl, fun _ => hp, fun x hx hle => absurd (ha x hx) (not_lt_of_ge hle)⟩
        · exact ⟨.inr hk, fun _ => hp, hall⟩
      · rintro ⟨rfl | hk, -, hall⟩
        · exact .inl rfl
        · exact .inr ⟨hk, hall⟩
    · next hp =>
      refine iff_of_false List.not_mem_nil ?_
      rintro ⟨hk, hall⟩
      rw [List.forall_mem_cons] at hall
      rcases List.mem_cons.mp hk with rfl | hk
      · exact hp (hall.1 le_rfl)
      · exact hp (hall.1 (ha k hk).le)

/-- Two lists that are made up of parts, the one of sublists of the parts of the other, are equal
only if the parts are. -/
theorem append_eq_append_of_sublist {α : Type} {as as' bs bs' : List α} (ha : as.Sublist as')
    (hb : bs.Sublist bs') : as ++ bs = as' ++ bs' ↔ as = as' ∧ bs = bs' := by
  constructor
  · intro h
    have hlen := congrArg List.length h
    rw [List.length_append, List.length_append] at hlen
    have hale := ha.length_le
    have hble := hb.length_le
    exact ⟨ha.eq_of_length (by omega), hb.eq_of_length (by omega)⟩
  · rintro ⟨rfl, rfl⟩
    rfl

namespace WebsocketServer

/-- The loop of `MessageHandler` sends to the connections before the first that is not open. -/
theorem fst_sendAll {Hdl : Type} (isOpen : Hdl → Bool) (message : Message) (opcode : Opcode)
    (hdls : List Hdl) : (sendAll isOpen message opcode hdls).1 =
      (hdls.takeWhile isOpen).map fun hdl => ⟨hdl, message, opcode⟩ := by
  induction hdls with
  | nil => rfl
  | cons hdl hdls ih =>
    rw [sendAll, List.takeWhile_cons]
    split
    · simp [ih]
    · rfl

end WebsocketServer

namespace System

variable {Hdl : Type} [LinearOrder Hdl]

/-! ## One message -/

/-- The connection is open, and no connection before it is closing. -/
def Reaches (s : System Hdl) (hdl : Hdl) : Prop := s.IsOpen hdl ∧ ∀ k ∈ s.closing, hdl < k

instance (s : System Hdl) (hdl : Hdl) : Decidable (s.Reaches hdl) :=
  inferInstanceAs (Decidable (_ ∧ _))

/-- The calls of `srv.send` on a connection in a step. -/
def sentTo (s : System Hdl) (hdl : Hdl) : Action Hdl → List (Send Hdl)
  | .call (.messageHandler sender msg) => (s.broadcast sender msg).sends.filter fun x => x.hdl = hdl
  | _ => []

/-- **A message that arrives is sent once to each connection that it reaches**, and to no other. -/
theorem sends_broadcast {now : Time} {s : System Hdl} (hs : Reachable step (init now) s)
    {sender : Hdl} (hopen : s.IsOpen sender) (msg : WsMessage) (hdl : Hdl) :
    ((s.broadcast sender msg).sends.filter fun x => x.hdl = hdl) =
      if s.Reaches hdl then [⟨hdl, (s.broadcast sender msg).message, msg.opcode⟩] else [] := by
  have hinv := inv_of_reachable hs
  obtain ⟨u, hu⟩ := hinv.exists_connected hopen.1
  have hkeys : ∀ k, k ∈ s.conn.server.connUserMap.keys ↔ s.conn.phase k = .opened := by
    intro k
    rw [ExtTreeMap.mem_keys, hinv.mem_connUserMap]
  have hsorted : s.conn.server.connUserMap.keys.Pairwise (· < ·) :=
    ExtTreeMap.ordered_keys.imp compare_lt_iff_lt.mp
  have hmem : hdl ∈ s.conn.server.connUserMap.keys.takeWhile (fun k => decide (s.IsOpen k)) ↔
      s.Reaches hdl := by
    rw [mem_takeWhile_of_pairwise_lt hsorted]
    simp only [hkeys, decide_eq_true_iff]
    constructor
    · rintro ⟨hdl_opened, hall⟩
      refine ⟨hall hdl hdl_opened le_rfl, fun k hk => lt_of_not_ge fun hle => ?_⟩
      exact (hall k (opened_of_mem_closing hs k hk) hle).2 hk
    · rintro ⟨hdl_open, hall⟩
      refine ⟨hdl_open.1, fun k hk hle => ⟨hk, fun hclosing => ?_⟩⟩
      exact absurd (hall k hclosing) (not_lt_of_ge hle)
  rw [broadcast, WebsocketServer.messageHandler_eq _ msg s.clock hu, WebsocketServer.fst_sendAll,
    List.filter_map]
  simp only [Function.comp_def, List.filter_eq]
  split
  · next hreach =>
    have hnodup := (List.takeWhile_sublist fun k => decide (s.IsOpen k)).nodup
      (ExtTreeMap.nodup_keys (t := s.conn.server.connUserMap))
    rw [List.count_eq_one_of_mem hnodup (hmem.mpr hreach), List.replicate_one, List.map_singleton]
  · next hreach =>
    rw [List.count_eq_zero_of_not_mem (mt hmem.mp hreach), List.replicate_zero, List.map_nil]

/-- A step sends the message it broadcasts to the connections that it reaches. -/
theorem map_message_sentTo {now : Time} {s s' : System Hdl} {a : Action Hdl}
    (hs : Reachable step (init now) s) (h : s.step a = some s') (hdl : Hdl) :
    (s.sentTo hdl a).map Send.message =
      if s.Reaches hdl then (s.broadcastMessage a).toList else [] := by
  have hnone : s.sentTo hdl a = [] → s.broadcastMessage a = none → (s.sentTo hdl a).map Send.message =
      if s.Reaches hdl then (s.broadcastMessage a).toList else [] := by
    intro hsent hbroadcast
    rw [hsent, hbroadcast]
    split <;> rfl
  cases a with
  | call c =>
    cases c with
    | messageHandler sender msg =>
      obtain ⟨hadm, hconn, -⟩ := call_effect h
      have hopen : s.IsOpen sender := ⟨(Connections.step_messageHandler hconn).1, hadm⟩
      rw [sentTo, sends_broadcast hs hopen msg hdl]
      split <;> rfl
    | _ => exact hnone rfl rfl
  | _ => exact hnone rfl rfl

/-! ## The messages of a run -/

/-- The messages broadcast in a run from a state, in their order. -/
def broadcasts (s : System Hdl) (as : List (Action Hdl)) : List Message :=
  (trace step broadcastMessage s as).filterMap Prod.snd

/-- The calls of `srv.send` on a connection in a run from a state. -/
def sends (s : System Hdl) (as : List (Action Hdl)) (hdl : Hdl) : List (Send Hdl) :=
  (trace step (fun t => t.sentTo hdl) s as).flatMap Prod.snd

/-- The messages that a connection is sent in a run from a state. -/
def delivered (s : System Hdl) (as : List (Action Hdl)) (hdl : Hdl) : List Message :=
  (s.sends as hdl).map Send.message

theorem broadcasts_concat {s t : System Hdl} {as : List (Action Hdl)}
    (hrun : run step s as = some t) (a : Action Hdl) :
    s.broadcasts (as ++ [a]) = s.broadcasts as ++ (t.broadcastMessage a).toList := by
  rw [broadcasts, trace_concat hrun, List.filterMap_append]
  cases t.broadcastMessage a <;> simp [broadcasts]

theorem sends_concat {s t : System Hdl} {as : List (Action Hdl)} (hrun : run step s as = some t)
    (a : Action Hdl) (hdl : Hdl) :
    s.sends (as ++ [a]) hdl = s.sends as hdl ++ t.sentTo hdl a := by
  rw [sends, trace_concat hrun, List.flatMap_append]
  simp [sends]

/-- What a step adds to the messages that a connection is sent. -/
theorem delivered_concat {now : Time} {s t u : System Hdl} {as : List (Action Hdl)}
    (hs : Reachable step (init now) s) (hrun : run step s as = some t) {a : Action Hdl}
    (h : t.step a = some u) (hdl : Hdl) :
    s.delivered (as ++ [a]) hdl = s.delivered as hdl ++
      if t.Reaches hdl then (t.broadcastMessage a).toList else [] := by
  rw [delivered, sends_concat hrun, List.map_append, map_message_sentTo (hs.run hrun) h]
  rfl

/-- A connection is sent messages of the conversation in their order, each once at most. -/
theorem delivered_sublist {now : Time} {s t : System Hdl} {as : List (Action Hdl)}
    (hs : Reachable step (init now) s) (hrun : run step s as = some t) (hdl : Hdl) :
    (s.delivered as hdl).Sublist (s.broadcasts as) := by
  refine run_history_induction (P := fun p _ =>
    (s.delivered p hdl).Sublist (s.broadcasts p)) (List.Sublist.refl _) ?_ hrun
  intro p t a u hp ih hstep
  rw [delivered_concat hs hp hstep, broadcasts_concat hp]
  apply ih.append
  split
  · exact List.Sublist.refl _
  · exact List.nil_sublist _

/-- **All connections are sent the messages in one order**, that of the conversation. What is sent to
a connection is also sent to every connection before it that stays open. -/
theorem delivered_nested {now : Time} {s t : System Hdl} {as : List (Action Hdl)}
    (hs : Reachable step (init now) s) (hrun : run step s as = some t) {h k : Hdl} (hle : h ≤ k)
    (hopen : Along step (fun s => s.IsOpen h) s as) :
    (s.delivered as k).Sublist (s.delivered as h) ∧
      (s.delivered as h).Sublist (s.broadcasts as) := by
  refine ⟨?_, delivered_sublist hs hrun h⟩
  refine run_history_induction (P := fun p _ => p <+: as →
    (s.delivered p k).Sublist (s.delivered p h)) (fun _ => List.Sublist.refl _) ?_ hrun
    (List.prefix_refl as)
  intro p t a u hp ih hstep hpre
  have hp' := (List.prefix_append p [a]).trans hpre
  rw [delivered_concat hs hp hstep, delivered_concat hs hp hstep]
  refine (ih hp').append ?_
  split
  · next hk =>
    -- the loop comes to the earlier connection first
    have hh : t.Reaches h := ⟨hopen p t hp' hp, fun x hx => lt_of_le_of_lt hle (hk.2 x hx)⟩
    rw [if_pos hh]
  · exact List.nil_sublist _

/-- Two connections are opened. -/
def openingRun : List (Action ℕ) :=
  [.call (.validateHandler 1 (Connections.requestNamed "bob")), .call (.openHandler 1),
    .call (.validateHandler 2 (Connections.requestNamed "alice")), .call (.openHandler 2)]

theorem openingRun_runs : (run step (init 0) openingRun).isSome = true := by decide

/-- The state in which both connections are open. -/
def bothOpen : System ℕ := (run step (init 0) openingRun).get openingRun_runs

theorem reachable_bothOpen : Reachable step (init 0) bothOpen :=
  ⟨openingRun, (Option.some_get _).symm⟩

/-- The second connection begins to close between two messages of the first. -/
def leavingRun : List (Action ℕ) :=
  [.call (.messageHandler 1 ⟨bytes "hello", .text⟩), .peerClose 2,
    .call (.messageHandler 1 ⟨bytes "bye", .text⟩)]

theorem leavingRun_runs : (run step bothOpen leavingRun).isSome = true := by decide

/-- The state in which the second connection is closing. -/
def secondLeaving : System ℕ := (run step bothOpen leavingRun).get leavingRun_runs

theorem run_leavingRun : run step bothOpen leavingRun = some secondLeaving :=
  (Option.some_get _).symm

theorem delivered_nested_leaving :
    (bothOpen.delivered leavingRun 2).Sublist (bothOpen.delivered leavingRun 1) ∧
      (bothOpen.delivered leavingRun 1).Sublist (bothOpen.broadcasts leavingRun) :=
  delivered_nested reachable_bothOpen run_leavingRun (by decide) (along_of_take (by decide))

end System

namespace SendingSystem

variable {Hdl : Type} [LinearOrder Hdl]

/-! ## With the loop step by step -/

/-- The message that arrives in a step. -/
def arriving (s : SendingSystem Hdl) : SendingAction Hdl → Option Message
  | .act a => s.system.broadcastMessage a
  | .sendNext => none

/-- The messages broadcast in a run from a state, in their order. -/
def broadcasts (s : SendingSystem Hdl) (as : List (SendingAction Hdl)) : List Message :=
  (trace step arriving s as).filterMap Prod.snd

/-- The messages that a connection is sent in a run from a state. -/
def delivered (s : SendingSystem Hdl) (as : List (SendingAction Hdl)) (hdl : Hdl) : List Message :=
  ((s.sends as).filter fun x => x.hdl = hdl).map Send.message

/-- The message that the loop has still to send to a connection. -/
def owed (s : SendingSystem Hdl) (hdl : Hdl) : List Message :=
  match s.handler with
  | .sending loop => if hdl ∈ loop.remaining then [loop.message] else []
  | _ => []

/-- A message that arrives finds the connection in the map, and the loop finds each connection open
that it comes to before it, and the connection itself. -/
def LetsThrough (hdl : Hdl) (s : SendingSystem Hdl) : SendingAction Hdl → Prop
  | .act (.call (.messageHandler _ _)) => s.system.conn.phase hdl = .opened
  | .act _ => True
  | .sendNext => ∀ k rest, s.handler.remaining = k :: rest → hdl ∈ k :: rest → s.system.IsOpen k

theorem broadcasts_concat {s t : SendingSystem Hdl} {as : List (SendingAction Hdl)}
    (hrun : run step s as = some t) (a : SendingAction Hdl) :
    s.broadcasts (as ++ [a]) = s.broadcasts as ++ (t.arriving a).toList := by
  rw [broadcasts, trace_concat hrun, List.filterMap_append]
  cases t.arriving a <;> simp [broadcasts]

theorem delivered_concat {s t : SendingSystem Hdl} {as : List (SendingAction Hdl)}
    (hrun : run step s as = some t) (a : SendingAction Hdl) (hdl : Hdl) :
    s.delivered (as ++ [a]) hdl = s.delivered as hdl ++
      ((t.sent a).toList.filter fun x => x.hdl = hdl).map Send.message := by
  rw [delivered, sends_concat hrun, List.filter_append, List.map_append]
  rfl

theorem owed_of_not_sending {s : SendingSystem Hdl} (hs : ¬ s.Sending) (hdl : Hdl) :
    s.owed hdl = [] := by
  unfold owed
  split
  · next loop hloop => exact absurd ⟨loop, hloop⟩ hs
  · rfl

theorem owed_sending {s : SendingSystem Hdl} {loop : SendLoop Hdl} (hs : s.handler = .sending loop)
    (hdl : Hdl) : s.owed hdl = if hdl ∈ loop.remaining then [loop.message] else [] := by
  rw [owed, hs]

/-- A message that arrives is owed to the connections of the map. -/
theorem arriving_messageHandler {now : Time} {s t : SendingSystem Hdl}
    (hs : Reachable step (init now) s) {x : Hdl} {msg : WsMessage}
    (hstep : s.step (.act (.call (.messageHandler x msg))) = some t) (hdl : Hdl) :
    ∃ m, s.arriving (.act (.call (.messageHandler x msg))) = some m ∧ s.owed hdl = [] ∧
      t.handler.remaining.Nodup ∧
      t.owed hdl = if s.system.conn.phase hdl = .opened then [m] else [] := by
  obtain ⟨hidle, -, -, -, -, hhandler⟩ := arrives_spec hs hstep
  refine ⟨_, rfl, owed_of_not_sending hidle hdl, ?_, ?_⟩
  · rw [hhandler]
    exact ExtTreeMap.nodup_keys
  · rw [owed_sending hhandler]
    simp only [ExtTreeMap.mem_keys,
      (System.inv_of_reachable (system_reachable hs)).mem_connUserMap]

/-- A step that is no call of `MessageHandler` broadcasts nothing and begins no loop. -/
theorem silent_act {s : SendingSystem Hdl} {a : Action Hdl}
    (hfree : s.Sending → ¬ a.OnServerThread) (ha : ∀ hdl msg, a ≠ .call (.messageHandler hdl msg))
    (system : System Hdl) (hdl : Hdl) :
    s.arriving (.act a) = none ∧ s.LetsThrough hdl (.act a) ∧
      ((⟨system, s.handlerAfter a⟩ : SendingSystem Hdl).owed hdl = s.owed hdl) ∧
      (s.handler.remaining.Nodup → (s.handlerAfter a).remaining.Nodup) := by
  cases a with
  | call c =>
    have hidle := s.owed_of_not_sending (fun hs => hfree hs trivial) hdl
    cases c with
    | messageHandler x msg => exact absurd rfl (ha x msg)
    | _ => exact ⟨rfl, trivial, hidle.symm, fun _ => List.nodup_nil⟩
  | _ => exact ⟨rfl, trivial, rfl, id⟩

/-- What was sent to a connection and what is still owed to it are messages of the conversation, and
all of them exactly if every step let them through. -/
theorem delivered_append_owed {now : Time} {s t : SendingSystem Hdl} {as : List (SendingAction Hdl)}
    (hs : Reachable step (init now) s) (hidle : ¬ s.Sending) (hrun : run step s as = some t)
    (hdl : Hdl) :
    t.handler.remaining.Nodup ∧
      (s.delivered as hdl ++ t.owed hdl).Sublist (s.broadcasts as) ∧
      (s.delivered as hdl ++ t.owed hdl = s.broadcasts as ↔ Meets step (LetsThrough hdl) s as) := by
  refine run_history_induction (P := fun p v => v.handler.remaining.Nodup ∧
    (s.delivered p hdl ++ v.owed hdl).Sublist (s.broadcasts p) ∧
    (s.delivered p hdl ++ v.owed hdl = s.broadcasts p ↔ Meets step (LetsThrough hdl) s p)) ?_ ?_ hrun
  · rw [owed_of_not_sending hidle]
    refine ⟨?_, List.Sublist.refl _, iff_of_true rfl meets_nil⟩
    cases hhandler : s.handler with
    | sending loop => exact absurd ⟨loop, hhandler⟩ hidle
    | _ => exact List.nodup_nil
  · rintro p v a w hp ⟨hnodup, hsub, hiff⟩ hstep
    have hlast : (∀ x, run step s p = some x → LetsThrough hdl x a) ↔ v.LetsThrough hdl a := by
      simp [hp]
    rw [meets_concat, hlast, ← hiff, delivered_concat hp, broadcasts_concat hp]
    cases step_cases hstep with
    | act a system hfree hsystem =>
      have hsent : v.sent (.act a) = none := rfl
      rw [hsent, Option.toList_none, List.filter_nil, List.map_nil, List.append_nil]
      by_cases ha : ∀ x msg, a ≠ .call (.messageHandler x msg)
      · obtain ⟨harriving, hlets, howed, hnodup'⟩ := silent_act hfree ha system hdl
        rw [harriving, Option.toList_none, List.append_nil, howed]
        exact ⟨hnodup' hnodup, hsub, (and_iff_left hlets).symm⟩
      · obtain ⟨x, msg, rfl⟩ : ∃ x msg, a = .call (.messageHandler x msg) := by
          by_contra hne
          exact ha fun x msg h => hne ⟨x, msg, h⟩
        obtain ⟨m, harriving, howed, hnodup', howed'⟩ :=
          arriving_messageHandler (hs.run hp) hstep hdl
        rw [howed, List.append_nil] at hsub
        have hpart : (if v.system.conn.phase hdl = .opened then [m] else []).Sublist [m] := by
          split
          · exact List.Sublist.refl _
          · exact List.nil_sublist _
        rw [harriving, howed, howed', List.append_nil, Option.toList_some]
        refine ⟨hnodup', hsub.append hpart, ?_⟩
        rw [append_eq_append_of_sublist hsub hpart]
        apply and_congr_right
        intro _
        rw [LetsThrough]
        split
        · next hopened => exact iff_of_true rfl hopened
        · next hopened => exact iff_of_false (by simp) hopened
    | ended message opcode hloop hterm =>
      rw [owed_sending hloop] at hsub ⊢
      refine ⟨List.nodup_nil, ?_⟩
      simpa [sent, arriving, owed, LetsThrough, hloop, HandlerState.remaining] using hsub
    | next message opcode k rest hloop hterm hopen =>
      rw [hloop] at hnodup
      obtain ⟨hk, hrest⟩ := List.nodup_cons.mp hnodup
      -- what is sent to the connection is no longer owed to it
      have hmoved : ((v.sent .sendNext).toList.filter fun x => x.hdl = hdl).map Send.message ++
          ({ v with handler := .sending ⟨message, opcode, rest⟩ } : SendingSystem Hdl).owed hdl =
            v.owed hdl := by
        rw [owed_sending hloop, owed_sending rfl]
        by_cases hkh : k = hdl
        · subst hkh
          simp [sent, hloop, hopen, hk]
        · simp [sent, hloop, hopen, hkh, Ne.symm hkh]
      have hlets : v.LetsThrough hdl .sendNext := by
        intro k' rest' hremaining _
        rw [hloop] at hremaining
        cases hremaining
        exact hopen
      rw [List.append_assoc, hmoved]
      refine ⟨hrest, by simpa [arriving] using hsub, ?_⟩
      simp [arriving, hlets]
    | raised message opcode k rest hloop hterm hopen =>
      rw [owed_sending hloop] at hsub ⊢
      have hlets : v.LetsThrough hdl .sendNext ↔ hdl ∉ k :: rest := by
        constructor
        · intro h hmem
          exact hopen (h k rest (by rw [hloop]; rfl) hmem)
        · intro hmem k' rest' hremaining hmem'
          rw [hloop] at hremaining
          cases hremaining
          exact absurd hmem' hmem
      rw [hlets]
      refine ⟨List.nodup_nil, ?_⟩
      by_cases hmem : hdl ∈ k :: rest
      · rw [if_pos hmem] at hsub ⊢
        have hshort := hsub.length_le
        rw [List.length_append, List.length_singleton] at hshort
        refine ⟨?_, iff_of_false ?_ fun h => h.2 hmem⟩
        · simpa [sent, arriving, owed, hloop, hopen] using
            (List.sublist_append_left _ [message]).trans hsub
        · -- the message that is lost is never sent later
          intro heq
          have hlen := congrArg List.length heq
          simp [sent, arriving, owed, hloop, hopen] at hlen
          omega
      · rw [if_neg hmem] at hsub ⊢
        simpa [sent, arriving, owed, hloop, hopen, hmem] using hsub

/-- **A connection is sent every message exactly if every step lets it through**: whenever a message
arrives, the connection is in the map, and each connection that the loop comes to before it, and it
itself, is open at that moment. -/
theorem misses_nothing_iff {now : Time} {s t : SendingSystem Hdl} {as : List (SendingAction Hdl)}
    (hs : Reachable step (init now) s) (hidle : ¬ s.Sending) (hrun : run step s as = some t)
    (hended : ¬ t.Sending) (hdl : Hdl) :
    s.delivered as hdl = s.broadcasts as ↔ Meets step (LetsThrough hdl) s as := by
  obtain ⟨-, -, hiff⟩ := delivered_append_owed hs hidle hrun hdl
  rwa [owed_of_not_sending hended, List.append_nil] at hiff

/-- The first connection is disconnected when the loop of its message has passed it. -/
def passedRun : List (SendingAction ℕ) :=
  .act (.call (.messageHandler 1 greeting)) :: kickedAfter

theorem passedRun_runs : (run step kicking passedRun).isSome = true := by decide

/-- The message was sent to both connections. -/
theorem misses_nothing_passedRun :
    kicking.delivered passedRun 2 = kicking.broadcasts passedRun ↔
      Meets step (LetsThrough 2) kicking passedRun :=
  misses_nothing_iff reachable_kicking (by decide) (Option.some_get passedRun_runs).symm (by decide) 2

end SendingSystem

end SimpleChat
