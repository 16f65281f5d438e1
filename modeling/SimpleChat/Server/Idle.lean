import SimpleChat.Server.Roster
import SimpleChat.WebsocketServer.Bookkeeping

/-!
# Idle users

`ClientMgr::Cyclic` disconnects users who were idle. It decides on a snapshot of times that were
recorded when events were handled, and its decision travels as an event with nothing but a name, so
that activity can slip in before the connection is closed. The recorded time of a name covers all
that its connections did, except for what is still to be recorded: a disconnection that finds an idle
time recorded, and nothing on the way, hits an idle connection.

## Main definitions

* `ActiveAt`, `IdleFor`: when a connection was opened or sent a message, and that this is long ago
* `SentByCyclic`: the users that `ClientMgr::Cyclic` disconnected in a run
* `IdleDisconnects`: every connection that is closed for one of them is idle
* `StillIdle`: the condition on the schedule

## Main results

* `covered_of_run`: a recorded time covers the activity of its name that was handled
* `stamped_of_sentByCyclic`: the users that `Cyclic` disconnects have joined, those kicked have not
* `idle_disconnects`: idle disconnections hit idle connections
-/

namespace SimpleChat

open Containers Transition

/-- The joined timestamp of the user was set. -/
def User.Stamped (u : User) : Prop := u.joinedTimestamp.isSome = true

instance (u : User) : Decidable u.Stamped := inferInstanceAs (Decidable (_ = true))

/-- The user of the event that a section disconnects. -/
def Work.disconnected : Work → Option User
  | .disconnectUser user => some user
  | _ => none

namespace System

variable {Hdl : Type} [LinearOrder Hdl]

/-! ## Activity -/

/-- The connection was opened, or a message from it was handled, at the time. -/
def ActiveAt (cs : List (Time × Call Hdl)) (h : Hdl) (t : Time) : Prop :=
  (t, .openHandler h) ∈ cs ∨ ∃ msg, (t, .messageHandler h msg) ∈ cs

/-- The connection has been open for `timeout` seconds, and no message from it was handled in the last
`timeout` seconds. -/
def IdleFor (cs : List (Time × Call Hdl)) (h : Hdl) (now : Time) : Prop :=
  (∃ t, (t, .openHandler h) ∈ cs ∧ t + ClientMgr.timeout ≤ now) ∧
    ∀ t msg, (t, .messageHandler h msg) ∈ cs → t + ClientMgr.timeout ≤ now

/-- In the run, `ClientMgr::Cyclic` found the user idle and sent a `DISCONNECT_USER` event for it. -/
def SentByCyclic (now : Time) (as : List (Action Hdl)) (u : User) : Prop :=
  ∃ p t entry rest, p ++ [.checkEntry] <+: as ∧ run step (init now) p = some t ∧
    t.snapshot = entry :: rest ∧ ClientMgr.isIdle t.clock entry = true ∧ entry.1 = u

/-- The action closes the connection for an event of the user. -/
def Disconnects (s : System Hdl) (u : User) (h : Hdl) : Action Hdl → Prop
  | .runThread i => ∃ bus, s.bus.take i = some (.disconnectUser u, bus) ∧
      s.conn.server.disconnectUser u = some h ∧ s.IsOpen h
  | _ => False

/-- Every connection that is closed for an event that `ClientMgr::Cyclic` sent is idle. -/
def IdleDisconnects (now : Time) (as : List (Action Hdl)) : Prop :=
  ∀ p a t, p ++ [a] <+: as → run step (init now) p = some t →
    ∀ u h, SentByCyclic now p u → t.Disconnects u h a → IdleFor (calls now p) h t.clock

/-- The time recorded for the name is still idle, and no activity of the name is still to be
recorded. -/
def RecordedIdle (s : System Hdl) (n : Bytes) : Prop :=
  (∃ e ∈ s.clientMgr.userTimeouts.find? n, ClientMgr.isIdle s.clock e = true) ∧
    ∀ w ∈ s.pending, w.timeoutSet ≠ some n

/-- A disconnection of a user who has joined, and whose name a connection carries, finds the name
recorded as idle. -/
def StillIdle (s : System Hdl) : Action Hdl → Prop
  | .runThread i => ∀ r ∈ s.bus.take i, ∀ u ∈ r.1.disconnected, u.Stamped →
      (∃ e ∈ s.conn.server.connUserMap.toList, e.2.username = u.username) →
        s.RecordedIdle u.username
  | _ => True

instance (s : System Hdl) (n : Bytes) : Decidable (s.RecordedIdle n) :=
  inferInstanceAs (Decidable (_ ∧ _))

instance (s : System Hdl) : (a : Action Hdl) → Decidable (s.StillIdle a)
  | .runThread i => inferInstanceAs (Decidable (∀ r ∈ s.bus.take i, ∀ u ∈ r.1.disconnected,
      u.Stamped → (∃ e ∈ s.conn.server.connUserMap.toList, e.2.username = u.username) →
        s.RecordedIdle u.username))
  | .call _ => isTrue trivial
  | .peerClose _ => isTrue trivial
  | .kickUser _ => isTrue trivial
  | .takeSnapshot => isTrue trivial
  | .checkEntry => isTrue trivial
  | .popEvent => isTrue trivial
  | .advance _ => isTrue trivial

omit [LinearOrder Hdl] in
theorem activeAt_concat {cs : List (Time × Call Hdl)} {now : Time} {c : Call Hdl} {h : Hdl}
    {t : Time} : ActiveAt (cs ++ [(now, c)]) h t ↔
      ActiveAt cs h t ∨ t = now ∧ (c = .openHandler h ∨ ∃ msg, c = .messageHandler h msg) := by
  simp only [ActiveAt, List.mem_append, List.mem_singleton, Prod.mk.injEq, exists_or,
    @eq_comm _ _ c]
  constructor
  · rintro ((ho | ⟨rfl, rfl⟩) | (⟨msg, hm⟩ | ⟨msg, rfl, rfl⟩))
    · exact .inl (.inl ho)
    · exact .inr ⟨rfl, .inl rfl⟩
    · exact .inl (.inr ⟨msg, hm⟩)
    · exact .inr ⟨rfl, .inr ⟨msg, rfl⟩⟩
  · rintro ((ho | ⟨msg, hm⟩) | ⟨rfl, rfl | ⟨msg, rfl⟩⟩)
    · exact .inl (.inl ho)
    · exact .inr (.inl ⟨msg, hm⟩)
    · exact .inl (.inr ⟨rfl, rfl⟩)
    · exact .inr (.inr ⟨msg, rfl, rfl⟩)

/-! ## Recorded times -/

/-- The calls lie in the past, and the time recorded for a name covers what its connections did unless
something is still to be recorded for the name. -/
structure Covered (cs : List (Time × Call Hdl)) (s : System Hdl) : Prop where
  past : ∀ t c, (t, c) ∈ cs → t ≤ s.clock
  recorded : ∀ n e, s.clientMgr.userTimeouts.find? n = some e →
    (∀ w ∈ s.pending, w.timeoutSet ≠ some n) →
    ∀ h, s.conn.server.Carries h n → ∀ t, ActiveAt cs h t → t ≤ e.2

theorem Covered.active_le {cs : List (Time × Call Hdl)} {s : System Hdl} (hs : s.Covered cs) {h : Hdl}
    {t : Time} (ht : ActiveAt cs h t) : t ≤ s.clock := by
  rcases ht with ht | ⟨msg, ht⟩
  · exact hs.past t _ ht
  · exact hs.past t _ ht

/-- A call after which nothing is to be recorded for a name is no activity of its connections. -/
theorem silent_call {s s' : Connections Hdl} {now : Time} {c : Call Hdl} (hs : s.Inv)
    (hstep : s.step (now, c) = some s') {n : Bytes}
    (hsilent : ∀ w ∈ (s.server.sentEvent now c).elim [] fun e => (callbacks e).flatten,
      w.timeoutSet ≠ some n) {h : Hdl} (hh : s'.server.Carries h n) :
    s.server.Carries h n ∧ ¬ (c = .openHandler h ∨ ∃ msg, c = .messageHandler h msg) := by
  cases Connections.step_cases hstep with
  | validate k req hp => exact ⟨hh, by simp⟩
  | opening k hp =>
    obtain ⟨u, hu⟩ := hs.exists_validated hp
    rw [WebsocketServer.sentEvent_openHandler now hu, Option.elim_some, flatten_callbacks] at hsilent
    rcases (hs.carries_openHandler hp hu now h n).mp hh with ⟨-, rfl⟩ | hold
    · exact absurd rfl (hsilent (.clientMgr (.setTimeout (u.setCurrentTime now))) (by simp))
    · refine ⟨hold, ?_⟩
      rintro (hc | ⟨msg, hc⟩) <;> cases hc
      -- the connection that is opened carried nothing before
      have hopen := hs.opened_of_carries hold
      rw [hp] at hopen
      cases hopen
  | message k msg hp =>
    refine ⟨hh, ?_⟩
    rintro (hc | ⟨msg', hc⟩) <;> cases hc
    obtain ⟨u, hu, rfl⟩ := hh
    rw [WebsocketServer.sentEvent_of_connected now msg hu, Option.elim_some,
      flatten_callbacks] at hsilent
    exact hsilent (.clientMgr (.setTimeout u)) (by simp) rfl
  | close k hp => exact ⟨((hs.carries_closeHandler hp h n).mp hh).2, by simp⟩
  | fail k hp =>
    rw [WebsocketServer.failHandler_fst] at hh
    exact ⟨hh, by simp⟩

/-- A section records the clock for the name it is about, under the user that was stored there or
under its own, or leaves the entry of the name alone. -/
theorem find?_userTimeouts_perform {s : System Hdl} {w : Work} {n : Bytes} {e : User × Time}
    (h : (s.perform w).clientMgr.userTimeouts.find? n = some e) :
    (∃ v, w = .clientMgr (.setTimeout v) ∧ e.2 = s.clock ∧
        (e.1 = v ∨ ∃ x, s.clientMgr.userTimeouts.find? n = some (e.1, x))) ∨
      w.timeoutSet ≠ some n ∧ s.clientMgr.userTimeouts.find? n = some e := by
  cases w with
  | clientMgr x =>
    cases x with
    | setTimeout v =>
      simp only [perform, ClientMgr.perform, KeyedMap.find?_assign] at h
      by_cases hv : v.username = n
      · rw [if_pos hv, hv, Option.some.injEq] at h
        subst h
        refine .inl ⟨v, rfl, rfl, ?_⟩
        cases hold : s.clientMgr.userTimeouts.find? n with
        | none => exact .inl rfl
        | some e => exact .inr ⟨e.2, rfl⟩
      · rw [if_neg hv] at h
        exact .inr ⟨fun hn => hv (Option.some.inj hn), h⟩
    | eraseTimeout v =>
      simp only [perform, ClientMgr.perform, KeyedMap.find?_erase] at h
      split at h
      · cases h
      · exact .inr ⟨by simp [Work.timeoutSet], h⟩
    | insertUser v => exact .inr ⟨by simp [Work.timeoutSet], h⟩
    | eraseUser v => exact .inr ⟨by simp [Work.timeoutSet], h⟩
  | appendLog m => exact .inr ⟨by simp [Work.timeoutSet], h⟩
  | insertRow m => exact .inr ⟨by simp [Work.timeoutSet], h⟩
  | disconnectUser u =>
    rw [s.perform_clientMgr (by simp)] at h
    exact .inr ⟨by simp [Work.timeoutSet], h⟩

theorem covered_step {now : Time} {p : List (Action Hdl)} {t u : System Hdl} {a : Action Hdl}
    (hp : run step (init now) p = some t) (ht : t.Covered (calls now p))
    (hstep : t.step a = some u) : u.Covered (calls now (p ++ [a])) := by
  have hinv : t.conn.Inv := inv_of_reachable ⟨p, hp⟩
  rw [calls_concat hp]
  cases a with
  | call c =>
    obtain ⟨-, hconn, hmgr, hpending, -⟩ := call_effect hstep
    obtain ⟨-, -, hclock⟩ := frame_of_step hstep (by simp)
    refine ⟨fun x d hx => ?_, fun n e he hnone h hh x hx => ?_⟩
    · rcases List.mem_append.mp hx with hx | hx
      · exact (ht.past x d hx).trans hclock
      · obtain ⟨rfl, -⟩ := Prod.mk.inj (List.mem_singleton.mp hx)
        exact hclock
    · rw [hmgr] at he
      rw [hpending] at hnone
      obtain ⟨hh, hnot⟩ := silent_call hinv hconn
        (fun w hw => hnone w (List.mem_append_right _ hw)) hh
      have hx := (activeAt_concat.mp hx).resolve_right fun hc => hnot hc.2
      exact ht.recorded n e he (fun w hw => hnone w (List.mem_append_left _ hw)) h hh x hx
  | runThread i =>
    rw [List.append_nil]
    cases step_effect hstep with
    | other _ _ ha => exact absurd rfl (ha i)
    | ran _ w bus hi =>
      obtain ⟨later, hbefore, hafter⟩ := pending_ran hi
      have hclock : (({ t with bus := bus } : System Hdl).perform w).clock = t.clock :=
        perform_clock _ w
      refine ⟨fun x d hx => ?_, fun n e he hnone h hh x hx => ?_⟩
      · rw [hclock]
        exact ht.past x d hx
      · rw [perform_conn] at hh
        rcases find?_userTimeouts_perform he with ⟨-, -, he, -⟩ | ⟨hw, he⟩
        · rw [he]
          exact ht.active_le hx
        · refine ht.recorded n e he (fun y hy => ?_) h hh x hx
          rw [hbefore] at hy
          rw [hafter] at hnone
          rcases List.mem_append.mp hy with hy | hy
          · exact hnone y (List.mem_append_left _ hy)
          · rcases List.mem_cons.mp hy with rfl | hy
            · exact hw
            · exact hnone y (List.mem_append_right _ hy)
  | _ =>
    rw [List.append_nil]
    obtain ⟨-, -, hclock⟩ := frame_of_step hstep (by simp)
    cases step_effect hstep with
    | other _ _ ha hconn hmgr ws hpending hws =>
      refine ⟨fun x d hx => (ht.past x d hx).trans hclock, fun n e he hnone h hh x hx => ?_⟩
      rw [hmgr] at he
      rw [hconn] at hh
      rw [hpending] at hnone
      exact ht.recorded n e he (fun w hw => hnone w (List.mem_append_left _ hw)) h hh x hx

theorem covered_of_run {now : Time} {as : List (Action Hdl)} {s : System Hdl}
    (hrun : run step (init now) as = some s) : s.Covered (calls now as) := by
  refine run_history_induction (P := fun p t => t.Covered (calls now p)) ?_ ?_ hrun
  · constructor
    · intro t c h
      cases h
    · intro n e he
      simp [init, ClientMgr.init] at he
  · intro p t a u hp ht hstep
    exact covered_step hp ht hstep

/-! ## The users that `Cyclic` disconnects -/

/-- The users in the snapshot, in the timeouts and in what is to be recorded there have joined. -/
structure AllStamped (s : System Hdl) : Prop where
  snapshot : ∀ e ∈ s.snapshot, e.1.Stamped
  timeouts : ∀ n e, s.clientMgr.userTimeouts.find? n = some e → e.1.Stamped
  pending : ∀ u, Work.clientMgr (.setTimeout u) ∈ s.pending → u.Stamped

/-- What a handler has the client manager record is a user who has joined. -/
theorem stamped_of_sent {cs : List (Time × Call Hdl)} {s s' : Connections Hdl} {now : Time}
    {c : Call Hdl} (hrun : run Connections.step Connections.init cs = some s)
    (hstep : s.step (now, c) = some s') {u : User}
    (hu : Work.clientMgr (.setTimeout u) ∈
      (s.server.sentEvent now c).elim [] fun e => (callbacks e).flatten) : u.Stamped := by
  have hinv : s.Inv := Connections.inv_of_reachable ⟨cs, hrun⟩
  cases Connections.step_cases hstep with
  | validate k req hp => cases hu
  | opening k hp =>
    obtain ⟨v, hv⟩ := hinv.exists_validated hp
    rw [WebsocketServer.sentEvent_openHandler now hv, Option.elim_some, flatten_callbacks] at hu
    obtain rfl : u = v.setCurrentTime now := by simpa using hu
    rfl
  | message k msg hp =>
    obtain ⟨v, hv⟩ := hinv.exists_connected hp
    rw [WebsocketServer.sentEvent_of_connected now msg hv, Option.elim_some, flatten_callbacks] at hu
    obtain rfl : u = v := by simpa using hu
    obtain ⟨w, x, -, -, rfl⟩ := (Connections.presented_of_run hrun).connected k u hv
    rfl
  | close k hp =>
    obtain ⟨v, hv⟩ := hinv.exists_connected hp
    rw [WebsocketServer.sentEvent_closeHandler now hv, Option.elim_some, flatten_callbacks] at hu
    simp at hu
  | fail k hp =>
    rw [WebsocketServer.sentEvent, Option.elim_some, WebsocketServer.failHandler,
      flatten_callbacks] at hu
    cases hu

/-- The entries of a snapshot were in it before, or are taken from the timeouts. -/
theorem mem_snapshot_of_step {s s' : System Hdl} {a : Action Hdl} (h : s.step a = some s')
    {e : User × Time} (he : e ∈ s'.snapshot) :
    e ∈ s.snapshot ∨ e ∈ s.clientMgr.userTimeouts.toList := by
  cases step_cases h with
  | takeSnapshot hover => exact .inr he
  | idleEntry entry rest hs hidle =>
    rw [hs]
    exact .inl (List.mem_cons_of_mem _ he)
  | busyEntry entry rest hs hbusy =>
    rw [hs]
    exact .inl (List.mem_cons_of_mem _ he)
  | runThread i w bus hi =>
    rw [perform_snapshot] at he
    exact .inl he
  | _ => exact .inl he

theorem allStamped_step {now : Time} {p : List (Action Hdl)} {t u : System Hdl} {a : Action Hdl}
    (hp : run step (init now) p = some t) (ht : t.AllStamped) (hstep : t.step a = some u) :
    u.AllStamped := by
  have hsnapshot : ∀ e ∈ u.snapshot, e.1.Stamped := by
    intro e he
    rcases mem_snapshot_of_step hstep he with he | he
    · exact ht.snapshot e he
    · exact ht.timeouts _ e (KeyedMap.mem_toList.mp he)
  refine ⟨hsnapshot, ?_, ?_⟩
  · -- only a section of a callback changes the timeouts
    intro n e he
    cases step_effect hstep with
    | handled c _ hadm hconn hmgr =>
      rw [hmgr] at he
      exact ht.timeouts n e he
    | other _ _ ha hconn hmgr =>
      rw [hmgr] at he
      exact ht.timeouts n e he
    | ran i w bus hi =>
      rcases find?_userTimeouts_perform he with ⟨v, rfl, -, rfl | ⟨x, hold⟩⟩ | ⟨-, he⟩
      · obtain ⟨later, hbefore, -⟩ := pending_ran hi
        apply ht.pending
        rw [hbefore]
        simp
      · exact ht.timeouts n (e.1, x) hold
      · exact ht.timeouts n e he
  · intro v hv
    cases step_effect hstep with
    | handled c _ hadm hconn hmgr hpending =>
      rw [hpending] at hv
      rcases List.mem_append.mp hv with hv | hv
      · exact ht.pending v hv
      · exact stamped_of_sent (conn_run hp) hconn hv
    | other _ _ ha hconn hmgr ws hpending hws =>
      rw [hpending] at hv
      rcases List.mem_append.mp hv with hv | hv
      · exact ht.pending v hv
      · obtain ⟨x, hx⟩ := hws _ hv
        cases hx
    | ran i w bus hi =>
      obtain ⟨later, hbefore, hafter⟩ := pending_ran hi
      rw [hafter] at hv
      apply ht.pending
      rw [hbefore]
      rcases List.mem_append.mp hv with hv | hv
      · exact List.mem_append_left _ hv
      · exact List.mem_append_right _ (List.mem_cons_of_mem _ hv)

theorem allStamped_of_run {now : Time} {as : List (Action Hdl)} {s : System Hdl}
    (hrun : run step (init now) as = some s) : s.AllStamped := by
  refine run_history_induction (P := fun _ t => t.AllStamped) ?_ ?_ hrun
  · constructor
    · intro e he
      cases he
    · intro n e he
      simp [init, ClientMgr.init] at he
    · intro u hu
      cases hu
  · intro p t a u hp ht hstep
    exact allStamped_step hp ht hstep

/-- The users that `Cyclic` disconnects have joined. Those that the REST server kicks have not: it
sends `User(username)`. -/
theorem stamped_of_sentByCyclic {now : Time} {as : List (Action Hdl)} {u : User}
    (h : SentByCyclic now as u) : u.Stamped ∧ ∀ n, u ≠ .ofUsername n := by
  obtain ⟨p, t, entry, rest, -, hp, hsnapshot, -, rfl⟩ := h
  have hstamped : entry.1.Stamped := (allStamped_of_run hp).snapshot entry (by simp [hsnapshot])
  refine ⟨hstamped, fun n hn => ?_⟩
  rw [hn] at hstamped
  cases hstamped

/-- **An idle disconnect only hits an idle connection**, in every run in which each of them still
finds the name recorded as idle when it is delivered. -/
theorem idle_disconnects {now : Time} {as : List (Action Hdl)}
    (hstill : Meets step StillIdle (init now) as) : IdleDisconnects now as := by
  intro p a t hpre hp u h hsent hdis
  cases a with
  | runThread i =>
    obtain ⟨bus, hi, hd, -⟩ := hdis
    obtain ⟨⟨v, hv, hname⟩, -⟩ := WebsocketServer.disconnectUser_eq_some.mp hd
    have hlisted : ∃ e ∈ t.conn.server.connUserMap.toList, e.2.username = u.username :=
      ⟨(h, v), Std.ExtTreeMap.mem_toList_iff_getElem?_eq_some.mpr hv, hname⟩
    obtain ⟨⟨e, he, hidle⟩, hnone⟩ :=
      hstill p _ t hpre hp _ hi u rfl (stamped_of_sentByCyclic hsent).1 hlisted
    have hidle : e.2 + ClientMgr.timeout ≤ t.clock := of_decide_eq_true hidle
    -- whatever the connection did was recorded, and that is long ago
    have hlong : ∀ x, ActiveAt (calls now p) h x → x + ClientMgr.timeout ≤ t.clock := by
      intro x hx
      have hle := (covered_of_run hp).recorded _ e he hnone h ⟨v, hv, hname⟩ x hx
      calc x + ClientMgr.timeout
          ≤ e.2 + ClientMgr.timeout := Int.add_le_add_right hle _
        _ ≤ t.clock := hidle
    obtain ⟨w, x, -, hopened, -⟩ := (Connections.presented_of_run (conn_run hp)).connected h v hv
    exact ⟨⟨x, hopened, hlong x (.inl hopened)⟩, fun y msg hy => hlong y (.inr ⟨msg, hy⟩)⟩
  | _ => exact hdis.elim

/-- A user is connected, is idle for ten minutes, and is found idle. -/
def foundIdle : List (Action ℕ) :=
  [.call (.validateHandler 1 (Connections.requestNamed "bob")), .call (.openHandler 1), .popEvent,
    .runThread 0, .runThread 0, .advance 600, .takeSnapshot]

/-- The user is disconnected. -/
def idleRun : List (Action ℕ) := foundIdle ++ [.checkEntry, .popEvent, .runThread 1]

theorem idle_disconnects_idleRun : IdleDisconnects 0 idleRun :=
  idle_disconnects (meets_of_take (by decide))

/-- The user sends a message after the snapshot was taken. -/
def busyRun : List (Action ℕ) :=
  foundIdle ++ [.call (.messageHandler 1 ⟨bytes "hi", .text⟩), .checkEntry, .popEvent, .popEvent]

theorem busyRun_runs : (run step (init 0) busyRun).isSome = true := by decide

/-- The user who was recorded when the connection was opened. -/
def joinedBob : User := ⟨bytes "bob", bytes "10.0.0.1", 50000, some 0⟩

theorem sentByCyclic_busyRun : SentByCyclic 0 busyRun joinedBob := by
  have hruns : (run step (init 0) (busyRun.take 8)).isSome = true := by decide
  have hsnapshot : ((run step (init 0) (busyRun.take 8)).map System.snapshot) =
      some [(joinedBob, 0)] := by decide
  have hclock : ((run step (init 0) (busyRun.take 8)).map System.clock) = some 600 := by decide
  obtain ⟨t, ht⟩ := Option.isSome_iff_exists.mp hruns
  rw [ht, Option.map_some, Option.some.injEq] at hsnapshot hclock
  refine ⟨busyRun.take 8, t, (joinedBob, 0), [], ?_, ht, hsnapshot, ?_, rfl⟩
  · exact ⟨[.popEvent, .popEvent], rfl⟩
  · rw [hclock]
    rfl

/-- The event of an idle user, delivered after a message of the user, closes a connection that is not
idle. -/
theorem late_disconnect_hits_busy_connection :
    (run step (init 0) (busyRun ++ [.runThread 4])).isSome = true ∧
      ¬ IdleDisconnects 0 (busyRun ++ [.runThread 4]) := by
  refine ⟨by decide, fun hidle => ?_⟩
  obtain ⟨t, ht⟩ := Option.isSome_iff_exists.mp busyRun_runs
  have htake : ((run step (init 0) busyRun).bind fun t => (t.bus.take 4).map Prod.fst) =
      some (.disconnectUser joinedBob) := by decide
  have hclose : ((run step (init 0) busyRun).map fun t =>
      t.conn.server.disconnectUser joinedBob) = some (some 1) := by decide
  have hopen : ((run step (init 0) busyRun).map fun t => decide (t.IsOpen 1)) = some true := by
    decide
  have hclock : ((run step (init 0) busyRun).map System.clock) = some 600 := by decide
  rw [ht, Option.map_some, Option.some.injEq] at hclose hopen hclock
  rw [ht, Option.bind_some, Option.map_eq_some_iff] at htake
  obtain ⟨⟨w, bus⟩, hi, rfl⟩ := htake
  have hspoke : (600, .messageHandler 1 ⟨bytes "hi", .text⟩) ∈ calls 0 busyRun := by decide
  have hlong := (hidle busyRun (.runThread 4) t (List.prefix_refl _) ht joinedBob 1
    sentByCyclic_busyRun ⟨bus, hi, hclose, of_decide_eq_true hopen⟩).2 600 _ hspoke
  rw [hclock] at hlong
  exact absurd hlong (by decide)

end System

end SimpleChat
