import SimpleChat.WebsocketServer.Usernames

/-!
# The bookkeeping of connections

The lookups of the handlers insert a default user for a handle that is missing. No handle is ever
missing: `val_map` and `conn_user_map` follow the history of the handlers, and what they hold of a
connection comes from its own handshake. A handshake that fails leaves nothing behind, neither in
the maps nor in what the other connections see.

## Main definitions

* `HandshakeUser as h u`, `ConnectedUser as h v`: the user of a connection, from its own calls
* `Bookkept as s`: the maps hold what the history of the run says
* `FindsOwn as s a`: the next handler finds the record of its connection, and its event names it
* `output s a`: what the surroundings see of a call
* `without h s`: the connections, had the handshake of `h` never begun

## Main results

* `bookkeeping`: the maps are bookkept along every run, and every handler finds its own record
* `failed_leaves_no_trace`: the calls of a connection that failed can be left out of a run
-/

namespace SimpleChat

open Containers Std Transition

namespace Connections

variable {Hdl : Type} [LinearOrder Hdl]

/-! ## History -/

/-- In the run `as`, the connection was validated with the request. -/
def ValidatedIn (as : List (Time × Call Hdl)) (h : Hdl) : Prop :=
  ∃ req, CalledIn as (.validateHandler h req)

/-- The user that the accepted handshake of the connection presented. -/
def HandshakeUser (as : List (Time × Call Hdl)) (h : Hdl) (u : User) : Prop :=
  ∃ req, CalledIn as (.validateHandler h req) ∧ req.usernameHeader ≠ [] ∧
    u = .ofConnection req.usernameHeader (WebsocketServer.getConnectionIP req)
      (WebsocketServer.getConnectionPort req)

/-- The user of the handshake, with the time at which the connection was opened. -/
def ConnectedUser (as : List (Time × Call Hdl)) (h : Hdl) (v : User) : Prop :=
  ∃ u now, HandshakeUser as h u ∧ (now, .openHandler h) ∈ as ∧ v = u.setCurrentTime now

omit [LinearOrder Hdl] in
theorem HandshakeUser.mono {as bs : List (Time × Call Hdl)} {h : Hdl} {u : User}
    (hu : HandshakeUser as h u) (hp : as <+: bs) : HandshakeUser bs h u := by
  obtain ⟨req, ⟨now, hmem⟩, hrest⟩ := hu
  exact ⟨req, ⟨now, hp.subset hmem⟩, hrest⟩

omit [LinearOrder Hdl] in
theorem ConnectedUser.mono {as bs : List (Time × Call Hdl)} {h : Hdl} {v : User}
    (hv : ConnectedUser as h v) (hp : as <+: bs) : ConnectedUser bs h v := by
  obtain ⟨u, now, hu, hmem, rfl⟩ := hv
  exact ⟨u, now, hu.mono hp, hp.subset hmem, rfl⟩

/-- What a phase says about the calls made for the connection. -/
structure Lived (as : List (Time × Call Hdl)) (h : Hdl) (p : Phase) : Prop where
  validated : p = .accepted ∨ p = .rejected → ValidatedIn as h
  unvalidated : p = .fresh → ¬ ValidatedIn as h
  opened : CalledIn as (.openHandler h) ↔ p = .opened ∨ p = .closed
  closed : CalledIn as (.closeHandler h) ↔ p = .closed
  failed : CalledIn as (.failHandler h) ↔ p = .failed

omit [LinearOrder Hdl] in
/-- A call for another connection says nothing about this one. -/
theorem Lived.other {as : List (Time × Call Hdl)} {h : Hdl} {p : Phase} (hl : Lived as h p)
    {now : Time} {c : Call Hdl} (hc : c.hdl ≠ h) : Lived (as ++ [(now, c)]) h p := by
  have hne : ∀ d : Call Hdl, d.hdl = h → (CalledIn (as ++ [(now, c)]) d ↔ CalledIn as d) := by
    rintro d rfl
    rw [calledIn_concat, or_iff_left]
    rintro rfl
    exact hc rfl
  have hval : ValidatedIn (as ++ [(now, c)]) h ↔ ValidatedIn as h :=
    exists_congr fun req => hne (.validateHandler h req) rfl
  constructor
  · rw [hval]
    exact hl.validated
  · rw [hval]
    exact hl.unvalidated
  · rw [hne _ rfl]
    exact hl.opened
  · rw [hne _ rfl]
    exact hl.closed
  · rw [hne _ rfl]
    exact hl.failed

theorem lived_step {as : List (Time × Call Hdl)} {s s' : Connections Hdl} {now : Time}
    {c : Call Hdl} (hs : ∀ h, Lived as h (s.phase h)) (hstep : s.step (now, c) = some s') (h : Hdl) :
    Lived (as ++ [(now, c)]) h (s'.phase h) := by
  have hcases := step_cases hstep
  by_cases hc : c.hdl = h
  · subst hc
    obtain ⟨hval, hunval, hop, hcl, hfl⟩ := hs c.hdl
    cases hcases with
    | validate k req hp =>
      simp only [Call.hdl, hp] at hval hunval hop hcl hfl
      constructor <;> cases (s.server.validateHandler k req).2 <;>
        simp [Call.hdl, ValidatedIn, calledIn_concat, hop, hcl, hfl]
    | opening k hp =>
      simp only [Call.hdl, hp] at hop hcl hfl
      constructor <;> simp [Call.hdl, calledIn_concat, hop, hcl, hfl]
    | message k msg hp =>
      simp only [Call.hdl, hp] at hop hcl hfl
      constructor <;> simp [Call.hdl, calledIn_concat, hop, hcl, hfl, hp]
    | close k hp =>
      simp only [Call.hdl, hp] at hop hcl hfl
      constructor <;> simp [Call.hdl, calledIn_concat, hop, hcl, hfl]
    | fail k hp =>
      simp only [Call.hdl] at hop hcl hfl
      constructor <;> rcases hp with hp | hp | hp <;>
        simp [Call.hdl, calledIn_concat, hop, hcl, hfl, hp]
  · have hphase : s'.phase h = s.phase h := phase_of_step hstep (Ne.symm hc)
    rw [hphase]
    exact (hs h).other hc

theorem lived_of_run {as : List (Time × Call Hdl)} {s : Connections Hdl}
    (hrun : run step init as = some s) (h : Hdl) : Lived as h (s.phase h) := by
  refine run_history_induction (P := fun as s => ∀ h, Lived as h (s.phase h)) ?_ ?_ hrun h
  · intro h
    constructor <;> simp [init, ValidatedIn, CalledIn]
  · rintro p t ⟨now, c⟩ u - ih hstep
    exact lived_step ih hstep

/-! ## The maps -/

/-- `val_map` holds the connections that were validated and neither opened nor failed,
`conn_user_map` those that were opened and not closed, each with what its own handshake
presented. -/
structure Bookkept (as : List (Time × Call Hdl)) (s : Connections Hdl) : Prop where
  mem_valMap : ∀ h, h ∈ s.server.valMap ↔ ValidatedIn as h ∧
    ¬ CalledIn as (.openHandler h) ∧ ¬ CalledIn as (.failHandler h)
  mem_connUserMap : ∀ h, h ∈ s.server.connUserMap ↔
    CalledIn as (.openHandler h) ∧ ¬ CalledIn as (.closeHandler h)
  disjoint : ∀ h, h ∈ s.server.valMap → h ∉ s.server.connUserMap
  connected : ∀ h v, s.server.connUserMap[h]? = some v → ConnectedUser as h v

/-- What the two maps hold comes from the handshakes of the connections. -/
structure Presented (as : List (Time × Call Hdl)) (s : Connections Hdl) : Prop where
  accepted : ∀ h u, s.phase h = .accepted → s.server.valMap[h]? = some u → HandshakeUser as h u
  connected : ∀ h v, s.server.connUserMap[h]? = some v → ConnectedUser as h v

theorem presented_step {as : List (Time × Call Hdl)} {s s' : Connections Hdl}
    {a : Time × Call Hdl} (hinv : s.Inv) (hs : Presented as s) (hstep : s.step a = some s') :
    Presented (as ++ [a]) s' := by
  have hpre : as <+: as ++ [a] := List.prefix_append _ _
  obtain ⟨now, c⟩ := a
  constructor
  · intro h u hh hu
    rcases accepted_of_step hinv hstep hh hu with ⟨req, rfl, hans, rfl⟩ | ⟨hh, hu⟩
    · exact ⟨req, ⟨now, by simp⟩, (WebsocketServer.validateHandler_snd.mp hans).1, rfl⟩
    · exact (hs.accepted h u hh hu).mono hpre
  · intro h v hv
    rcases connected_of_step hinv hstep hv with ⟨w, rfl, hh, hw, rfl⟩ | hv
    · exact ⟨w, now, (hs.accepted h w hh hw).mono hpre, by simp, rfl⟩
    · exact (hs.connected h v hv).mono hpre

theorem presented_of_run {as : List (Time × Call Hdl)} {s : Connections Hdl}
    (hrun : run step init as = some s) : Presented as s := by
  refine run_history_induction (P := Presented) ?_ ?_ hrun
  · constructor <;> simp [init, WebsocketServer.init]
  · intro p t a u hp ih hstep
    exact presented_step (inv_of_reachable ⟨p, hp⟩) ih hstep

theorem bookkept_of_run {as : List (Time × Call Hdl)} {s : Connections Hdl}
    (hrun : run step init as = some s) : Bookkept as s := by
  have hinv : s.Inv := inv_of_reachable ⟨as, hrun⟩
  refine ⟨fun h => ?_, fun h => ?_, fun h hv hc => ?_, (presented_of_run hrun).connected⟩
  · have hl := lived_of_run hrun h
    rw [hinv.mem_valMap, hl.opened, hl.failed]
    constructor
    · intro hp
      refine ⟨hl.validated hp, ?_⟩
      rcases hp with hp | hp <;> simp [hp]
    · rintro ⟨hval, hop, hfl⟩
      cases hp : s.phase h with
      | fresh => exact absurd hval (hl.unvalidated hp)
      | accepted => exact .inl rfl
      | rejected => exact .inr rfl
      | opened => exact absurd (.inl hp) hop
      | closed => exact absurd (.inr hp) hop
      | failed => exact absurd hp hfl
  · have hl := lived_of_run hrun h
    rw [hinv.mem_connUserMap, hl.opened, hl.closed]
    constructor
    · intro hp
      simp [hp]
    · rintro ⟨hp | hp, hcl⟩
      · exact hp
      · exact absurd hp hcl
  · have hp := (hinv.mem_connUserMap h).mp hc
    rcases (hinv.mem_valMap h).mp hv with hv | hv <;> rw [hp] at hv <;> cases hv

/-- The lookup of the next handler finds the record of its own connection and inserts nothing, and
the event it sends names that user. -/
def FindsOwn (as : List (Time × Call Hdl)) (s : Connections Hdl) : Time × Call Hdl → Prop
  | (now, .openHandler h) => ∃ u, HandshakeUser as h u ∧
      subscript s.server.valMap h = (u, s.server.valMap) ∧
      s.server.sentEvent now (.openHandler h) = some (.connectionOpened (u.setCurrentTime now))
  | (now, .messageHandler h msg) => ∃ v, ConnectedUser as h v ∧
      subscript s.server.connUserMap h = (v, s.server.connUserMap) ∧
      s.server.sentEvent now (.messageHandler h msg) = some (.newMessage ⟨v, msg.payload, now⟩)
  | (now, .closeHandler h) => ∃ v, ConnectedUser as h v ∧
      subscript s.server.connUserMap h = (v, s.server.connUserMap) ∧
      s.server.sentEvent now (.closeHandler h) = some (.connectionClosed v)
  | _ => True

theorem findsOwn_of_step {as : List (Time × Call Hdl)} {s s' : Connections Hdl}
    {a : Time × Call Hdl} (hrun : run step init as = some s) (hstep : s.step a = some s') :
    FindsOwn as s a := by
  have hinv : s.Inv := inv_of_reachable ⟨as, hrun⟩
  have hpres := presented_of_run hrun
  obtain ⟨now, c⟩ := a
  cases step_cases hstep with
  | validate k req hp => trivial
  | opening k hp =>
    obtain ⟨u, hu⟩ := hinv.exists_validated hp
    exact ⟨u, hpres.accepted k u hp hu, subscript_of_getElem? hu,
      WebsocketServer.sentEvent_openHandler now hu⟩
  | message k msg hp =>
    obtain ⟨v, hv⟩ := hinv.exists_connected hp
    exact ⟨v, hpres.connected k v hv, subscript_of_getElem? hv,
      WebsocketServer.sentEvent_of_connected now msg hv⟩
  | close k hp =>
    obtain ⟨v, hv⟩ := hinv.exists_connected hp
    exact ⟨v, hpres.connected k v hv, subscript_of_getElem? hv,
      WebsocketServer.sentEvent_closeHandler now hv⟩
  | fail k hp => trivial

/-- **The bookkeeping never invents a user.** After every run the maps hold what its history says,
every handler that is called next finds the record of its own connection, and a disconnection
without a name closes nothing. -/
theorem bookkeeping {as : List (Time × Call Hdl)} {s : Connections Hdl}
    (hrun : run step init as = some s) :
    Bookkept as s ∧ (∀ a s', s.step a = some s' → FindsOwn as s a) ∧
      s.server.disconnectUser (.ofUsername []) = none := by
  refine ⟨bookkept_of_run hrun, fun a s' hstep => findsOwn_of_step hrun hstep, ?_⟩
  refine WebsocketServer.disconnectUser_eq_none ?_
  -- a connection would carry the empty name, which no handshake presents
  rintro h ⟨v, hv, hname⟩
  obtain ⟨u, now, ⟨req, -, hne, rfl⟩, -, rfl⟩ := (presented_of_run hrun).connected h v hv
  exact absurd hname hne

theorem bookkeeping_overlappingRun :
    Bookkept overlappingRun overlapped ∧
      FindsOwn overlappingRun overlapped (3, .closeHandler 2) ∧
      overlapped.server.disconnectUser (.ofUsername []) = none := by
  obtain ⟨hbook, hfinds, hnone⟩ := bookkeeping run_overlappingRun
  exact ⟨hbook, hfinds (3, .closeHandler 2) _ rfl, hnone⟩

end Connections

/-! ## Failed handshakes -/

namespace WebsocketServer

variable {Hdl : Type} [LinearOrder Hdl]

/-- The server without its record of a handshake. -/
def forget (s : WebsocketServer Hdl) (h : Hdl) : WebsocketServer Hdl :=
  { s with valMap := s.valMap.erase h }

/-- A call for another connection is served alike without the record. -/
theorem serve_forget (s : WebsocketServer Hdl) {h : Hdl} (now : Time) {c : Call Hdl}
    (hc : c.hdl ≠ h) : (s.forget h).serve now c = (s.serve now c).forget h := by
  cases c with
  | validateHandler k req =>
    have hk : k ≠ h := hc
    simp only [serve, validateHandler, forget, erase_insertIfNew_of_ne s.valMap _ hk]
  | openHandler k =>
    have hread : (subscript (s.valMap.erase h) k).1 = (subscript s.valMap k).1 :=
      subscript_erase_of_ne s.valMap hc
    simp only [serve, openHandler, forget, hread, erase_subscript, erase_comm s.valMap h k]
  | messageHandler k msg => rfl
  | closeHandler k => rfl
  | failHandler k =>
    rw [serve, serve, failHandler_fst, failHandler_fst]
    simp only [forget, erase_comm s.valMap h k]

/-- It is answered alike. -/
theorem answer_forget (s : WebsocketServer Hdl) (h : Hdl) (c : Call Hdl) :
    (s.forget h).answer c = s.answer c := by
  cases c <;> rfl

/-- And it sends the same event. -/
theorem sentEvent_forget (s : WebsocketServer Hdl) {h : Hdl} (now : Time) {c : Call Hdl}
    (hc : c.hdl ≠ h) : (s.forget h).sentEvent now c = s.sentEvent now c := by
  cases c with
  | validateHandler k req => rfl
  | openHandler k =>
    have hread : (subscript (s.valMap.erase h) k).1 = (subscript s.valMap k).1 :=
      subscript_erase_of_ne s.valMap hc
    simp only [sentEvent, openHandler, forget, hread]
  | messageHandler k msg => rfl
  | closeHandler k => rfl
  | failHandler k =>
    have hread : (subscript (s.valMap.erase h) k).1 = (subscript s.valMap k).1 :=
      subscript_erase_of_ne s.valMap hc
    simp only [sentEvent, failHandler, forget, hread]

/-- The broadcast of a `MessageHandler`, given which connections are open. -/
def broadcast (s : WebsocketServer Hdl) (now : Time) (isOpen : Hdl → Bool) :
    Call Hdl → Option (Broadcast Hdl)
  | .messageHandler hdl msg => some (s.messageHandler isOpen hdl msg now)
  | _ => none

theorem broadcast_forget (s : WebsocketServer Hdl) (h : Hdl) (now : Time) (isOpen : Hdl → Bool)
    (c : Call Hdl) : (s.forget h).broadcast now isOpen c = s.broadcast now isOpen c := by
  cases c <;> rfl

end WebsocketServer

namespace Connections

variable {Hdl : Type} [LinearOrder Hdl]

/-- What the surroundings see of a call: its answer, its event, and its broadcast for any connections
that are open. -/
def output (s : Connections Hdl) (a : Time × Call Hdl) :
    Bool × Option Event × ((Hdl → Bool) → Option (Broadcast Hdl)) :=
  (s.server.answer a.2, s.server.sentEvent a.1 a.2,
    fun isOpen => s.server.broadcast a.1 isOpen a.2)

/-- The connections, had the handshake of `h` never begun. -/
def without (h : Hdl) (s : Connections Hdl) : Connections Hdl :=
  ⟨s.server.forget h, Function.update s.phase h .fresh⟩

/-- The connection has not been opened. -/
def Unopened (h : Hdl) (s : Connections Hdl) : Prop := s.phase h ≠ .opened ∧ s.phase h ≠ .closed

/-- A connection that is not opened after a step was not before. -/
theorem unopened_of_step {h : Hdl} {s s' : Connections Hdl} {a : Time × Call Hdl}
    (hstep : s.step a = some s') (hs' : Unopened h s') : Unopened h s := by
  obtain ⟨now, c⟩ := a
  by_cases hc : h = c.hdl
  · subst hc
    obtain ⟨ho, hcl⟩ := hs'
    cases step_cases hstep with
    | validate k req hp => simp [Unopened, Call.hdl, hp]
    | opening k hp => simp [Call.hdl] at ho
    | message k msg hp => exact ⟨ho, hcl⟩
    | close k hp => simp [Call.hdl] at hcl
    | fail k hp => rcases hp with hp | hp | hp <;> simp [Unopened, Call.hdl, hp]
  · rw [Unopened, ← phase_of_step hstep hc]
    exact hs'

/-- The calls of a handshake that is not opened touch nothing but its own record. -/
theorem without_of_own {h : Hdl} {s s' : Connections Hdl} {a : Time × Call Hdl}
    (hstep : s.step a = some s') (hs' : Unopened h s') (ha : a.2.hdl = h) :
    without h s' = without h s := by
  obtain ⟨now, c⟩ := a
  obtain rfl : c.hdl = h := ha
  obtain ⟨ho, hcl⟩ := hs'
  cases step_cases hstep with
  | validate k req hp =>
    simp only [without, WebsocketServer.forget, Call.hdl, Function.update_idem,
      WebsocketServer.validateHandler_valMap, erase_insertIfNew]
    rfl
  | opening k hp => simp [Call.hdl] at ho
  | message k msg hp => rfl
  | close k hp => simp [Call.hdl] at hcl
  | fail k hp =>
    have herase : (s.server.valMap.erase k).erase k = s.server.valMap.erase k :=
      erase_of_not_mem (by simp)
    simp only [without, Call.hdl, Function.update_idem, WebsocketServer.failHandler_fst,
      WebsocketServer.forget, herase]

/-- The calls of the other connections are possible without the handshake. -/
theorem step_without {h : Hdl} {s s' : Connections Hdl} {a : Time × Call Hdl}
    (hstep : s.step a = some s') (ha : a.2.hdl ≠ h) :
    (without h s).step a = some (without h s') := by
  obtain ⟨now, c⟩ := a
  obtain ⟨p, hp, rfl⟩ := Option.map_eq_some_iff.mp hstep
  have hphase : Function.update s.phase h .fresh c.hdl = s.phase c.hdl := Function.update_of_ne ha _ _
  simp only [step, without, WebsocketServer.answer_forget, hphase, hp, Option.map_some,
    WebsocketServer.serve_forget s.server now ha,
    Function.update_comm ha]

theorem output_without {h : Hdl} (s : Connections Hdl) {a : Time × Call Hdl} (ha : a.2.hdl ≠ h) :
    output (without h s) a = output s a := by
  simp only [output, without, WebsocketServer.answer_forget,
    WebsocketServer.sentEvent_forget s.server a.1 ha, WebsocketServer.broadcast_forget]

theorem without_init (h : Hdl) : without h (init : Connections Hdl) = init := by
  simp [without, WebsocketServer.forget, init, WebsocketServer.init]

/-- The record of a failed handshake is gone already. -/
theorem server_without {h : Hdl} {s : Connections Hdl} (hs : s.Inv) (hf : s.phase h = .failed) :
    (without h s).server = s.server := by
  have hnot : h ∉ s.server.valMap := by
    rw [hs.mem_valMap]
    simp [hf]
  simp only [without, WebsocketServer.forget, erase_of_not_mem hnot]

/-- **A failed handshake leaves no trace**: without the calls of a connection that failed, the run
ends in the same registry, and every other call is answered alike, sends the same event and makes
the same broadcast. -/
theorem failed_leaves_no_trace {as : List (Time × Call Hdl)} {s : Connections Hdl} {h : Hdl}
    (hrun : run step init as = some s) (hf : s.phase h = .failed) :
    (∃ s', run step init (as.filter fun a => a.2.hdl ≠ h) = some s' ∧ s'.server = s.server) ∧
      trace step output init (as.filter fun a => a.2.hdl ≠ h) =
        (trace step output init as).filter fun x => x.1.2.hdl ≠ h := by
  have hback : ∀ t a u, step t a = some u → Unopened h u → Unopened h t :=
    fun t a u => unopened_of_step
  have hown : ∀ t a u, step t a = some u → Unopened h u → decide (a.2.hdl ≠ h) = false →
      without h u = without h t :=
    fun t a u hstep hu ha => without_of_own hstep hu (by simpa using ha)
  have hother : ∀ t a u, step t a = some u → Unopened h u → decide (a.2.hdl ≠ h) = true →
      step (without h t) a = some (without h u) :=
    fun t a u hstep _ ha => step_without hstep (of_decide_eq_true ha)
  have hout : ∀ t a, Unopened h t → decide (a.2.hdl ≠ h) = true →
      output (without h t) a = output t a :=
    fun t a _ ha => output_without t (of_decide_eq_true ha)
  have hs : Unopened h s := by simp [Unopened, hf]
  have hfilter := run_filter hback hown hother hrun hs
  have htrace := trace_filter hback hown hother hout hrun hs
  rw [without_init] at hfilter htrace
  exact ⟨⟨without h s, hfilter, server_without (inv_of_reachable ⟨as, hrun⟩) hf⟩, htrace⟩

/-- Two handshakes under one name, of which one is accepted and fails after the other was opened. -/
def failedRun : List (Time × Call ℕ) :=
  [(0, .validateHandler 1 (requestNamed "bob")), (0, .validateHandler 2 (requestNamed "bob")),
    (1, .openHandler 2), (2, .failHandler 1), (3, .messageHandler 2 ⟨bytes "hi", .text⟩)]

theorem failedRun_runs : (run step init failedRun).isSome = true := by decide

/-- The state after the failed handshake. -/
def failed : Connections ℕ := (run step init failedRun).get failedRun_runs

theorem run_failedRun : run step init failedRun = some failed := (Option.some_get _).symm

theorem failed_leaves_no_trace_failedRun :
    (∃ s', run step init (failedRun.filter fun a => a.2.hdl ≠ 1) = some s' ∧
        s'.server = failed.server) ∧
      trace step output init (failedRun.filter fun a => a.2.hdl ≠ 1) =
        (trace step output init failedRun).filter fun x => x.1.2.hdl ≠ 1 :=
  failed_leaves_no_trace run_failedRun (by decide)

end Connections

end SimpleChat
