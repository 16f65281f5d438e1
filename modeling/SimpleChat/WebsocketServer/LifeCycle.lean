import SimpleChat.Transition.Run
import SimpleChat.WebsocketServer.Handlers
import Mathlib.Logic.Function.Basic

/-!
# The life cycle of connections

websocketpp calls the handlers of one connection in a fixed order: validation at most once, then
either opening, if the validation was answered `true`, messages and one close, or failure in
place of opening. The steps of different connections interleave freely.

## Main definitions

* `Phase`, `Phase.next`: the life cycle of one connection
* `Connections`, `Connections.step`: the server with the phases of all connections
* `Connections.StepCases`: what one step does, handler by handler
* `Connections.Inv`: the registry mirrors the phases, and no name is held in vain
* `Connections.CalledIn as c`: the call was made in the run

## Main results

* `Connections.step_cases`: every step is one of `StepCases`
* `Connections.inv_of_reachable`: the invariant holds in every reachable state
* `Connections.accepted_of_step`, `Connections.connected_of_step`: where the records of the two maps
  come from
-/

namespace SimpleChat

open Containers Std Transition

/-- The connection is in `conn_user_map` under the username. -/
def WebsocketServer.Carries {Hdl : Type} [LinearOrder Hdl] (s : WebsocketServer Hdl) (h : Hdl)
    (n : Bytes) : Prop :=
  ∃ u, s.connUserMap[h]? = some u ∧ u.username = n

/-- `DisconnectUser` closes the first connection under the name of the user. -/
theorem WebsocketServer.disconnectUser_eq_some {Hdl : Type} [LinearOrder Hdl]
    {s : WebsocketServer Hdl} {user : User} {hdl : Hdl} :
    s.disconnectUser user = some hdl ↔
      s.Carries hdl user.username ∧ ∀ k, s.Carries k user.username → hdl ≤ k := by
  refine (find?_toList_eq_some (p := fun u : User => u.operatorEq user)).trans ?_
  simp only [User.operatorEq_iff, Carries]
  apply and_congr_right
  intro _
  constructor
  · rintro h k ⟨v, hv, hname⟩
    exact h k v hv hname
  · intro h k v hv hname
    exact h k ⟨v, hv, hname⟩

/-- A disconnection of a name that no connection carries finds none. -/
theorem WebsocketServer.disconnectUser_eq_none {Hdl : Type} [LinearOrder Hdl]
    {s : WebsocketServer Hdl} {user : User} (h : ∀ hdl, ¬ s.Carries hdl user.username) :
    s.disconnectUser user = none := by
  rw [Option.eq_none_iff_forall_ne_some]
  intro hdl hfound
  exact h hdl (disconnectUser_eq_some.mp hfound).1

/-- Where a connection is in its life cycle. -/
inductive Phase where
  | fresh
  | accepted
  | rejected
  | opened
  | closed
  | failed
  deriving DecidableEq, Repr

/-- The phase after a handler was called, if websocketpp may call it. -/
def Phase.next {Hdl : Type} (answer : Bool) : Phase → Call Hdl → Option Phase
  | .fresh, .validateHandler _ _ => some (if answer then .accepted else .rejected)
  | .accepted, .openHandler _ => some .opened
  | .opened, .messageHandler _ _ => some .opened
  | .opened, .closeHandler _ => some .closed
  | .fresh, .failHandler _ => some .failed
  | .accepted, .failHandler _ => some .failed
  | .rejected, .failHandler _ => some .failed
  | _, _ => none

/-- The phases from which a handshake can fail. -/
def Phase.Handshaking (p : Phase) : Prop := p = .fresh ∨ p = .accepted ∨ p = .rejected

/-- The server and the phase of every connection. -/
structure Connections (Hdl : Type) [LinearOrder Hdl] where
  server : WebsocketServer Hdl
  phase : Hdl → Phase

namespace Connections

variable {Hdl : Type} [LinearOrder Hdl]

def init : Connections Hdl := ⟨.init, fun _ => .fresh⟩

/-- One call of a handler at a time of the clock. -/
def step (s : Connections Hdl) : Time × Call Hdl → Option (Connections Hdl)
  | (now, c) => ((s.phase c.hdl).next (s.server.answer c) c).map fun p =>
      ⟨s.server.serve now c, Function.update s.phase c.hdl p⟩

/-- What a call does, handler by handler. -/
inductive StepCases (s : Connections Hdl) (now : Time) : Call Hdl → Connections Hdl → Prop
  | validate (h : Hdl) (req : Request) (hp : s.phase h = .fresh) :
      StepCases s now (.validateHandler h req)
        ⟨(s.server.validateHandler h req).1, Function.update s.phase h
          (if (s.server.validateHandler h req).2 then .accepted else .rejected)⟩
  | opening (h : Hdl) (hp : s.phase h = .accepted) :
      StepCases s now (.openHandler h)
        ⟨(s.server.openHandler h now).1, Function.update s.phase h .opened⟩
  | message (h : Hdl) (msg : WsMessage) (hp : s.phase h = .opened) :
      StepCases s now (.messageHandler h msg) s
  | close (h : Hdl) (hp : s.phase h = .opened) :
      StepCases s now (.closeHandler h)
        ⟨(s.server.closeHandler h).1, Function.update s.phase h .closed⟩
  | fail (h : Hdl) (hp : (s.phase h).Handshaking) :
      StepCases s now (.failHandler h)
        ⟨(s.server.failHandler h).1, Function.update s.phase h .failed⟩

theorem step_cases {s s' : Connections Hdl} {now : Time} {c : Call Hdl}
    (h : s.step (now, c) = some s') : StepCases s now c s' := by
  obtain ⟨p, hp, rfl⟩ := Option.map_eq_some_iff.mp h
  cases c with
  | validateHandler k req =>
    cases hk : s.phase k <;> simp only [Call.hdl, hk, Phase.next] at hp <;> cases hp
    exact .validate k req hk
  | openHandler k =>
    cases hk : s.phase k <;> simp only [Call.hdl, hk, Phase.next] at hp <;> cases hp
    exact .opening k hk
  | messageHandler k msg =>
    cases hk : s.phase k <;> simp only [Call.hdl, hk, Phase.next] at hp <;> cases hp
    simp only [Call.hdl, WebsocketServer.serve, ← hk, Function.update_eq_self]
    exact .message k msg hk
  | closeHandler k =>
    cases hk : s.phase k <;> simp only [Call.hdl, hk, Phase.next] at hp <;> cases hp
    exact .close k hk
  | failHandler k =>
    cases hk : s.phase k <;> simp only [Call.hdl, hk, Phase.next] at hp <;> cases hp
    · exact .fail k (.inl hk)
    · exact .fail k (.inr (.inl hk))
    · exact .fail k (.inr (.inr hk))

/-- A call leaves the phases of the other connections alone. -/
theorem phase_of_step {s s' : Connections Hdl} {now : Time} {c : Call Hdl} {k : Hdl}
    (h : s.step (now, c) = some s') (hk : k ≠ c.hdl) : s'.phase k = s.phase k := by
  obtain ⟨p, -, rfl⟩ := Option.map_eq_some_iff.mp h
  exact Function.update_of_ne hk _ _

/-- An open connection stays open until its `CloseHandler`. -/
theorem opened_of_step {s s' : Connections Hdl} {now : Time} {c : Call Hdl} {k : Hdl}
    (hk : s.phase k = .opened) (hc : c ≠ .closeHandler k) (h : s.step (now, c) = some s') :
    s'.phase k = .opened := by
  cases step_cases h with
  | validate x req hx =>
    have hne : k ≠ x := by
      rintro rfl
      rw [hx] at hk
      cases hk
    simpa [hne] using hk
  | opening x hx =>
    by_cases hkx : k = x
    · simp [hkx]
    · simpa [hkx] using hk
  | message x msg hx => exact hk
  | close x hx =>
    have hne : k ≠ x := by
      rintro rfl
      exact hc rfl
    simpa [hne] using hk
  | fail x hx =>
    have hne : k ≠ x := by
      rintro rfl
      rcases hx with hx | hx | hx <;> rw [hx] at hk <;> cases hk
    simpa [hne] using hk

/-! ## The invariant -/

/-- The maps of the registry mirror the phases, and every name in use is the name of an open
connection. -/
structure Inv (s : Connections Hdl) : Prop where
  mem_valMap : ∀ h, h ∈ s.server.valMap ↔ s.phase h = .accepted ∨ s.phase h = .rejected
  mem_connUserMap : ∀ h, h ∈ s.server.connUserMap ↔ s.phase h = .opened
  held : ∀ n ∈ s.server.usernames, ∃ h, s.server.Carries h n

namespace Inv

variable {s : Connections Hdl}

theorem exists_validated (hs : s.Inv) {h : Hdl} (hp : s.phase h = .accepted) :
    ∃ u, s.server.valMap[h]? = some u :=
  exists_getElem?_of_mem ((hs.mem_valMap h).mpr (.inl hp))

theorem exists_connected (hs : s.Inv) {h : Hdl} (hp : s.phase h = .opened) :
    ∃ u, s.server.connUserMap[h]? = some u :=
  exists_getElem?_of_mem ((hs.mem_connUserMap h).mpr hp)

theorem opened_of_carries (hs : s.Inv) {h : Hdl} {n : Bytes} (hc : s.server.Carries h n) :
    s.phase h = .opened := by
  obtain ⟨u, hu, -⟩ := hc
  exact (hs.mem_connUserMap h).mp (mem_of_getElem? hu)

theorem not_mem_connUserMap (hs : s.Inv) {h : Hdl} (hp : s.phase h ≠ .opened) :
    h ∉ s.server.connUserMap := fun hm => hp ((hs.mem_connUserMap h).mp hm)

/-- Opening adds the user of the handshake, stamped. -/
theorem connUserMap_openHandler (hs : s.Inv) {h : Hdl} (hp : s.phase h = .accepted) {u : User}
    (hu : s.server.valMap[h]? = some u) (now : Time) (k : Hdl) (v : User) :
    (s.server.openHandler h now).1.connUserMap[k]? = some v ↔
      k = h ∧ v = u.setCurrentTime now ∨ s.server.connUserMap[k]? = some v := by
  have hnew : h ∉ s.server.connUserMap := hs.not_mem_connUserMap (by simp [hp])
  rw [WebsocketServer.openHandler_eq now hu]
  simp only [ExtTreeMap.getElem?_insertIfNew, LawfulEqCmp.compare_eq_iff_eq]
  -- the handle is new in the map, so `insert` stores the user
  by_cases hk : h = k
  · subst hk
    simp [hnew, @eq_comm _ v]
  · simp [hk, Ne.symm hk]

/-- Closing removes the connection and nothing else. -/
theorem connUserMap_closeHandler (hs : s.Inv) {h : Hdl} (hp : s.phase h = .opened) (k : Hdl)
    (v : User) :
    (s.server.closeHandler h).1.connUserMap[k]? = some v ↔
      k ≠ h ∧ s.server.connUserMap[k]? = some v := by
  obtain ⟨u, hu⟩ := hs.exists_connected hp
  rw [WebsocketServer.closeHandler_eq hu]
  simp only [ExtTreeMap.getElem?_erase, LawfulEqCmp.compare_eq_iff_eq]
  by_cases hk : h = k
  · simp [hk]
  · simp [hk, Ne.symm hk]

theorem carries_openHandler (hs : s.Inv) {h : Hdl} (hp : s.phase h = .accepted) {u : User}
    (hu : s.server.valMap[h]? = some u) (now : Time) (k : Hdl) (n : Bytes) :
    (s.server.openHandler h now).1.Carries k n ↔
      k = h ∧ u.username = n ∨ s.server.Carries k n := by
  simp only [WebsocketServer.Carries, hs.connUserMap_openHandler hp hu]
  constructor
  · rintro ⟨v, ⟨rfl, rfl⟩ | hv, hn⟩
    · exact .inl ⟨rfl, hn⟩
    · exact .inr ⟨v, hv, hn⟩
  · rintro (⟨rfl, hn⟩ | ⟨v, hv, hn⟩)
    · exact ⟨_, .inl ⟨rfl, rfl⟩, hn⟩
    · exact ⟨v, .inr hv, hn⟩

theorem carries_closeHandler (hs : s.Inv) {h : Hdl} (hp : s.phase h = .opened) (k : Hdl)
    (n : Bytes) :
    (s.server.closeHandler h).1.Carries k n ↔ k ≠ h ∧ s.server.Carries k n := by
  simp only [WebsocketServer.Carries, hs.connUserMap_closeHandler hp, and_assoc, exists_and_left]

end Inv

theorem inv_init : (init : Connections Hdl).Inv where
  mem_valMap h := by simp [init, WebsocketServer.init]
  mem_connUserMap h := by simp [init, WebsocketServer.init]
  held n hn := by simp [init, WebsocketServer.init] at hn

/-! A map mirrors the phases with `P` if its keys are the connections whose phase has `P`. One call
changes one phase and at most that key. -/

section Mirror

variable {β : Type} {m : OrderedMap Hdl β} {f : Hdl → Phase} {P : Phase → Prop} {k : Hdl} {p : Phase}

omit [LinearOrder Hdl] in
theorem mirror_update [DecidableEq Hdl] {K : Hdl → Prop} (h : ∀ x, K x ↔ P (f x))
    (hp : P p ↔ P (f k)) (x : Hdl) : K x ↔ P (Function.update f k p x) := by
  rw [h]
  by_cases hx : x = k
  · simp [hx, hp]
  · simp [hx]

theorem mirror_insertIfNew (h : ∀ x, x ∈ m ↔ P (f x)) (hp : P p) (v : β) (x : Hdl) :
    x ∈ m.insertIfNew k v ↔ P (Function.update f k p x) := by
  rw [ExtTreeMap.mem_insertIfNew, LawfulEqCmp.compare_eq_iff_eq, h]
  by_cases hx : x = k
  · simp [hx, hp]
  · simp [hx, Ne.symm hx]

theorem mirror_erase (h : ∀ x, x ∈ m ↔ P (f x)) (hp : ¬ P p) (x : Hdl) :
    x ∈ m.erase k ↔ P (Function.update f k p x) := by
  rw [ExtTreeMap.mem_erase, h]
  by_cases hx : x = k
  · simp [hx, hp]
  · simp [hx, Ne.symm hx]

end Mirror

theorem inv_step {s s' : Connections Hdl} {a : Time × Call Hdl} (hs : s.Inv)
    (h : s.step a = some s') : s'.Inv := by
  obtain ⟨now, c⟩ := a
  cases step_cases h with
  | validate k req hp =>
    -- the user is recorded in `val_map` whatever the answer is
    refine ⟨?_, ?_, hs.held⟩
    · refine mirror_insertIfNew (P := fun q => q = .accepted ∨ q = .rejected) hs.mem_valMap ?_ _
      cases (s.server.validateHandler k req).2 <;> simp
    · refine mirror_update (P := fun q => q = .opened) hs.mem_connUserMap ?_
      cases (s.server.validateHandler k req).2 <;> simp [hp]
  | opening k hp =>
    obtain ⟨u, hu⟩ := hs.exists_validated hp
    have hcarries := hs.carries_openHandler hp hu now
    refine ⟨fun x => ?_, fun x => ?_, fun n hn => ?_⟩
    · rw [WebsocketServer.openHandler_eq now hu]
      exact mirror_erase (P := fun q => q = .accepted ∨ q = .rejected) hs.mem_valMap (by simp) x
    · rw [WebsocketServer.openHandler_eq now hu]
      exact mirror_insertIfNew (P := fun q => q = .opened) hs.mem_connUserMap rfl _ x
    · -- the name taken is that of the new connection, the others had their holders
      rw [WebsocketServer.openHandler_eq now hu] at hn
      rcases Finset.mem_insert.mp hn with rfl | hn
      · exact ⟨k, (hcarries k _).mpr (.inl ⟨rfl, rfl⟩)⟩
      · obtain ⟨x, hx⟩ := hs.held n hn
        exact ⟨x, (hcarries x n).mpr (.inr hx)⟩
  | message k msg hp => exact hs
  | close k hp =>
    obtain ⟨u, hu⟩ := hs.exists_connected hp
    have hcarries := hs.carries_closeHandler hp
    refine ⟨fun x => ?_, fun x => ?_, fun n hn => ?_⟩
    · rw [WebsocketServer.closeHandler_eq hu]
      exact mirror_update (P := fun q => q = .accepted ∨ q = .rejected) hs.mem_valMap
        (by simp [hp]) x
    · rw [WebsocketServer.closeHandler_eq hu]
      exact mirror_erase (P := fun q => q = .opened) hs.mem_connUserMap (by simp) x
    · rw [WebsocketServer.closeHandler_eq hu] at hn
      obtain ⟨hne, hn⟩ := Finset.mem_erase.mp hn
      obtain ⟨x, hx⟩ := hs.held n hn
      refine ⟨x, (hcarries x n).mpr ⟨?_, hx⟩⟩
      rintro rfl
      obtain ⟨v, hv, hvn⟩ := hx
      rw [hu] at hv
      exact hne (Option.some.inj hv ▸ hvn.symm)
  | fail k hp =>
    -- a failed connection never was in `conn_user_map`
    have hopen : s.phase k ≠ .opened := by rcases hp with hp | hp | hp <;> simp [hp]
    rw [WebsocketServer.failHandler_fst]
    refine ⟨fun x => ?_, fun x => ?_, hs.held⟩
    · exact mirror_erase (P := fun q => q = .accepted ∨ q = .rejected) hs.mem_valMap (by simp) x
    · exact mirror_update (P := fun q => q = .opened) hs.mem_connUserMap (by simp [hopen]) x

theorem inv_of_reachable {s : Connections Hdl} (h : Reachable step init s) : s.Inv :=
  h.invariant inv_init fun _ _ _ => inv_step

/-! ## Where the records come from -/

omit [LinearOrder Hdl] in
/-- A connection that is accepted after the phase of one was set to another phase was accepted
before. -/
theorem accepted_of_update [DecidableEq Hdl] {f : Hdl → Phase} {x k : Hdl} {p : Phase}
    (hk : Function.update f x p k = .accepted) (hp : p ≠ .accepted) : k ≠ x ∧ f k = .accepted := by
  by_cases hkx : k = x
  · subst hkx
    exact absurd (by simpa using hk) hp
  · exact ⟨hkx, by simpa [hkx] using hk⟩

/-- The record of an accepted connection was made in the step, from its request, or before. -/
theorem accepted_of_step {s s' : Connections Hdl} {now : Time} {c : Call Hdl} (hs : s.Inv)
    (h : s.step (now, c) = some s') {k : Hdl} {u : User} (hk : s'.phase k = .accepted)
    (hu : s'.server.valMap[k]? = some u) :
    (∃ req, c = .validateHandler k req ∧ (s.server.validateHandler k req).2 = true ∧
        u = (WebsocketServer.getConnectionUser req).2) ∨
      s.phase k = .accepted ∧ s.server.valMap[k]? = some u := by
  cases step_cases h with
  | validate x req hx =>
    by_cases hkx : k = x
    · subst hkx
      have hnew : k ∉ s.server.valMap := by
        rw [hs.mem_valMap]
        simp [hx]
      have hans : (s.server.validateHandler k req).2 = true := by
        by_contra hans
        simp [hans] at hk
      simp only [WebsocketServer.validateHandler_valMap, ExtTreeMap.getElem?_insertIfNew,
        ReflCmp.compare_self, hnew, not_false_eq_true, and_self, if_true, Option.some.injEq] at hu
      exact .inl ⟨req, rfl, hans, hu.symm⟩
    · refine .inr ⟨by simpa [hkx] using hk, ?_⟩
      simpa [ExtTreeMap.getElem?_insertIfNew, Ne.symm hkx] using hu
  | opening x hx =>
    obtain ⟨w, hw⟩ := hs.exists_validated hx
    obtain ⟨hkx, hk⟩ := accepted_of_update hk (by simp)
    rw [WebsocketServer.openHandler_eq now hw] at hu
    exact .inr ⟨hk, by simpa [ExtTreeMap.getElem?_erase, Ne.symm hkx] using hu⟩
  | message x msg hx => exact .inr ⟨hk, hu⟩
  | close x hx =>
    obtain ⟨w, hw⟩ := hs.exists_connected hx
    obtain ⟨-, hk⟩ := accepted_of_update hk (by simp)
    rw [WebsocketServer.closeHandler_eq hw] at hu
    exact .inr ⟨hk, hu⟩
  | fail x hx =>
    obtain ⟨hkx, hk⟩ := accepted_of_update hk (by simp)
    rw [WebsocketServer.failHandler_fst] at hu
    exact .inr ⟨hk, by simpa [ExtTreeMap.getElem?_erase, Ne.symm hkx] using hu⟩

/-- The record of an open connection was moved there in the step, stamped, or before. -/
theorem connected_of_step {s s' : Connections Hdl} {now : Time} {c : Call Hdl} (hs : s.Inv)
    (h : s.step (now, c) = some s') {k : Hdl} {v : User}
    (hv : s'.server.connUserMap[k]? = some v) :
    (∃ u, c = .openHandler k ∧ s.phase k = .accepted ∧ s.server.valMap[k]? = some u ∧
        v = u.setCurrentTime now) ∨
      s.server.connUserMap[k]? = some v := by
  cases step_cases h with
  | validate x req hx => exact .inr hv
  | opening x hx =>
    obtain ⟨u, hu⟩ := hs.exists_validated hx
    rcases (hs.connUserMap_openHandler hx hu now k v).mp hv with ⟨rfl, rfl⟩ | hv
    · exact .inl ⟨u, rfl, hx, hu, rfl⟩
    · exact .inr hv
  | message x msg hx => exact .inr hv
  | close x hx => exact .inr ((hs.connUserMap_closeHandler hx k v).mp hv).2
  | fail x hx =>
    rw [WebsocketServer.failHandler_fst] at hv
    exact .inr hv

/-- A connection that carries a name was opened under it in the step, or carried it before. -/
theorem carries_of_step {s s' : Connections Hdl} {now : Time} {c : Call Hdl} (hs : s.Inv)
    (h : s.step (now, c) = some s') {k : Hdl} {n : Bytes} (hk : s'.server.Carries k n) :
    (∃ u, c = .openHandler k ∧ s.phase k = .accepted ∧ s.server.valMap[k]? = some u ∧
        u.username = n) ∨
      s.server.Carries k n := by
  obtain ⟨v, hv, hn⟩ := hk
  rcases connected_of_step hs h hv with ⟨u, hc, hp, hu, rfl⟩ | hv
  · exact .inl ⟨u, hc, hp, hu, hn⟩
  · exact .inr ⟨v, hv, hn⟩

/-! ## Calls in a run -/

/-- In the run `as`, the handler was called. -/
def CalledIn (as : List (Time × Call Hdl)) (c : Call Hdl) : Prop := ∃ now, (now, c) ∈ as

omit [LinearOrder Hdl] in
theorem calledIn_concat {as : List (Time × Call Hdl)} {now : Time} {c d : Call Hdl} :
    CalledIn (as ++ [(now, c)]) d ↔ CalledIn as d ∨ d = c := by
  simp only [CalledIn, List.mem_append, List.mem_singleton, Prod.mk.injEq, exists_or]
  exact or_congr_right ⟨fun ⟨_, _, hd⟩ => hd, fun hd => ⟨now, rfl, hd⟩⟩

end Connections

end SimpleChat
