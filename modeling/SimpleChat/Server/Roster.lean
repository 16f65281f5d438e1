import SimpleChat.Server.Schedule
import SimpleChat.WebsocketServer.Usernames

/-!
# The roster and the idle tracking

`ClientMgr` learns of connections by events, whose threads run in any order. It agrees with
`conn_user_map` once it has handled every event, if no two open connections share a name and the
sections of one name run in the order of their events. A close handled before its open leaves a
ghost in the roster, and a message handled after its close leaves one in the idle tracking.

## Main definitions

* `UsersAgree`, `TrackedAgree`, `CheckedAgree`: what the client manager should have learned
* `UsersInOrder`, `TimeoutsInOrder`: the conditions on the schedule

## Main results

* `roster_agrees`: the users shown to the admin are the users of the open connections
* `tracking_agrees`: the users whose activity is kept are those of the open connections
-/

namespace SimpleChat

open Containers Std Transition

namespace Connections

variable {Hdl : Type} [LinearOrder Hdl]

/-- No two open connections carry one name. -/
def DistinctNames (s : Connections Hdl) : Prop := ∀ n, ¬ s.Duplicated n

/-- The users are exactly those of the open connections, with all their fields. -/
def UsersAgree (users : UserSet) (s : Connections Hdl) : Prop :=
  ∀ u : User, UserStored users u ↔ ∃ h : Hdl, s.server.connUserMap[h]? = some u

/-- The names are exactly those of the open connections. -/
def TrackedAgree (names : Set Bytes) (s : Connections Hdl) : Prop :=
  ∀ n, n ∈ names ↔ ∃ h, s.server.Carries h n

/-- `ClientMgr::Cyclic` looks at entries of open connections only, and at one for each name that an
open connection carries. -/
def CheckedAgree (entries : List (User × Time)) (s : Connections Hdl) : Prop :=
  (∀ e ∈ entries, ∃ h, s.server.Carries h e.1.username) ∧
    ∀ h n, s.server.Carries h n → ∃ e ∈ entries, e.1.username = n

/-- What `Cyclic` looks at is what is tracked. -/
theorem TrackedAgree.checked {s : Connections Hdl} {c : ClientMgr} (h : s.TrackedAgree c.tracked) :
    s.CheckedAgree c.userTimeouts.toList := by
  constructor
  · intro e he
    exact (h _).mp (ClientMgr.mem_tracked.mpr ⟨e, he, rfl⟩)
  · intro k n hk
    exact ClientMgr.mem_tracked.mp ((h n).mpr ⟨k, hk⟩)

theorem DistinctNames.eq {s : Connections Hdl} (hd : s.DistinctNames) {h k : Hdl} {n : Bytes}
    (hh : s.server.Carries h n) (hk : s.server.Carries k n) : h = k := by
  by_contra hne
  exact hd n ⟨h, k, hne, hh, hk⟩

/-- Two open connections differ exactly if their names do. -/
theorem DistinctNames.ne_iff {s : Connections Hdl} (hd : s.DistinctNames) {h k : Hdl} {m n : Bytes}
    (hh : s.server.Carries h m) (hk : s.server.Carries k n) : h ≠ k ↔ m ≠ n := by
  constructor
  · rintro hne rfl
    exact hne (hd.eq hh hk)
  · rintro hne rfl
    obtain ⟨u, hu, rfl⟩ := hh
    obtain ⟨v, hv, rfl⟩ := hk
    rw [hu] at hv
    cases hv
    exact hne rfl

/-- A disconnection finds the one connection that carries the name. -/
theorem DistinctNames.disconnectUser_eq {s : Connections Hdl} (hd : s.DistinctNames) {user : User}
    {k : Hdl} (hk : s.server.Carries k user.username) : s.server.disconnectUser user = some k :=
  WebsocketServer.disconnectUser_eq_some.mpr ⟨hk, fun _ hx => (hd.eq hk hx).le⟩

/-! ## The open connections after a call -/

namespace Inv

variable {s : Connections Hdl} {k : Hdl} {u : User}

theorem exists_user_openHandler (hs : s.Inv) (hp : s.phase k = .accepted)
    (hu : s.server.valMap[k]? = some u) (now : Time) (v : User) :
    (∃ x : Hdl, (s.server.openHandler k now).1.connUserMap[x]? = some v) ↔
      v = u.setCurrentTime now ∨ ∃ x : Hdl, s.server.connUserMap[x]? = some v := by
  simp only [hs.connUserMap_openHandler hp hu, exists_or, exists_eq_left]

theorem exists_carries_openHandler (hs : s.Inv) (hp : s.phase k = .accepted)
    (hu : s.server.valMap[k]? = some u) (now : Time) (n : Bytes) :
    (∃ x, (s.server.openHandler k now).1.Carries x n) ↔
      n = u.username ∨ ∃ x, s.server.Carries x n := by
  simp only [hs.carries_openHandler hp hu, exists_or, exists_eq_left, @eq_comm _ n]

/-- No other open connection carries the name of the closed one. -/
theorem exists_user_closeHandler (hs : s.Inv) (hd : s.DistinctNames) (hp : s.phase k = .opened)
    (hu : s.server.connUserMap[k]? = some u) (v : User) :
    (∃ x : Hdl, (s.server.closeHandler k).1.connUserMap[x]? = some v) ↔
      v.username ≠ u.username ∧ ∃ x : Hdl, s.server.connUserMap[x]? = some v := by
  have hmap := hs.connUserMap_closeHandler hp
  constructor
  · rintro ⟨x, hx⟩
    obtain ⟨hxk, hx⟩ := (hmap x v).mp hx
    exact ⟨(hd.ne_iff ⟨v, hx, rfl⟩ ⟨u, hu, rfl⟩).mp hxk, x, hx⟩
  · rintro ⟨hne, x, hx⟩
    exact ⟨x, (hmap x v).mpr ⟨(hd.ne_iff ⟨v, hx, rfl⟩ ⟨u, hu, rfl⟩).mpr hne, hx⟩⟩

theorem exists_carries_closeHandler (hs : s.Inv) (hd : s.DistinctNames) (hp : s.phase k = .opened)
    (hu : s.server.connUserMap[k]? = some u) (n : Bytes) :
    (∃ x, (s.server.closeHandler k).1.Carries x n) ↔
      n ≠ u.username ∧ ∃ x, s.server.Carries x n := by
  have hcarries := hs.carries_closeHandler hp
  constructor
  · rintro ⟨x, hx⟩
    obtain ⟨hxk, hx⟩ := (hcarries x n).mp hx
    exact ⟨(hd.ne_iff hx ⟨u, hu, rfl⟩).mp hxk, x, hx⟩
  · rintro ⟨hne, x, hx⟩
    exact ⟨x, (hcarries x n).mpr ⟨(hd.ne_iff hx ⟨u, hu, rfl⟩).mpr hne, hx⟩⟩

end Inv

/-! ## The events of the handlers, handled at once -/

/-- The event of a handler, handled at once, keeps the users in agreement. -/
theorem usersAgree_step {s s' : Connections Hdl} {now : Time} {c : Call Hdl} {users : UserSet}
    (hs : s.Inv) (hd : s.DistinctNames) (hd' : s'.DistinctNames) (hu : UsersAgree users s)
    (h : s.step (now, c) = some s') :
    UsersAgree ((s.server.sentEvent now c).elim users fun e =>
      flush ClientMgr.usersAfter (ClientMgr.eventHandler e) users) s' := by
  cases step_cases h with
  | validate k req hp => exact hu
  | opening k hp =>
    obtain ⟨u, hval⟩ := hs.exists_validated hp
    have hmap := hs.connUserMap_openHandler hp hval now
    -- the name is new, for its connection is the only one that carries it afterwards
    have hfree : ∀ v, UserStored users v → v.username ≠ (u.setCurrentTime now).username := by
      intro v hv hname
      obtain ⟨x, hx⟩ := (hu v).mp hv
      have hxk : x = k := hd'.eq ⟨v, (hmap x v).mpr (.inr hx), hname⟩
        ⟨_, (hmap k _).mpr (.inl ⟨rfl, rfl⟩), rfl⟩
      have hopen := (hs.mem_connUserMap x).mp (mem_of_getElem? hx)
      rw [hxk, hp] at hopen
      cases hopen
    rw [WebsocketServer.sentEvent_openHandler now hval]
    intro v
    rw [hs.exists_user_openHandler hp hval, ← hu v]
    exact ClientMgr.userStored_insert hfree v
  | message k msg hp =>
    exact hu
  | close k hp =>
    obtain ⟨u, hconn⟩ := hs.exists_connected hp
    rw [WebsocketServer.sentEvent_closeHandler now hconn]
    intro v
    rw [hs.exists_user_closeHandler hd hp hconn, ← hu v]
    exact ClientMgr.userStored_erase u v
  | fail k hp =>
    -- `ClientMgr` does not subscribe to failed connections, which are in no map it mirrors
    have hconn : (s.server.failHandler k).1.connUserMap = s.server.connUserMap := by
      rw [WebsocketServer.failHandler_fst]
    intro v
    rw [hconn]
    exact hu v

/-- The event of a handler, handled at once, keeps the tracked names in agreement. -/
theorem trackedAgree_step {s s' : Connections Hdl} {now : Time} {c : Call Hdl} {names : Set Bytes}
    (hs : s.Inv) (hd : s.DistinctNames) (ht : TrackedAgree names s)
    (h : s.step (now, c) = some s') :
    TrackedAgree ((s.server.sentEvent now c).elim names fun e =>
      flush ClientMgr.trackedAfter (ClientMgr.eventHandler e) names) s' := by
  cases step_cases h with
  | validate k req hp => exact ht
  | opening k hp =>
    obtain ⟨u, hval⟩ := hs.exists_validated hp
    rw [WebsocketServer.sentEvent_openHandler now hval]
    intro n
    rw [hs.exists_carries_openHandler hp hval, ← ht n]
    exact Set.mem_insert_iff
  | message k msg hp =>
    obtain ⟨u, hconn⟩ := hs.exists_connected hp
    rw [WebsocketServer.sentEvent_of_connected now msg hconn]
    -- the sender is connected, so its name is tracked already
    have hmem : u.username ∈ names := (ht _).mpr ⟨k, u, hconn, rfl⟩
    have hsame : insert u.username names = names := Set.insert_eq_of_mem hmem
    intro n
    rw [← ht n]
    exact Set.ext_iff.mp hsame n
  | close k hp =>
    obtain ⟨u, hconn⟩ := hs.exists_connected hp
    rw [WebsocketServer.sentEvent_closeHandler now hconn]
    intro n
    rw [hs.exists_carries_closeHandler hd hp hconn, ← ht n, and_comm]
    exact Set.mem_sdiff_singleton
  | fail k hp =>
    have hfail : (s.server.failHandler k).1 = { s.server with
        valMap := s.server.valMap.erase k } := WebsocketServer.failHandler_fst _ _
    intro n
    rw [hfail]
    exact ht n

end Connections

/-- The username at which a section changes the users. -/
def Work.usersName : Work → Option Bytes
  | .clientMgr x => x.usersName
  | _ => none

/-- The username whose timeout a section sets. -/
def Work.timeoutSet : Work → Option Bytes
  | .clientMgr (.setTimeout user) => some user.username
  | _ => none

/-- The username whose timeout a section erases. -/
def Work.timeoutErased : Work → Option Bytes
  | .clientMgr (.eraseTimeout user) => some user.username
  | _ => none

namespace System

variable {Hdl : Type} [LinearOrder Hdl]

/-- A thread changes the users at a name only when no earlier thread has still to change them at
that name. -/
def UsersInOrder (s : System Hdl) : Action Hdl → Prop
  | .runThread i => ∀ r ∈ s.bus.take i, ∀ n ∈ r.1.usersName,
      ∀ w ∈ s.bus.earlier i, w.usersName ≠ some n
  | _ => True

/-- A thread sets the timeout of a name only when no earlier thread has still to erase it, and
erases it only when no earlier thread has still to set it. -/
def TimeoutsInOrder (s : System Hdl) : Action Hdl → Prop
  | .runThread i => ∀ r ∈ s.bus.take i,
      (∀ n ∈ r.1.timeoutSet, ∀ w ∈ s.bus.earlier i, w.timeoutErased ≠ some n) ∧
      ∀ n ∈ r.1.timeoutErased, ∀ w ∈ s.bus.earlier i, w.timeoutSet ≠ some n
  | _ => True

instance (s : System Hdl) : (a : Action Hdl) → Decidable (s.UsersInOrder a)
  | .runThread i => inferInstanceAs (Decidable (∀ r ∈ s.bus.take i, ∀ n ∈ r.1.usersName,
      ∀ w ∈ s.bus.earlier i, w.usersName ≠ some n))
  | .call _ => isTrue trivial
  | .peerClose _ => isTrue trivial
  | .kickUser _ => isTrue trivial
  | .takeSnapshot => isTrue trivial
  | .checkEntry => isTrue trivial
  | .popEvent => isTrue trivial
  | .advance _ => isTrue trivial

instance (s : System Hdl) : (a : Action Hdl) → Decidable (s.TimeoutsInOrder a)
  | .runThread i => inferInstanceAs (Decidable (∀ r ∈ s.bus.take i,
      (∀ n ∈ r.1.timeoutSet, ∀ w ∈ s.bus.earlier i, w.timeoutErased ≠ some n) ∧
      ∀ n ∈ r.1.timeoutErased, ∀ w ∈ s.bus.earlier i, w.timeoutSet ≠ some n))
  | .call _ => isTrue trivial
  | .peerClose _ => isTrue trivial
  | .kickUser _ => isTrue trivial
  | .takeSnapshot => isTrue trivial
  | .checkEntry => isTrue trivial
  | .popEvent => isTrue trivial
  | .advance _ => isTrue trivial

theorem usersView_inOrder {s : System Hdl} {a : Action Hdl} (h : s.UsersInOrder a) :
    usersView.InOrder s a := by
  cases a with
  | runThread i =>
    intro x bus hi y hy users
    exact ClientMgr.usersAfter_comm (fun n hn => h _ hi n hn _ hy) users
  | _ => trivial

theorem trackedView_inOrder {s : System Hdl} {a : Action Hdl} (h : s.TimeoutsInOrder a) :
    trackedView.InOrder s a := by
  cases a with
  | runThread i =>
    intro x bus hi y hy names
    refine ClientMgr.trackedAfter_comm ?_ ?_ names
    · rintro u v rfl rfl hn
      exact (h _ hi).1 u.username rfl _ hy (congrArg some hn)
    · rintro u v rfl rfl hn
      exact (h _ hi).2 u.username rfl _ hy (congrArg some hn)
  | _ => trivial

/-- **The roster agrees with the connections** once every event is handled, in every run in which
no two open connections share a name and the users are changed in the order of the events. -/
theorem roster_agrees {now : Time} {as : List (Action Hdl)}
    (hdistinct : Along step (fun s => s.conn.DistinctNames) (init now) as)
    (horder : Meets step UsersInOrder (init now) as) :
    Along step (fun s => s.Settled → s.conn.UsersAgree s.clientMgr.users) (init now) as := by
  have h0 : Connections.UsersAgree (usersView.get .init) (.init : Connections Hdl) := by
    intro u
    simp [usersView, ClientMgr.init, UserStored, Connections.init, WebsocketServer.init]
  have hord : Meets step usersView.InOrder (init now) as := fun p a t hp ht =>
    usersView_inOrder (horder p a t hp ht)
  have hcompleted := View.completed_along h0
    (fun c c' now call users hc hd hd' hu h => Connections.usersAgree_step hc hd hd' hu h)
    hdistinct hord
  intro p t hp ht hsettled
  have hagree : t.conn.UsersAgree (usersView.completed t) := hcompleted p t hp ht
  rwa [View.completed_of_settled hsettled] at hagree

/-- The usernames in `conn_user_map` are distinct at every point of a run. -/
theorem along_distinctNames {as : List (Action ℕ)}
    (h : ∀ k ≤ as.length, ∀ t ∈ run step (init 0) (as.take k),
      (t.conn.server.connUserMap.toList.map fun e => e.2.username).Nodup) :
    Along step (fun s => s.conn.DistinctNames) (init 0) as := fun p t hp ht =>
  Connections.not_duplicated_of_nodup (along_of_take h p t hp ht)

theorem settled_of_pending {s : System Hdl} (h : s.pending = []) : s.Settled := by
  intro x hx
  rw [h] at hx
  cases hx

/-- Two connections are opened, one sends a message and the other is closed. The message is handled
before the opening of its connection, and that before the opening of the other. -/
def orderlyRun : List (Action ℕ) :=
  [.call (.validateHandler 1 (Connections.requestNamed "bob")), .call (.openHandler 1),
    .call (.validateHandler 2 (Connections.requestNamed "alice")), .call (.openHandler 2),
    .call (.messageHandler 2 ⟨bytes "hi", .text⟩), .call (.closeHandler 1), .popEvent, .popEvent,
    .popEvent, .popEvent, .runThread 2, .runThread 3, .runThread 4, .runThread 1, .runThread 1,
    .runThread 0, .runThread 0, .runThread 5, .runThread 5]

theorem orderlyRun_runs : (run step (init 0) orderlyRun).isSome = true := by decide

/-- The state after the orderly run. -/
def orderly : System ℕ := (run step (init 0) orderlyRun).get orderlyRun_runs

theorem run_orderlyRun : run step (init 0) orderlyRun = some orderly := (Option.some_get _).symm

theorem orderly_distinct : Along step (fun s => s.conn.DistinctNames) (init 0) orderlyRun :=
  along_distinctNames (by decide)

theorem orderly_settled : orderly.Settled := settled_of_pending (by decide)

theorem roster_agrees_orderly : orderly.conn.UsersAgree orderly.clientMgr.users :=
  (roster_agrees orderly_distinct (meets_of_take (by decide))).last run_orderlyRun orderly_settled

/-- A connection is opened and closed, and its close is handled before its open. -/
def ghostRun : List (Action ℕ) :=
  [.call (.validateHandler 1 (Connections.requestNamed "bob")), .call (.openHandler 1),
    .call (.closeHandler 1), .popEvent, .popEvent, .runThread 1, .runThread 1, .runThread 0,
    .runThread 0]

theorem ghostRun_runs : (run step (init 0) ghostRun).isSome = true := by decide

/-- The state after the run that leaves a ghost. -/
def ghost : System ℕ := (run step (init 0) ghostRun).get ghostRun_runs

theorem run_ghostRun : run step (init 0) ghostRun = some ghost := (Option.some_get _).symm

/-- A close handled before its open leaves a user in the roster who is not connected. -/
theorem late_open_leaves_ghost :
    run step (init 0) ghostRun = some ghost ∧
      Along step (fun s => s.conn.DistinctNames) (init 0) ghostRun ∧
      ghost.Settled ∧ ¬ ghost.conn.UsersAgree ghost.clientMgr.users := by
  have hempty : ghost.conn.server.connUserMap = ∅ := ExtTreeMap.isEmpty_iff.mp (by decide)
  refine ⟨run_ghostRun, along_distinctNames (by decide), settled_of_pending (by decide),
    fun hagree => ?_⟩
  obtain ⟨h, hh⟩ := (hagree ⟨bytes "bob", bytes "10.0.0.1", 50000, some 0⟩).mp
    ⟨(), by decide⟩
  rw [hempty] at hh
  simp at hh

/-- **The tracked names agree with the connections** once every event is handled, in every run in
which no two open connections share a name and no thread sets and erases the timeout of a name
against the order of the events. Then `Cyclic` looks at the users who are connected, and at nobody
else. -/
theorem tracking_agrees {now : Time} {as : List (Action Hdl)}
    (hdistinct : Along step (fun s => s.conn.DistinctNames) (init now) as)
    (horder : Meets step TimeoutsInOrder (init now) as) :
    Along step (fun s => s.Settled → s.conn.TrackedAgree s.clientMgr.tracked ∧
      s.conn.CheckedAgree s.clientMgr.userTimeouts.toList) (init now) as := by
  have h0 : Connections.TrackedAgree (trackedView.get .init) (.init : Connections Hdl) := by
    intro n
    simp [trackedView, ClientMgr.init, ClientMgr.tracked, Connections.init, WebsocketServer.init,
      WebsocketServer.Carries]
  have hord : Meets step trackedView.InOrder (init now) as := fun p a t hp ht =>
    trackedView_inOrder (horder p a t hp ht)
  have hcompleted := View.completed_along h0
    (fun c c' now call names hc hd _ hn h => Connections.trackedAgree_step hc hd hn h)
    hdistinct hord
  intro p t hp ht hsettled
  have hagree : t.conn.TrackedAgree (trackedView.completed t) := hcompleted p t hp ht
  rw [View.completed_of_settled hsettled] at hagree
  exact ⟨hagree, hagree.checked⟩

theorem tracking_agrees_orderly : orderly.conn.TrackedAgree orderly.clientMgr.tracked ∧
    orderly.conn.CheckedAgree orderly.clientMgr.userTimeouts.toList :=
  (tracking_agrees orderly_distinct (meets_of_take (by decide))).last run_orderlyRun orderly_settled

/-- A connection is opened, sends a message and is closed, and its message is handled last. -/
def staleRun : List (Action ℕ) :=
  [.call (.validateHandler 1 (Connections.requestNamed "bob")), .call (.openHandler 1),
    .call (.messageHandler 1 ⟨bytes "hi", .text⟩), .call (.closeHandler 1), .popEvent, .popEvent,
    .popEvent, .runThread 0, .runThread 0, .runThread 2, .runThread 3, .runThread 4, .runThread 4,
    .runThread 1]

theorem staleRun_runs : (run step (init 0) staleRun).isSome = true := by decide

/-- The state after the run that leaves a stale timeout. -/
def stale : System ℕ := (run step (init 0) staleRun).get staleRun_runs

theorem run_staleRun : run step (init 0) staleRun = some stale := (Option.some_get _).symm

/-- A message handled after its close leaves a name tracked that no open connection carries. -/
theorem late_message_stays_tracked :
    run step (init 0) staleRun = some stale ∧
      Along step (fun s => s.conn.DistinctNames) (init 0) staleRun ∧
      stale.Settled ∧ ¬ stale.conn.TrackedAgree stale.clientMgr.tracked := by
  have hempty : stale.conn.server.connUserMap = ∅ := ExtTreeMap.isEmpty_iff.mp (by decide)
  have htracked : (stale.clientMgr.userTimeouts.find? (bytes "bob")).isSome = true := by decide
  refine ⟨run_staleRun, along_distinctNames (by decide), settled_of_pending (by decide),
    fun hagree => ?_⟩
  obtain ⟨h, u, hu, -⟩ := (hagree (bytes "bob")).mp htracked
  rw [hempty] at hu
  simp at hu

end System

end SimpleChat
