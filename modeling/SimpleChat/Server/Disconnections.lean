import SimpleChat.Server.Roster

/-!
# Closing a connection twice

A connection stays in `conn_user_map` from the beginning of its close to its `CloseHandler`. A
disconnection of its user that is handled in between finds it there and closes it again, which raises
an exception on the thread of the callback and terminates the server.

## Main definitions

* `System.ClosingIn`: in a run, the close of a connection has begun and is not over
* `System.KicksApart`: no disconnection of a name is handled while a connection under it is closing

## Main results

* `System.closingIn_of_mem_closing`, `System.mem_closing_of_closingIn`: the state and the history
* `System.no_double_close`: no connection is closed twice in a run whose kicks are apart, and only
  there if names are distinct
-/

namespace SimpleChat

open Containers Transition

namespace System

variable {Hdl : Type} [LinearOrder Hdl]

/-- The close of the connection begins with the step: the close frame of its peer arrives, or a
`DISCONNECT_USER` event of the name that it carries is handled. -/
def BeginsClose (s : System Hdl) (a : Action Hdl) (hdl : Hdl) : Prop :=
  a = .peerClose hdl ∨ ∃ user, s.Handles a user ∧ s.conn.server.Carries hdl user.username

/-- In the run, the close of the connection has begun and its `CloseHandler` was not called since. -/
def ClosingIn (now : Time) (as : List (Action Hdl)) (hdl : Hdl) : Prop :=
  ∃ p a q t, as = p ++ a :: q ∧ run step (init now) p = some t ∧ t.BeginsClose a hdl ∧
    .call (.closeHandler hdl) ∉ q

/-- No `DISCONNECT_USER` event of a name is handled in the run while the close of a connection that
carries the name has begun and is not over. -/
def KicksApart (now : Time) (as : List (Action Hdl)) : Prop :=
  ∀ p a t user hdl, p ++ [a] <+: as → run step (init now) p = some t → t.Handles a user →
    t.conn.server.Carries hdl user.username → ¬ ClosingIn now p hdl

variable {now : Time} {as p : List (Action Hdl)} {s t : System Hdl}

theorem KicksApart.of_prefix (h : KicksApart now as) (hp : p <+: as) : KicksApart now p := by
  intro q a t user hdl hq
  exact h q a t user hdl (hq.trans hp)

theorem ClosingIn.concat {a : Action Hdl} {hdl : Hdl} (h : ClosingIn now as hdl)
    (ha : a ≠ .call (.closeHandler hdl)) : ClosingIn now (as ++ [a]) hdl := by
  obtain ⟨p, b, q, t, rfl, ht, hbegins, hnot⟩ := h
  refine ⟨p, b, q ++ [a], t, by simp, ht, hbegins, ?_⟩
  rw [List.mem_append, not_or, List.mem_singleton]
  exact ⟨hnot, ha.symm⟩

theorem BeginsClose.closingIn {a : Action Hdl} {hdl : Hdl} (hrun : run step (init now) as = some s)
    (h : s.BeginsClose a hdl) : ClosingIn now (as ++ [a]) hdl :=
  ⟨as, a, [], s, rfl, hrun, h, List.not_mem_nil⟩

/-- A connection that is closing began to close in the run. -/
theorem closingIn_of_mem_closing (hrun : run step (init now) as = some s) :
    ∀ k ∈ s.closing, ClosingIn now as k := by
  refine run_history_induction (P := fun p t => ∀ k ∈ t.closing, ClosingIn now p k) ?_ ?_ hrun
  · intro k hk
    cases hk
  · intro p t a u hp ih hstep k hk
    cases close_cases hstep with
    | ended hdl ha hclosing =>
      obtain ⟨hne, hk⟩ := Finset.mem_erase.mp (hclosing ▸ hk)
      refine (ih k hk).concat ?_
      rintro rfl
      cases ha
      exact hne rfl
    | byPeer hdl ha hopen hclosing =>
      rcases Finset.mem_insert.mp (hclosing ▸ hk) with rfl | hk
      · exact BeginsClose.closingIn hp (.inl ha)
      · exact (ih k hk).concat (by simp [ha])
    | kicked user hdl hhandles htarget hopen hclosing =>
      have hcarries := (WebsocketServer.disconnectUser_eq_some.mp htarget).1
      rcases Finset.mem_insert.mp (hclosing ▸ hk) with rfl | hk
      · exact BeginsClose.closingIn hp (.inr ⟨user, hhandles, hcarries⟩)
      · obtain ⟨i, bus, rfl, -⟩ := hhandles
        exact (ih k hk).concat nofun
    | doubled user hdl hhandles htarget hopen hclosing =>
      obtain ⟨i, bus, rfl, -⟩ := hhandles
      exact (ih k (hclosing ▸ hk)).concat nofun
    | kept hnone hclosing =>
      refine (ih k (hclosing ▸ hk)).concat ?_
      rintro rfl
      -- the `CloseHandler` of a connection ends its close
      obtain ⟨-, -, -, -, hclosing', -⟩ := call_effect hstep
      rw [hclosing', closingAfter] at hk
      exact (Finset.mem_erase.mp hk).1 rfl

/-- A connection is closing until its `CloseHandler`. -/
theorem mem_closing_step {s' : System Hdl} {a : Action Hdl} (h : s.step a = some s') {k : Hdl}
    (hk : k ∈ s.closing) (ha : a ≠ .call (.closeHandler k)) : k ∈ s'.closing := by
  cases close_cases h with
  | ended hdl hc hclosing =>
    rw [hclosing, Finset.mem_erase]
    refine ⟨?_, hk⟩
    rintro rfl
    exact ha hc
  | byPeer hdl hc hopen hclosing => rw [hclosing]; exact Finset.mem_insert_of_mem hk
  | kicked user hdl hhandles htarget hopen hclosing =>
    rw [hclosing]
    exact Finset.mem_insert_of_mem hk
  | doubled user hdl hhandles htarget hopen hclosing => rwa [hclosing]
  | kept hnone hclosing => rwa [hclosing]

/-- The step with which the close of a connection begins leaves it closing, unless it terminates the
server. -/
theorem BeginsClose.mem_closing {s' : System Hdl} {a : Action Hdl} {k : Hdl}
    (hd : s.conn.DistinctNames) (hbegins : s.BeginsClose a k) (h : s.step a = some s')
    (hterm : s'.terminated = false) : k ∈ s'.closing := by
  rcases hbegins with rfl | ⟨user, hhandles, hcarries⟩
  · cases step_cases h with
    | peerClose _ hopen => exact Finset.mem_insert_self _ _
  · have htarget := hd.disconnectUser_eq hcarries
    cases close_cases h with
    | ended hdl ha => obtain ⟨i, bus, rfl, -⟩ := hhandles; cases ha
    | byPeer hdl ha => obtain ⟨i, bus, rfl, -⟩ := hhandles; cases ha
    | kicked user' hdl hhandles' htarget' hopen hclosing =>
      obtain rfl := hhandles.unique hhandles'
      obtain rfl := Option.some.inj (htarget.symm.trans htarget')
      rw [hclosing]
      exact Finset.mem_insert_self _ _
    | doubled _ _ _ _ _ _ hterm' => exact absurd (hterm'.symm.trans hterm) (by decide)
    | kept hnone => exact absurd (htarget.symm.trans (hnone user hhandles)) (by simp)

/-- Where names are distinct, a connection whose close has begun in a run and is not over is closing,
unless the server was terminated. -/
theorem mem_closing_of_closingIn (hrun : run step (init now) as = some s)
    (hdistinct : Along step (fun s => s.conn.DistinctNames) (init now) as)
    (hterm : s.terminated = false) {k : Hdl} (hk : ClosingIn now as k) : k ∈ s.closing := by
  obtain ⟨p, a, q, t, rfl, ht, hbegins, hnot⟩ := hk
  obtain ⟨t', ht', hrest⟩ := run_append_eq_some.mp hrun
  obtain rfl := Option.some.inj (ht.symm.trans ht')
  obtain ⟨u, ha, hq⟩ := Option.bind_eq_some_iff.mp hrest
  have hd := hdistinct p t (List.prefix_append _ _) ht
  have hu : k ∈ u.closing := hbegins.mem_closing hd ha
    (run_backward (P := fun v => v.terminated = false) (fun _ _ _ h _ => running_of_step h) hq hterm)
  refine run_history_induction (P := fun q v => .call (.closeHandler k) ∉ q → k ∈ v.closing)
    (fun _ => hu) ?_ hq hnot
  intro q v b w _ ih hstep hnot
  rw [List.mem_append, not_or, List.mem_singleton] at hnot
  exact mem_closing_step hstep (ih hnot.1) (Ne.symm hnot.2)

/-- **No disconnection closes a connection that is not open in a run whose kicks are apart**, and
where names are distinct in no other run. -/
theorem no_double_close (hrun : run step (init now) as = some s) :
    (KicksApart now as → Along step (fun s => s.terminated = false) (init now) as) ∧
      (Along step (fun s => s.conn.DistinctNames) (init now) as →
        (Along step (fun s => s.terminated = false) (init now) as ↔ KicksApart now as)) := by
  have hapart : KicksApart now as → Along step (fun s => s.terminated = false) (init now) as := by
    intro hapart p t hp ht
    refine run_history_induction (P := fun p t => p <+: as → t.terminated = false) (fun _ => rfl) ?_
      ht hp
    intro q t a u hq ih hstep hpre
    have ih := ih ((List.prefix_append q [a]).trans hpre)
    cases close_cases hstep with
    | doubled user hdl hhandles htarget hopen =>
      -- the target is in the map, so it is closing if it is not open
      obtain ⟨hcarries, -⟩ := WebsocketServer.disconnectUser_eq_some.mp htarget
      have hopened := (inv_of_reachable ⟨q, hq⟩).opened_of_carries hcarries
      have hclosing : hdl ∈ t.closing := by
        by_contra hnot
        exact hopen ⟨hopened, hnot⟩
      exact absurd (closingIn_of_mem_closing hq hdl hclosing)
        (hapart q a t user hdl hpre hq hhandles hcarries)
    | ended _ _ _ hterm => exact hterm.trans ih
    | byPeer _ _ _ _ hterm => exact hterm.trans ih
    | kicked _ _ _ _ _ _ hterm => exact hterm.trans ih
    | kept _ _ hterm => exact hterm.trans ih
  refine ⟨hapart, fun hdistinct => ⟨fun hterm => ?_, hapart⟩⟩
  intro p a t user hdl hpre ht hhandles hcarries hclosing
  have hp : p <+: as := (List.prefix_append p [a]).trans hpre
  have hd := hdistinct p t hp ht
  have hmem := mem_closing_of_closingIn ht (hdistinct.of_prefix hp) (hterm p t hp ht) hclosing
  obtain ⟨rest, rfl⟩ := hpre
  obtain ⟨u, hu, -⟩ := run_append_eq_some.mp hrun
  obtain ⟨t', ht', hstep⟩ := run_concat_eq_some.mp hu
  obtain rfl := Option.some.inj (ht.symm.trans ht')
  have htarget := hd.disconnectUser_eq hcarries
  cases close_cases hstep with
  | ended _ ha => obtain ⟨i, bus, rfl, -⟩ := hhandles; cases ha
  | byPeer _ ha => obtain ⟨i, bus, rfl, -⟩ := hhandles; cases ha
  | kicked user' hdl' hhandles' htarget' hopen =>
    obtain rfl := hhandles.unique hhandles'
    obtain rfl := Option.some.inj (htarget.symm.trans htarget')
    exact hopen.2 hmem
  | doubled _ _ _ _ _ _ hterminated =>
    exact absurd (hterminated.symm.trans (hterm _ u (List.prefix_append _ _) hu)) (by decide)
  | kept hnone => exact absurd (htarget.symm.trans (hnone user hhandles)) (by simp)

/-- A user is kicked twice before its close is over. -/
def doubleKick : List (Action ℕ) :=
  [.call (.validateHandler 1 (Connections.requestNamed "bob")), .call (.openHandler 1),
    .kickUser (bytes "bob"), .kickUser (bytes "bob"), .popEvent, .popEvent, .popEvent,
    .runThread 1, .runThread 2]

theorem doubleKick_runs : (run step (init 0) doubleKick).isSome = true := by decide

/-- The state after the double kick. -/
def kickedTwice : System ℕ := (run step (init 0) doubleKick).get doubleKick_runs

theorem run_doubleKick : run step (init 0) doubleKick = some kickedTwice :=
  (Option.some_get _).symm

/-- The second kick closes a connection that is closing, and terminates the server. -/
theorem double_kick_terminates :
    Reachable step (init 0) kickedTwice ∧ ¬ kickedTwice.terminated = false :=
  ⟨⟨doubleKick, run_doubleKick⟩, by decide⟩

/-- A user is kicked, connects again after its close, and is kicked again. -/
def kickedAgain : List (Action ℕ) :=
  [.call (.validateHandler 1 (Connections.requestNamed "bob")), .call (.openHandler 1),
    .kickUser (bytes "bob"), .kickUser (bytes "bob"), .popEvent, .popEvent, .popEvent,
    .runThread 1, .call (.closeHandler 1),
    .call (.validateHandler 2 (Connections.requestNamed "bob")), .call (.openHandler 2),
    .runThread 2]

theorem kickedAgain_runs : (run step (init 0) kickedAgain).isSome = true := by decide

/-- The kicks of `kickedAgain` are apart, and those of `doubleKick` are not. -/
theorem no_double_close_kickedAgain :
    KicksApart 0 kickedAgain ∧ ¬ KicksApart 0 doubleKick := by
  obtain ⟨s, hs⟩ := Option.isSome_iff_exists.mp kickedAgain_runs
  have hnodup : Along step (fun s : System ℕ =>
      (s.conn.server.connUserMap.toList.map fun e => e.2.username).Nodup) (init 0) kickedAgain :=
    along_of_take (by decide)
  have hdistinct : Along step (fun s : System ℕ => s.conn.DistinctNames) (init 0) kickedAgain :=
    fun p t hp ht => Connections.not_duplicated_of_nodup (hnodup p t hp ht)
  refine ⟨((no_double_close hs).2 hdistinct).mp (along_of_take (by decide)), fun hapart => ?_⟩
  have hterm := ((no_double_close run_doubleKick).1 hapart).last run_doubleKick
  revert hterm
  decide

end System

end SimpleChat
