import SimpleChat.Server.Settling

/-!
# A pass of `ClientMgr::Cyclic`

A pass goes over a snapshot of the recorded times. It disconnects all users who were idle when it
began, none who are not idle when it is over, and each user once at most, in the order of the names,
whatever happens meanwhile. A connection that is to be disconnected is not open once the events of
the pass are handled.

## Main definitions

* `System.disconnectedByCyclic`: the users that a run of the server disconnects as idle
* `System.Doomed`, `System.Found`: a disconnection of a connection is pending, or it is to be found
  idle

## Main results

* `System.cyclic_pass`: who is disconnected in a pass
* `System.doomed_step`, `System.found_step`: a disconnection stays pending until it takes place
* `System.idle_connection_closes`, `System.kicked_connection_closes`: what a pass, and a kick, lead to
-/

namespace SimpleChat

open Containers Transition

/-- A connection of which the `OpenHandler` was called is not opened again. -/
def Connections.HasOpened {Hdl : Type} [LinearOrder Hdl] (s : Connections Hdl) (h : Hdl) : Prop :=
  s.phase h = .opened ∨ s.phase h = .closed

theorem Connections.hasOpened_step {Hdl : Type} [LinearOrder Hdl] {s s' : Connections Hdl}
    {now : Time} {c : Call Hdl} {h : Hdl} (hh : s.HasOpened h) (hstep : s.step (now, c) = some s') :
    s'.HasOpened h ∧ (s'.phase h = .opened → s.phase h = .opened ∧ c ≠ .closeHandler h) := by
  by_cases hc : h = c.hdl
  · subst hc
    cases step_cases hstep with
    | validate x req hx => simp [HasOpened, Call.hdl, hx] at hh
    | opening x hx => simp [HasOpened, Call.hdl, hx] at hh
    | message x msg hx => exact ⟨hh, fun hp => ⟨hp, by simp⟩⟩
    | close x hx => simp [HasOpened, Call.hdl]
    | fail x hx => rcases hx with hx | hx | hx <;> simp [HasOpened, Call.hdl, hx] at hh
  · have hphase := phase_of_step hstep hc
    rw [HasOpened, hphase]
    refine ⟨hh, fun hp => ⟨hp, ?_⟩⟩
    rintro rfl
    exact hc rfl

namespace System

variable {Hdl : Type} [LinearOrder Hdl]

/-! ## Who is disconnected -/

/-- The user that `ClientMgr::Cyclic` disconnects in a step. -/
def idleUser (s : System Hdl) : Action Hdl → Option User
  | .checkEntry =>
    match s.snapshot with
    | [] => none
    | entry :: _ => if ClientMgr.isIdle s.clock entry then some entry.1 else none
  | _ => none

/-- The users that `ClientMgr::Cyclic` disconnects in a run from a state. -/
def disconnectedByCyclic (s : System Hdl) (as : List (Action Hdl)) : List User :=
  (trace step idleUser s as).filterMap Prod.snd

theorem disconnectedByCyclic_concat {s t : System Hdl} {as : List (Action Hdl)}
    (hrun : run step s as = some t) (a : Action Hdl) :
    s.disconnectedByCyclic (as ++ [a]) = s.disconnectedByCyclic as ++ (t.idleUser a).toList := by
  rw [disconnectedByCyclic, trace_concat hrun, List.filterMap_append]
  cases t.idleUser a <;> simp [disconnectedByCyclic]

/-- Who is idle stays idle, in a snapshot. -/
theorem isIdle_mono {now later : Time} (h : now ≤ later) (entry : User × Time)
    (hidle : ClientMgr.isIdle now entry = true) : ClientMgr.isIdle later entry = true :=
  decide_eq_true (le_trans (of_decide_eq_true hidle) h)

/-- The users of some entries who are idle. -/
def idleUsers (now : Time) (entries : List (User × Time)) : List User :=
  (entries.filter (ClientMgr.isIdle now)).map Prod.fst

theorem idleUsers_mono {now later : Time} (h : now ≤ later) (entries : List (User × Time)) :
    (idleUsers now entries).Sublist (idleUsers later entries) :=
  (List.monotone_filter_right entries (isIdle_mono h)).map _

theorem idleUsers_concat (now : Time) (entries : List (User × Time)) (entry : User × Time) :
    idleUsers now (entries ++ [entry]) = idleUsers now entries ++
      (if ClientMgr.isIdle now entry then some entry.1 else none).toList := by
  rw [idleUsers, List.filter_append, List.map_append]
  cases h : ClientMgr.isIdle now entry <;> simp [idleUsers, h]

/-- A step that looks at no entry leaves the snapshot, unless a new one is taken. -/
theorem snapshot_of_step {s s' : System Hdl} {a : Action Hdl} (h : s.step a = some s')
    (hnot : a ≠ .takeSnapshot) :
    s'.snapshot = s.snapshot ∧ s.idleUser a = none ∨
      ∃ entry, s.snapshot = entry :: s'.snapshot ∧ s'.clock = s.clock ∧
        s.idleUser a = if ClientMgr.isIdle s.clock entry then some entry.1 else none := by
  cases step_cases h with
  | takeSnapshot hover => exact absurd rfl hnot
  | idleEntry entry rest hs hidle => exact .inr ⟨entry, hs, rfl, by simp [idleUser, hs, hidle]⟩
  | busyEntry entry rest hs hbusy => exact .inr ⟨entry, hs, rfl, by simp [idleUser, hs, hbusy]⟩
  | runThread i w bus hi => exact .inl ⟨perform_snapshot _ w, rfl⟩
  | _ => exact .inl ⟨rfl, rfl⟩

/-- What was looked at of a snapshot: those idle before are disconnected, and those disconnected are
idle now. -/
theorem disconnected_between {s t : System Hdl} {as : List (Action Hdl)}
    (hrun : run step s as = some t) (hnot : .takeSnapshot ∉ as) :
    s.clock ≤ t.clock ∧ ∃ seen, s.snapshot = seen ++ t.snapshot ∧
      (idleUsers s.clock seen).Sublist (s.disconnectedByCyclic as) ∧
      (s.disconnectedByCyclic as).Sublist (idleUsers t.clock seen) := by
  refine run_history_induction (P := fun p t => .takeSnapshot ∉ p →
    s.clock ≤ t.clock ∧ ∃ seen, s.snapshot = seen ++ t.snapshot ∧
      (idleUsers s.clock seen).Sublist (s.disconnectedByCyclic p) ∧
      (s.disconnectedByCyclic p).Sublist (idleUsers t.clock seen)) ?_ ?_ hrun hnot
  · exact fun _ => ⟨le_rfl, [], rfl, List.Sublist.refl _, List.Sublist.refl _⟩
  · intro p t a u hp ih hstep hnot
    rw [List.mem_append, not_or, List.mem_singleton] at hnot
    obtain ⟨hclock, seen, hseen, hlow, hhigh⟩ := ih hnot.1
    have hle := clock_le_of_step hstep
    refine ⟨le_trans hclock hle, ?_⟩
    rw [disconnectedByCyclic_concat hp]
    rcases snapshot_of_step hstep (Ne.symm hnot.2) with ⟨hsame, hnone⟩ | ⟨entry, hs, hnow, hidle⟩
    · -- no entry is looked at, but who was idle stays so
      rw [hsame, hnone, Option.toList_none, List.append_nil]
      exact ⟨seen, hseen, hlow, hhigh.trans (idleUsers_mono hle seen)⟩
    · refine ⟨seen ++ [entry], by rw [hseen, hs, List.append_assoc]; rfl, ?_, ?_⟩
      · rw [idleUsers_concat, hidle]
        refine hlow.append ?_
        split
        · next h => rw [if_pos (isIdle_mono hclock entry h)]
        · exact List.nil_sublist _
      · rw [idleUsers_concat, hidle, hnow]
        exact hhigh.append_right _

/-- **A pass of `ClientMgr::Cyclic` disconnects all users who were idle when it began, and none who
are not idle when it is over**, each once at most, in the order of the names. -/
theorem cyclic_pass {s t : System Hdl} {as : List (Action Hdl)}
    (hrun : run step s (.takeSnapshot :: as) = some t) (hnot : .takeSnapshot ∉ as)
    (hover : t.snapshot = []) :
    (idleUsers s.clock s.clientMgr.userTimeouts.toList).Sublist
        (s.disconnectedByCyclic (.takeSnapshot :: as)) ∧
      (s.disconnectedByCyclic (.takeSnapshot :: as)).Sublist
        (idleUsers t.clock s.clientMgr.userTimeouts.toList) ∧
      (s.disconnectedByCyclic (.takeSnapshot :: as)).Pairwise
        fun u v => compare u.username v.username = .lt := by
  obtain ⟨u, htake, hrest⟩ := Option.bind_eq_some_iff.mp hrun
  have hsame : s.disconnectedByCyclic (.takeSnapshot :: as) = u.disconnectedByCyclic as := by
    simp [disconnectedByCyclic, trace, htake, idleUser]
  obtain ⟨hsnapshot, hclock⟩ : u.snapshot = s.clientMgr.userTimeouts.toList ∧ u.clock = s.clock := by
    cases step_cases htake with
    | takeSnapshot _ => exact ⟨rfl, rfl⟩
  obtain ⟨-, seen, hseen, hlow, hhigh⟩ := disconnected_between hrest hnot
  rw [hsnapshot, hover, List.append_nil] at hseen
  rw [hclock] at hlow
  rw [hsame, hseen]
  refine ⟨hlow, hhigh, List.Pairwise.sublist hhigh ?_⟩
  rw [idleUsers, List.pairwise_map, ← hseen]
  exact s.clientMgr.userTimeouts.pairwise_toList.sublist List.filter_sublist

/-! ## What becomes of a connection that is to be disconnected -/

/-- A section is pending after a step if it was before, unless it ran. -/
theorem mem_pending_of_step {s s' : System Hdl} {a : Action Hdl} (h : s.step a = some s') {w : Work}
    (hw : w ∈ s.pending) : w ∈ s'.pending ∨ ∃ i bus, a = .runThread i ∧ s.bus.take i = some (w, bus) := by
  cases step_effect h with
  | handled c _ hadm hconn hmgr hpending =>
    rw [hpending]
    exact .inl (List.mem_append_left _ hw)
  | other _ _ ha hconn hmgr ws hpending =>
    rw [hpending]
    exact .inl (List.mem_append_left _ hw)
  | ran i x bus hi =>
    obtain ⟨later, hbefore, hafter⟩ := pending_ran hi
    rw [hbefore] at hw
    rw [hafter]
    rcases List.mem_append.mp hw with hw | hw
    · exact .inl (List.mem_append_left _ hw)
    · rcases List.mem_cons.mp hw with rfl | hw
      · exact .inr ⟨i, bus, rfl, hi⟩
      · exact .inl (List.mem_append_right _ hw)

/-- A callback does not open a connection. -/
theorem isOpen_of_perform {s : System Hdl} {w : Work} {h : Hdl} (ho : (s.perform w).IsOpen h) :
    s.IsOpen h := by
  obtain ⟨hp, hnot⟩ := ho
  rw [perform_conn] at hp
  refine ⟨hp, fun hc => hnot ?_⟩
  cases w with
  | disconnectUser u =>
    rw [perform]
    split
    · exact hc
    · unfold closeConnection
      split
      · exact Finset.mem_insert_of_mem hc
      · exact hc
  | _ => exact hc

/-- A connection that was opened before a step and is open after it is open before it, under the same
name. -/
theorem isOpen_of_step {s s' : System Hdl} {a : Action Hdl} {h : Hdl} {n : Bytes} (hinv : s.conn.Inv)
    (hopened : s.conn.HasOpened h) (hstep : s.step a = some s') :
    s'.conn.HasOpened h ∧ (s'.IsOpen h →
      s.IsOpen h ∧ (s.conn.server.Carries h n → s'.conn.server.Carries h n)) := by
  cases step_cases hstep with
  | call c conn hadm hconn =>
    obtain ⟨hopened', hback⟩ := Connections.hasOpened_step hopened hconn
    refine ⟨hopened', fun ho => ?_⟩
    obtain ⟨hp, hnot⟩ := ho
    obtain ⟨hp', hne⟩ := hback hp
    refine ⟨⟨hp', fun hc => hnot ?_⟩, ?_⟩
    · cases c with
      | closeHandler k =>
        refine Finset.mem_erase.mpr ⟨?_, hc⟩
        rintro rfl
        exact hne rfl
      | _ => exact hc
    · rintro ⟨u, hu, hname⟩
      obtain ⟨v, hv⟩ := (Connections.inv_step hinv hconn).exists_connected hp
      rcases Connections.connected_of_step hinv hconn hv with ⟨w, -, haccepted, -⟩ | hv'
      · rw [hp'] at haccepted
        cases haccepted
      · rw [hu] at hv'
        obtain rfl := Option.some.inj hv'
        exact ⟨_, hv, hname⟩
  | peerClose k hopen =>
    refine ⟨hopened, fun ho => ⟨⟨ho.1, fun hc => ho.2 (Finset.mem_insert_of_mem hc)⟩, id⟩⟩
  | runThread i w bus hi =>
    rw [perform_conn]
    exact ⟨hopened, fun ho => ⟨isOpen_of_perform (s := { s with bus := bus }) ho, id⟩⟩
  | _ => exact ⟨hopened, fun ho => ⟨ho, id⟩⟩

/-- The connection was opened, and as long as it is open, a disconnection of its user is pending. -/
structure Doomed (n : Bytes) (h : Hdl) (s : System Hdl) : Prop where
  opened : s.conn.HasOpened h
  carries : s.IsOpen h → s.conn.server.Carries h n
  pending : s.IsOpen h → ∃ u : User, u.username = n ∧ Work.disconnectUser u ∈ s.pending

/-- The disconnection of the only connection under a name closes it. -/
theorem not_isOpen_of_disconnect {s : System Hdl} (hd : s.conn.DistinctNames) {h : Hdl} {u : User}
    (hh : s.conn.server.Carries h u.username) (ho : s.IsOpen h) :
    ¬ (s.perform (.disconnectUser u)).IsOpen h := by
  rintro ⟨-, hnot⟩
  apply hnot
  simp [perform, hd.disconnectUser_eq hh, closeConnection, ho]

theorem doomed_step {n : Bytes} {h : Hdl} {s s' : System Hdl} {a : Action Hdl} (hinv : s.conn.Inv)
    (hd : s.conn.DistinctNames) (hs : s.Doomed n h) (hstep : s.step a = some s') : s'.Doomed n h := by
  obtain ⟨hopened, hback⟩ := isOpen_of_step (n := n) hinv hs.opened hstep
  refine ⟨hopened, fun ho => (hback ho).2 (hs.carries (hback ho).1), fun ho => ?_⟩
  have ho' := (hback ho).1
  obtain ⟨u, hname, hu⟩ := hs.pending ho'
  rcases mem_pending_of_step hstep hu with hu | ⟨i, bus, rfl, hi⟩
  · exact ⟨u, hname, hu⟩
  · -- the disconnection takes place now
    exfalso
    have hcarries := hs.carries ho'
    rw [← hname] at hcarries
    cases step_cases hstep with
    | runThread _ w bus' hi' =>
      rw [hi] at hi'
      obtain ⟨rfl, rfl⟩ := Prod.mk.inj (Option.some.inj hi')
      exact not_isOpen_of_disconnect (s := { s with bus := bus }) hd hcarries ho' ho

/-- The connection was opened, and as long as it is open, its user is in the snapshot, and idle. -/
structure Found (entry : User × Time) (h : Hdl) (s : System Hdl) : Prop where
  opened : s.conn.HasOpened h
  carries : s.IsOpen h → s.conn.server.Carries h entry.1.username
  mem : entry ∈ s.snapshot
  idle : ClientMgr.isIdle s.clock entry = true

theorem found_step {entry : User × Time} {h : Hdl} {s s' : System Hdl} {a : Action Hdl}
    (hinv : s.conn.Inv) (hs : s.Found entry h) (hstep : s.step a = some s') :
    s'.Found entry h ∨ s'.Doomed entry.1.username h := by
  obtain ⟨hopened, hback⟩ := isOpen_of_step (n := entry.1.username) hinv hs.opened hstep
  have hcarries : s'.IsOpen h → s'.conn.server.Carries h entry.1.username := fun ho =>
    (hback ho).2 (hs.carries (hback ho).1)
  have hidle := isIdle_mono (clock_le_of_step hstep) entry hs.idle
  by_cases hmem : entry ∈ s'.snapshot
  · exact .inl ⟨hopened, hcarries, hmem, hidle⟩
  · right
    refine ⟨hopened, hcarries, fun _ => ⟨entry.1, rfl, ?_⟩⟩
    cases step_cases hstep with
    | takeSnapshot hover => exact absurd (hover ▸ hs.mem) List.not_mem_nil
    | idleEntry e rest hsnap hidle' =>
      have heq : entry = e := by
        have hin := hs.mem
        rw [hsnap, List.mem_cons] at hin
        exact hin.resolve_right hmem
      subst heq
      rw [pending, sendAsync, Dispatcher.pending_send, flatten_callbacks]
      simp
    | busyEntry e rest hsnap hbusy =>
      have heq : entry = e := by
        have hin := hs.mem
        rw [hsnap, List.mem_cons] at hin
        exact hin.resolve_right hmem
      rw [← heq, hs.idle] at hbusy
      cases hbusy
    | runThread i w bus hi =>
      rw [perform_snapshot] at hmem
      exact absurd hs.mem hmem
    | _ => exact absurd hs.mem hmem

theorem doomed_run {start : Time} {s t : System Hdl} {as : List (Action Hdl)} {n : Bytes} {h : Hdl}
    (hs : Reachable step (init start) s) (hdistinct : Along step (fun s => s.conn.DistinctNames) s as)
    (hrun : run step s as = some t) (hdoomed : s.Doomed n h) : t.Doomed n h := by
  refine run_history_induction (P := fun p t => p <+: as → t.Doomed n h) (fun _ => hdoomed) ?_ hrun
    (List.prefix_refl as)
  intro p t a u hp ih hstep hpre
  have hp' := (List.prefix_append p [a]).trans hpre
  exact doomed_step (inv_of_reachable (hs.run hp)) (hdistinct p t hp' hp) (ih hp') hstep

theorem found_run {start : Time} {s t : System Hdl} {as : List (Action Hdl)} {entry : User × Time}
    {h : Hdl} (hs : Reachable step (init start) s)
    (hdistinct : Along step (fun s => s.conn.DistinctNames) s as) (hrun : run step s as = some t)
    (hfound : s.Found entry h) : t.Found entry h ∨ t.Doomed entry.1.username h := by
  refine run_history_induction (P := fun p t => p <+: as →
    t.Found entry h ∨ t.Doomed entry.1.username h) (fun _ => .inl hfound) ?_ hrun
    (List.prefix_refl as)
  intro p t a u hp ih hstep hpre
  have hp' := (List.prefix_append p [a]).trans hpre
  have hinv := inv_of_reachable (hs.run hp)
  rcases ih hp' with hfound | hdoomed
  · exact found_step hinv hfound hstep
  · exact .inr (doomed_step hinv (hdistinct p t hp' hp) hdoomed hstep)

/-- Once every event is handled, a connection that was to be disconnected is not open. -/
theorem Doomed.not_isOpen {s : System Hdl} {n : Bytes} {h : Hdl} (hs : s.Doomed n h)
    (hhandled : s.AllHandled) : ¬ s.IsOpen h := by
  intro ho
  obtain ⟨u, -, hu⟩ := hs.pending ho
  rw [hhandled.2] at hu
  cases hu

/-- **A connection whose user is recorded as idle when a pass of `ClientMgr::Cyclic` begins is not open
once the pass is over and its events are handled**, whatever happens meanwhile. -/
theorem idle_connection_closes {start : Time} {s t : System Hdl} {as : List (Action Hdl)}
    (hs : Reachable step (init start) s)
    (hdistinct : Along step (fun s => s.conn.DistinctNames) s (.takeSnapshot :: as))
    (hrun : run step s (.takeSnapshot :: as) = some t) {h : Hdl} {entry : User × Time}
    (hcarries : s.conn.server.Carries h entry.1.username)
    (hentry : entry ∈ s.clientMgr.userTimeouts.toList)
    (hidle : ClientMgr.isIdle s.clock entry = true) (hover : t.snapshot = [])
    (hhandled : t.AllHandled) : ¬ t.IsOpen h := by
  obtain ⟨u, htake, hrest⟩ := Option.bind_eq_some_iff.mp hrun
  -- the user is found in the snapshot, and stays so until the entry is looked at
  have hfound : u.Found entry h := by
    cases step_cases htake with
    | takeSnapshot _ =>
      exact ⟨.inl ((inv_of_reachable hs).opened_of_carries hcarries), fun _ => hcarries, hentry, hidle⟩
  have hdistinct' : Along step (fun s => s.conn.DistinctNames) u as :=
    Along.of_append ((run_singleton .takeSnapshot).trans htake) hdistinct
  rcases found_run (hs.concat htake) hdistinct' hrest hfound with hfound | hdoomed
  · exact absurd (hover ▸ hfound.mem) List.not_mem_nil
  · exact hdoomed.not_isOpen hhandled

/-- A user has been idle for ten minutes. -/
def quietRun : List (Action ℕ) :=
  [.call (.validateHandler 1 (Connections.requestNamed "bob")), .call (.openHandler 1), .popEvent,
    .runThread 0, .runThread 0, .advance 600]

theorem quietRun_runs : (run step (init 0) quietRun).isSome = true := by decide

/-- The state in which the user has been idle. -/
def quiet : System ℕ := (run step (init 0) quietRun).get quietRun_runs

theorem run_quietRun : run step (init 0) quietRun = some quiet := (Option.some_get _).symm

/-- A pass finds the user idle, and its event is handled. -/
def passRun : List (Action ℕ) := [.takeSnapshot, .checkEntry, .popEvent, .runThread 1]

theorem passRun_runs : (run step quiet passRun).isSome = true := by decide

/-- The entry of the user. -/
def quietBob : User × Time := (⟨bytes "bob", bytes "10.0.0.1", 50000, some 0⟩, 0)

theorem quiet_carries : quiet.conn.server.Carries 1 quietBob.1.username := ⟨_, rfl, rfl⟩

theorem cyclic_pass_quiet :
    (idleUsers quiet.clock quiet.clientMgr.userTimeouts.toList).Sublist
        (quiet.disconnectedByCyclic passRun) ∧
      (quiet.disconnectedByCyclic passRun).Sublist
        (idleUsers ((run step quiet passRun).get passRun_runs).clock
          quiet.clientMgr.userTimeouts.toList) ∧
      (quiet.disconnectedByCyclic passRun).Pairwise
        fun u v => compare u.username v.username = .lt :=
  cyclic_pass (Option.some_get passRun_runs).symm (by simp) (by decide)

theorem idle_connection_closes_quiet : ¬ ((run step quiet passRun).get passRun_runs).IsOpen 1 :=
  idle_connection_closes ⟨quietRun, run_quietRun⟩
    ((along_distinctNames (by decide)).of_append run_quietRun) (Option.some_get passRun_runs).symm
    quiet_carries (by decide) (by decide) (by decide) (by decide)

/-- **A connection whose user is kicked is not open once the event of the kick is handled**, whatever
happens meanwhile. -/
theorem kicked_connection_closes {start : Time} {s t : System Hdl} {as : List (Action Hdl)} {n : Bytes}
    (hs : Reachable step (init start) s)
    (hdistinct : Along step (fun s => s.conn.DistinctNames) s (.kickUser n :: as))
    (hrun : run step s (.kickUser n :: as) = some t) {h : Hdl} (hcarries : s.conn.server.Carries h n)
    (hhandled : t.AllHandled) : ¬ t.IsOpen h := by
  obtain ⟨u, hkick, hrest⟩ := Option.bind_eq_some_iff.mp hrun
  -- the disconnection is pending from the moment its event is sent
  have hdoomed : u.Doomed n h := by
    cases step_cases hkick with
    | kickUser _ =>
      refine ⟨.inl ((inv_of_reachable hs).opened_of_carries hcarries), fun _ => hcarries, fun _ => ?_⟩
      refine ⟨.ofUsername n, rfl, ?_⟩
      rw [pending, sendAsync, Dispatcher.pending_send, flatten_callbacks]
      simp
  have hdistinct' : Along step (fun s => s.conn.DistinctNames) u as :=
    Along.of_append ((run_singleton (.kickUser n)).trans hkick) hdistinct
  exact (doomed_run (hs.concat hkick) hdistinct' hrest hdoomed).not_isOpen hhandled

/-- The user is kicked, and the event of the kick is handled. -/
def kickRun : List (Action ℕ) := [.kickUser (bytes "bob"), .popEvent, .runThread 1]

theorem kickRun_runs : (run step quiet kickRun).isSome = true := by decide

theorem kicked_connection_closes_quiet : ¬ ((run step quiet kickRun).get kickRun_runs).IsOpen 1 :=
  kicked_connection_closes ⟨quietRun, run_quietRun⟩
    ((along_distinctNames (by decide)).of_append run_quietRun) (Option.some_get kickRun_runs).symm
    quiet_carries (by decide)

end System

end SimpleChat
