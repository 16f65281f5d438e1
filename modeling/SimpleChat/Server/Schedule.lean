import SimpleChat.Server.System

/-!
# Views of the client manager under any schedule

The client manager lags behind the connections: sections of its callbacks are pending, and threads
run them in any order. A view of its state that each section changes on its own can be completed by
the pending sections, in the order in which their events were sent. The completed view does not
depend on the schedule, as long as sections that run early commute with those they overtake.

## Main definitions

* `View`: a view of the client manager
* `View.completed`: the view once the pending sections have run in order
* `View.InOrder`: the condition on a step that a section commutes with those it overtakes

## Main results

* `View.completed_step`: a step in order changes the completed view only by the event it sends
* `View.completed_along`: what every handler keeps holds of the completed view along a run
* `View.completed_of_settled`: once nothing is pending, the view is the completed view
-/

namespace SimpleChat

open Containers Std Transition

/-- A view of the client manager, and what each section does to it. -/
structure View (σ : Type) where
  get : ClientMgr → σ
  after : ClientMgr.Section → σ → σ
  get_perform : ∀ c now x, get (c.perform now x) = after x (get c)

/-- The users that `GET_USERS` reports. -/
def usersView : View UserSet where
  get := ClientMgr.users
  after := ClientMgr.usersAfter
  get_perform := ClientMgr.users_perform

/-- The usernames whose activity is kept. -/
def trackedView : View (Set Bytes) where
  get := ClientMgr.tracked
  after := ClientMgr.trackedAfter
  get_perform := ClientMgr.tracked_perform

/-- `ClientMgr` has handled every event that was sent. -/
def System.Settled {Hdl : Type} [LinearOrder Hdl] (s : System Hdl) : Prop :=
  ∀ x, Work.clientMgr x ∉ s.pending

namespace View

variable {Hdl : Type} [LinearOrder Hdl] {σ : Type} (v : View σ)

/-- What a section of any callback does to the view. -/
def op : Work → σ → σ
  | .clientMgr x, a => v.after x a
  | _, a => a

/-- The view once the pending sections have run, in the order of their events. -/
def completed (s : System Hdl) : σ := flush v.op s.pending (v.get s.clientMgr)

/-- A thread runs a section of the client manager only if it commutes with the sections of earlier
threads that are still to run. -/
def InOrder (s : System Hdl) : Action Hdl → Prop
  | .runThread i => ∀ x bus, s.bus.take i = some (.clientMgr x, bus) →
      ∀ y, Work.clientMgr y ∈ s.bus.earlier i →
        ∀ a, v.after x (v.after y a) = v.after y (v.after x a)
  | _ => True

variable {v}

theorem op_of_ne {w : Work} (hw : ∀ x, w ≠ .clientMgr x) (a : σ) : v.op w a = a := by
  cases w with
  | clientMgr x => exact absurd rfl (hw x)
  | _ => rfl

theorem get_performed (s : System Hdl) (w : Work) :
    v.get (s.perform w).clientMgr = v.op w (v.get s.clientMgr) := by
  by_cases hw : ∀ x, w ≠ .clientMgr x
  · rw [s.perform_clientMgr hw, op_of_ne hw]
  · push Not at hw
    obtain ⟨x, rfl⟩ := hw
    exact v.get_perform s.clientMgr s.clock x

/-- The callbacks of an event change the view as the handler of the client manager does. -/
theorem flush_callbacks (e : Event) (a : σ) :
    flush v.op (callbacks e).flatten a = flush v.after (ClientMgr.eventHandler e) a := by
  rw [flatten_callbacks]
  cases e <;> rfl

/-- Once the client manager has handled every event, the view needs no completion. -/
theorem completed_of_settled {s : System Hdl} (h : s.Settled) :
    v.completed s = v.get s.clientMgr := by
  apply flush_of_id
  intro w hw a
  apply op_of_ne
  rintro x rfl
  exact h x hw

/-- **A step in order changes the completed view by the event it sends, and by nothing else.** -/
theorem completed_step {s s' : System Hdl} {a : Action Hdl} (h : s.step a = some s')
    (hord : v.InOrder s a) :
    s'.conn = s.conn ∧ v.completed s' = v.completed s ∨
      ∃ c, s.conn.step (s.clock, c) = some s'.conn ∧
        v.completed s' = (s.conn.server.sentEvent s.clock c).elim (v.completed s) fun e =>
          flush v.after (ClientMgr.eventHandler e) (v.completed s) := by
  cases System.step_effect h with
  | handled c _ hadm hconn hmgr hpending hclosing hterm =>
    refine .inr ⟨c, hconn, ?_⟩
    -- the sections of the event sent now come after all pending ones
    unfold completed
    rw [hpending, hmgr, flush_append]
    cases s.conn.server.sentEvent s.clock c with
    | none => rfl
    | some e => exact flush_callbacks e _
  | ran i w bus hi =>
    refine .inl ⟨System.perform_conn _ w, ?_⟩
    obtain ⟨later, hbefore, hafter⟩ := System.pending_ran hi
    -- the section overtakes those of earlier threads
    have hcomm : ∀ y ∈ s.bus.earlier i, ∀ b, v.op w (v.op y b) = v.op y (v.op w b) := by
      intro y hy b
      by_cases hw : ∀ x, w ≠ .clientMgr x
      · rw [op_of_ne hw, op_of_ne hw]
      · push Not at hw
        obtain ⟨x, rfl⟩ := hw
        by_cases hy' : ∀ x, y ≠ .clientMgr x
        · rw [op_of_ne hy', op_of_ne hy']
        · push Not at hy'
          obtain ⟨z, rfl⟩ := hy'
          exact hord x bus hi z hy b
    calc v.completed (({ s with bus := bus } : System Hdl).perform w)
        = flush v.op (s.bus.earlier i ++ later) (v.op w (v.get s.clientMgr)) := by
          unfold completed
          rw [get_performed, hafter]
      _ = flush v.op (s.bus.earlier i ++ w :: later) (v.get s.clientMgr) :=
          (flush_early hcomm later _).symm
      _ = v.completed s := by rw [completed, hbefore]
  | other _ _ ha hconn hmgr ws hpending hws hclosing hterm =>
    refine .inl ⟨hconn, ?_⟩
    -- the client manager has no section for the event of a disconnection
    unfold completed
    rw [hpending, hmgr, flush_append]
    apply flush_of_id
    intro w hw b
    apply op_of_ne
    rintro x rfl
    obtain ⟨u, hu⟩ := hws _ hw
    cases hu

/-- A relation of the view to the connections that every handler keeps with its event holds of the
completed view along every run in order. `D` is what the run keeps to besides. -/
theorem completed_along {Agree : σ → Connections Hdl → Prop} {D : Connections Hdl → Prop}
    (h0 : Agree (v.get .init) .init)
    (hstep : ∀ c c' now call b, c.Inv → D c → D c' → Agree b c →
      c.step (now, call) = some c' → Agree ((c.server.sentEvent now call).elim b fun e =>
        flush v.after (ClientMgr.eventHandler e) b) c')
    {now : Time} {as : List (Action Hdl)}
    (hD : Along System.step (fun s => D s.conn) (System.init now) as)
    (hord : Meets System.step v.InOrder (System.init now) as) :
    Along System.step (fun s => Agree (v.completed s) s.conn) (System.init now) as := by
  intro p t hp ht
  refine run_history_induction
    (P := fun p t => p <+: as → Agree (v.completed t) t.conn) ?_ ?_ ht hp
  · exact fun _ => h0
  intro p t a u hrun ih hn hpre
  have hpt : p <+: as := (List.prefix_append p [a]).trans hpre
  have hinv : t.conn.Inv := System.inv_of_reachable ⟨p, hrun⟩
  have hu : run System.step (System.init now) (p ++ [a]) = some u :=
    run_concat_eq_some.mpr ⟨t, hrun, hn⟩
  rcases completed_step hn (hord p a t hpre hrun) with ⟨hconn, hcompleted⟩ | ⟨c, hc, hcompleted⟩
  · rw [hconn, hcompleted]
    exact ih hpt
  · rw [hcompleted]
    exact hstep t.conn u.conn t.clock c _ hinv (hD p t hpt hrun) (hD _ u hpre hu) (ih hpt) hc

end View

end SimpleChat
