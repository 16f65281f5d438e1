import SimpleChat.RestServer.Handlers
import SimpleChat.Server.Settling

/-!
# The roster while events are pending

`GET_USERS` can be answered while events are still to be handled. At every name, the answer is then what
some of the events sent so far lead to, and later answers are never behind earlier ones, as long as the
users are changed in the order of the events.

## Main definitions

* `Event.concerns`: the events that change the users at a name
* `ClientMgr.usersOf`: the users after events that are handled one after another
* `System.eventsAt`: the events of a run that change the users at a name
* `System.HandledAt`: the first of some events are handled at a name, the others are pending

## Main results

* `System.handledAt_step`: what a step keeps
* `System.roster_never_goes_back`: what `GET_USERS` shows in the course of a run
-/

namespace SimpleChat

open Containers Transition

/-- The event changes the users at a name. -/
def Event.concerns (n : Bytes) : Event → Bool
  | .connectionOpened user => user.username = n
  | .connectionClosed user => user.username = n
  | _ => false

/-- The section changes the users at a name. -/
def Work.concerns (n : Bytes) (w : Work) : Bool := w.usersName = some n

/-- The sections of an event that change the users at a name. -/
def Event.sectionsAt (n : Bytes) (e : Event) : List Work :=
  (callbacks e).flatten.filter (Work.concerns n)

/-- The users after some events, if each is handled before the next. -/
def ClientMgr.usersOf (es : List Event) : UserSet :=
  flush ClientMgr.usersAfter (es.flatMap ClientMgr.eventHandler) ClientMgr.init.users

theorem ClientMgr.usersOf_concat (es : List Event) (e : Event) :
    usersOf (es ++ [e]) = flush usersAfter (eventHandler e) (usersOf es) := by
  rw [usersOf, List.flatMap_append, flush_append, List.flatMap_singleton, usersOf]

theorem Event.sectionsAt_eq (n : Bytes) (e : Event) :
    e.sectionsAt n =
      match e with
      | .connectionOpened u => if u.username = n then [.clientMgr (.insertUser u)] else []
      | .connectionClosed u => if u.username = n then [.clientMgr (.eraseUser u)] else []
      | _ => [] := by
  rw [sectionsAt, flatten_callbacks]
  cases e <;>
    simp [Work.concerns, Work.usersName, ClientMgr.Section.usersName, List.filter_cons]

/-- An event that changes the users at a name does so in one section. -/
theorem Event.sectionsAt_of_concerns {n : Bytes} {e : Event} (h : e.concerns n = true) :
    ∃ x : ClientMgr.Section, e.sectionsAt n = [.clientMgr x] ∧
      ∀ users, flush ClientMgr.usersAfter (ClientMgr.eventHandler e) users =
        ClientMgr.usersAfter x users := by
  rw [sectionsAt_eq]
  cases e with
  | connectionOpened u => exact ⟨.insertUser u, if_pos (of_decide_eq_true h), fun _ => rfl⟩
  | connectionClosed u => exact ⟨.eraseUser u, if_pos (of_decide_eq_true h), fun _ => rfl⟩
  | newMessage m => cases h
  | connectionFailed u => cases h
  | disconnectUser u => cases h

theorem Event.sectionsAt_of_not_concerns {n : Bytes} {e : Event} (h : ¬ e.concerns n = true) :
    e.sectionsAt n = [] := by
  rw [sectionsAt_eq]
  cases e with
  | connectionOpened u => exact if_neg fun hn => h (decide_eq_true hn)
  | connectionClosed u => exact if_neg fun hn => h (decide_eq_true hn)
  | _ => rfl

/-- The sections of some events that change the users at a name are those of the events that do. -/
theorem filter_sections (n : Bytes) (es : List Event) :
    (es.flatMap fun e => (callbacks e).flatten).filter (Work.concerns n) =
      (es.filter (Event.concerns n)).flatMap (Event.sectionsAt n) := by
  induction es with
  | nil => rfl
  | cons e es ih =>
    rw [List.flatMap_cons, List.filter_append, ih]
    by_cases he : e.concerns n = true
    · rw [List.filter_cons_of_pos he, List.flatMap_cons]
      rfl
    · rw [List.filter_cons_of_neg he]
      exact congrArg (· ++ _) (Event.sectionsAt_of_not_concerns he)

/-! ## Users at a name -/

/-- What a section does at a name depends on the users at that name only. -/
theorem ClientMgr.find?_usersAfter_congr {n : Bytes} {users users' : UserSet}
    (h : users.find? n = users'.find? n) (x : Section) :
    (usersAfter x users).find? n = (usersAfter x users').find? n := by
  cases x with
  | setTimeout u => exact h
  | eraseTimeout u => exact h
  | insertUser u =>
    by_cases hu : u.username = n
    · subst hu
      simp only [usersAfter, KeyedMap.find?_insert, h]
    · simp only [usersAfter, KeyedMap.find?_insert, hu, if_false, h]
  | eraseUser u => simp only [usersAfter, KeyedMap.find?_erase, h]

/-- A section does not change the users at other names. -/
theorem ClientMgr.find?_usersAfter_of_ne {n : Bytes} {x : Section} (hx : x.usersName ≠ some n)
    (users : UserSet) : (usersAfter x users).find? n = users.find? n := by
  cases x with
  | setTimeout u => rfl
  | eraseTimeout u => rfl
  | insertUser u =>
    have hne : u.username ≠ n := fun h => hx (congrArg some h)
    simp only [usersAfter, KeyedMap.find?_insert, hne, if_false]
  | eraseUser u =>
    have hne : u.username ≠ n := fun h => hx (congrArg some h)
    simp only [usersAfter, KeyedMap.find?_erase, hne, if_false]

namespace System

variable {Hdl : Type} [LinearOrder Hdl] {s s' : System Hdl} {a : Action Hdl} {now : Time}
  {as : List (Action Hdl)} {n : Bytes} {es : List Event} {k : ℕ}

/-- The sections of the events that a step sends are pending after all others. -/
theorem pending_of_step (ha : ∀ i, a ≠ .runThread i) (h : s.step a = some s') :
    s'.clientMgr = s.clientMgr ∧
      s'.pending = s.pending ++ (s.sentEvents a).flatMap fun e => (callbacks e).flatten := by
  cases step_cases h with
  | runThread i => exact absurd rfl (ha i)
  | call c conn hadm hconn =>
    refine ⟨rfl, ?_⟩
    cases hsent : s.conn.server.sentEvent s.clock c with
    | none => simp [pending, sentEvents, hsent]
    | some e => simpa [pending, sentEvents, hsent] using s.bus.pending_send e
  | kickUser username =>
    exact ⟨rfl, by simpa [pending, sendAsync, sentEvents] using s.bus.pending_send _⟩
  | idleEntry entry rest hs hidle =>
    exact ⟨rfl, by simpa [pending, sendAsync, sentEvents, hs, hidle] using s.bus.pending_send _⟩
  | busyEntry entry rest hs hbusy => exact ⟨rfl, by simp [pending, sentEvents, hs, hbusy]⟩
  | popEvent bus hpop =>
    exact ⟨rfl, by simpa [pending, sentEvents] using Dispatcher.pending_pop hpop⟩
  | _ => exact ⟨rfl, by simp [pending, sentEvents]⟩

/-- The events of a run that change the users at a name. -/
def eventsAt (now : Time) (as : List (Action Hdl)) (n : Bytes) : List Event :=
  ((init now).eventsSent as).filter (Event.concerns n)

/-- Of some events that change the users at a name, the first `k` are handled there and the others are
pending, in order. -/
structure HandledAt (s : System Hdl) (n : Bytes) (es : List Event) (k : ℕ) : Prop where
  le : k ≤ es.length
  users : s.clientMgr.getUsers.find? n = (ClientMgr.usersOf (es.take k)).find? n
  pending : s.pending.filter (Work.concerns n) = (es.drop k).flatMap (Event.sectionsAt n)

/-- Events that are sent are to be handled after all others. -/
theorem HandledAt.send (hs : s.HandledAt n es k) (ha : ∀ i, a ≠ .runThread i)
    (h : s.step a = some s') :
    s'.HandledAt n (es ++ (s.sentEvents a).filter (Event.concerns n)) k := by
  obtain ⟨hmgr, hpending⟩ := pending_of_step ha h
  refine ⟨?_, ?_, ?_⟩
  · rw [List.length_append]
    exact hs.le.trans (Nat.le_add_right _ _)
  · rw [hmgr, List.take_append_of_le_length hs.le]
    exact hs.users
  · rw [hpending, List.filter_append, hs.pending, filter_sections, List.drop_append_of_le_length hs.le,
      List.flatMap_append]

/-- A section that runs in order handles the next event at its name, and none at another name. -/
theorem HandledAt.ran (hs : s.HandledAt n es k) (hes : ∀ e ∈ es, e.concerns n = true) {i : ℕ}
    (horder : s.UsersInOrder (.runThread i)) {w : Work} {bus : Dispatcher Event Work}
    (hi : s.bus.take i = some (w, bus)) :
    ∃ k', k ≤ k' ∧ (({ s with bus := bus } : System Hdl).perform w).HandledAt n es k' := by
  obtain ⟨later, hbefore, hafter⟩ := pending_ran hi
  have hpending := hs.pending
  rw [hbefore, List.filter_append] at hpending
  have husers : (({ s with bus := bus } : System Hdl).perform w).clientMgr.getUsers =
      usersView.op w s.clientMgr.getUsers := View.get_performed (v := usersView) { s with bus := bus } w
  by_cases hw : w.concerns n = true
  · -- no earlier thread has still to change the users at this name, so this section is the next there
    have hname : w.usersName = some n := of_decide_eq_true hw
    have hearlier : (s.bus.earlier i).filter (Work.concerns n) = [] := by
      refine List.filter_eq_nil_iff.mpr fun x hx hn => ?_
      exact horder (w, bus) hi n hname x hx (of_decide_eq_true hn)
    rw [hearlier, List.nil_append, List.filter_cons_of_pos hw] at hpending
    cases hdrop : es.drop k with
    | nil =>
      rw [hdrop] at hpending
      cases hpending
    | cons e rest =>
      rw [hdrop, List.flatMap_cons] at hpending
      have hmem : e ∈ es := List.mem_of_mem_drop (hdrop ▸ List.mem_cons_self ..)
      -- it is the one section of the first event that is not handled there
      obtain ⟨x, hsections, hflush⟩ := Event.sectionsAt_of_concerns (hes e hmem)
      rw [hsections, List.singleton_append] at hpending
      obtain ⟨rfl, hrest⟩ := List.cons.inj hpending
      have hlt : k < es.length := by
        by_contra hle
        rw [List.drop_eq_nil_of_le (not_lt.mp hle)] at hdrop
        cases hdrop
      have hget : es[k] = e := by
        rw [List.drop_eq_getElem_cons hlt] at hdrop
        exact (List.cons.inj hdrop).1
      refine ⟨k + 1, Nat.le_succ k, hlt, ?_, ?_⟩
      · rw [husers, List.take_succ_eq_append_getElem hlt, hget, ClientMgr.usersOf_concat, hflush]
        exact ClientMgr.find?_usersAfter_congr hs.users x
      · rw [hafter, List.filter_append, hearlier, List.nil_append, hrest, ← List.drop_drop, hdrop]
        rfl
  · -- a section at another name changes neither what is shown nor what is pending here
    refine ⟨k, le_rfl, hs.le, ?_, ?_⟩
    · rw [husers, ← hs.users]
      cases w with
      | clientMgr x =>
        exact ClientMgr.find?_usersAfter_of_ne (fun hx => hw (decide_eq_true hx)) _
      | _ => rfl
    · rw [hafter, List.filter_append, ← hpending, List.filter_cons_of_neg hw]

theorem eventsAt_concat (hrun : run step (init now) as = some s) (a : Action Hdl) :
    eventsAt now (as ++ [a]) n = eventsAt now as n ++ (s.sentEvents a).filter (Event.concerns n) := by
  rw [eventsAt, eventsSent_concat hrun, List.filter_append, eventsAt]

/-- The events of the beginning of a run come first. -/
theorem prefix_eventsAt (hrun : run step (init now) as = some s) {p : List (Action Hdl)}
    (hp : p <+: as) : eventsAt now p n <+: eventsAt now as n := by
  refine run_history_induction (P := fun q _ => ∀ p, p <+: q → eventsAt now p n <+: eventsAt now q n)
    ?_ ?_ hrun p hp
  · intro p hp
    rw [List.prefix_nil.mp hp]
  · intro q t a u hq ih _ p hp
    rcases List.prefix_concat_iff.mp hp with rfl | hp
    · exact List.prefix_refl _
    · rw [eventsAt_concat hq]
      exact (ih p hp).trans (List.prefix_append _ _)

/-- A step in order handles at most the next event at a name, and sends events behind all others. -/
theorem handledAt_step (hrun : run step (init now) as = some s) (horder : s.UsersInOrder a)
    (hs : s.HandledAt n (eventsAt now as n) k) (h : s.step a = some s') :
    ∃ k', k ≤ k' ∧ s'.HandledAt n (eventsAt now (as ++ [a]) n) k' := by
  rw [eventsAt_concat hrun]
  by_cases ha : ∀ i, a ≠ .runThread i
  · exact ⟨k, le_rfl, hs.send ha h⟩
  · simp only [not_forall, not_not] at ha
    obtain ⟨i, rfl⟩ := ha
    cases step_cases h with
    | runThread _ w bus hi =>
      have hes : ∀ e ∈ eventsAt now as n, e.concerns n = true := fun e he => (List.mem_filter.mp he).2
      simpa [sentEvents] using hs.ran hes horder hi

theorem handledAt_init (now : Time) (n : Bytes) :
    (init now : System Hdl).HandledAt n (eventsAt now ([] : List (Action Hdl)) n) 0 :=
  ⟨le_rfl, rfl, rfl⟩

/-- Once every event is handled, so is every event at the name. -/
theorem HandledAt.eq_length (hs : s.HandledAt n es k) (hes : ∀ e ∈ es, e.concerns n = true)
    (h : s.Settled) : k = es.length := by
  refine le_antisymm hs.le (not_lt.mp fun hlt => ?_)
  -- an event that is not handled would still have its section pending
  have hpending := hs.pending
  rw [List.drop_eq_getElem_cons hlt, List.flatMap_cons] at hpending
  obtain ⟨x, hsections, -⟩ := Event.sectionsAt_of_concerns (hes es[k] (List.getElem_mem hlt))
  have hmem : Work.clientMgr x ∈ s.pending.filter (Work.concerns n) := by
    rw [hpending, hsections]
    exact List.mem_cons_self ..
  exact h x (List.mem_filter.mp hmem).1

/-- **The roster never goes back**: in every run in which the users are changed in the order of the
events, what `GET_USERS` shows at a name is what the first events at that name lead to, and from one
answer to the next they do not become fewer. Once every event is handled, they are all that were
sent. -/
theorem roster_never_goes_back (hrun : run step (init now) as = some s)
    (horder : Meets step UsersInOrder (init now) as) (n : Bytes) :
    ∃ cursor : ℕ → ℕ, Monotone cursor ∧ ∀ i t, run step (init now) (as.take i) = some t →
      cursor i ≤ (eventsAt now (as.take i) n).length ∧
        t.clientMgr.getUsers.find? n =
          (ClientMgr.usersOf ((eventsAt now as n).take (cursor i))).find? n ∧
        (t.Settled → cursor i = (eventsAt now (as.take i) n).length) := by
  obtain ⟨cursor, hmono, hcursor⟩ := exists_cursor
    (R := fun p t k => t.HandledAt n (eventsAt now p n) k) (handledAt_init now n)
    (fun p t a u k hp ht hs hstep => handledAt_step ht (horder p a t hp ht) hs hstep) hrun
  refine ⟨cursor, hmono, fun i t ht => ?_⟩
  have hs := hcursor i t ht
  refine ⟨hs.le, ?_, hs.eq_length fun e he => (List.mem_filter.mp he).2⟩
  obtain ⟨later, hlater⟩ := prefix_eventsAt (n := n) hrun (List.take_prefix i as)
  rw [← hlater, List.take_append_of_le_length hs.le]
  exact hs.users

theorem roster_never_goes_back_orderly :
    ∃ cursor : ℕ → ℕ, Monotone cursor ∧ ∀ i t, run step (init 0) (orderlyRun.take i) = some t →
      cursor i ≤ (eventsAt 0 (orderlyRun.take i) (bytes "bob")).length ∧
        t.clientMgr.getUsers.find? (bytes "bob") =
          (ClientMgr.usersOf ((eventsAt 0 orderlyRun (bytes "bob")).take (cursor i))).find?
            (bytes "bob") ∧
        (t.Settled → cursor i = (eventsAt 0 (orderlyRun.take i) (bytes "bob")).length) :=
  roster_never_goes_back run_orderlyRun (meets_of_take (by decide)) _

end System

end SimpleChat
