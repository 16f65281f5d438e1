import SimpleChat.EventBus.Agreement
import SimpleChat.Transition.Dispatcher

/-!
# Asynchronous delivery

`SendAsync` puts an event into the queue. `EventBus::Cyclic` pops it into a local variable and starts
a detached thread for it, which calls `SendSync`; that starts one thread for the callback of each
subscriber and joins them. While the subscriptions stay as they are, every event that was sent is, for
each of its subscribers, at exactly one point of this way.

## Main definitions

* `Callback`, `Emission`: a callback thread, and the thread of `EmitAsync` with its callbacks
* `Async`, `Async.step`: the queue and the threads, and their steps
* `Subscribed`: the receiver subscribes to the event
* `Emission.due`, `Async.outstanding`: what a receiver has still to handle

## Main results

* `Async.step_cases`: every step is one of `StepCases`
* `sendSync_subscribed`: a delivery starts one callback for each subscriber
* `outstanding_step`: a step moves an event along, hands it over, or adds one
* `events_conserved`: what is handled and what is outstanding is what was sent
-/

namespace SimpleChat

open Containers Std Transition

instance (m : Index EventId ReceiverId) (id : ReceiverId) (e : EventId) :
    Decidable (m.Listed id e) :=
  decidable_of_iff _ (m.listed_iff_getD id e).symm

/-- The receiver is registered, and the index lists its id for the event. -/
def EventBus.Subscribed {Ref : Type} (b : EventBus Ref) (ref : Ref) (e : EventId) : Prop :=
  b.Registered (b.receivers ref).id ref ∧ b.Indexed (b.receivers ref).id e

/-- Where the thread of a callback is. -/
inductive CallbackPhase where
  | created
  | running
  | ended
  deriving DecidableEq, Repr

/-- A thread that `SendSync` starts for the callback of a receiver. -/
structure Callback (Ref : Type) where
  receiver : Ref
  phase : CallbackPhase
  deriving DecidableEq, Repr

/-- Where the thread of `EmitAsync` is: before `SendSync` took its locks, in the loop that starts the
callbacks of the receivers that are left, joining them in order, or at its end. -/
inductive Stage (Ref : Type) where
  | popped
  | starting (receivers : List Ref)
  | joining (joined : ℕ)
  | ended
  deriving DecidableEq, Repr

/-- The thread of `EmitAsync` for an event, with the callback threads it has started. -/
structure Emission (ε Ref : Type) where
  event : ε
  stage : Stage Ref
  threads : List (Callback Ref)
  deriving Repr

namespace Emission

variable {ε Ref : Type}

/-- `SendSync` takes its locks and looks up the receivers. -/
def enter (b : EventBus Ref) (eventId : ε → EventId) (m : Emission ε Ref) :
    Option (Emission ε Ref) :=
  match m.stage with
  | .popped => (b.sendSync (eventId m.event)).map fun r => { m with stage := .starting r.2 }
  | _ => none

/-- The loop starts the callback of the next receiver, or is over. -/
def start (m : Emission ε Ref) : Option (Emission ε Ref) :=
  match m.stage with
  | .starting [] => some { m with stage := .joining 0 }
  | .starting (r :: rs) =>
    some { m with stage := .starting rs, threads := m.threads ++ [⟨r, .created⟩] }
  | _ => none

/-- The next callback thread is joined once it has ended, or all are joined. -/
def join (m : Emission ε Ref) : Option (Emission ε Ref) :=
  match m.stage with
  | .joining i =>
    match m.threads[i]? with
    | none => some { m with stage := .ended }
    | some c => if c.phase = .ended then some { m with stage := .joining (i + 1) } else none
  | _ => none

/-- A callback begins. -/
def beginCallback (m : Emission ε Ref) (j : ℕ) : Option (Emission ε Ref) :=
  match m.threads[j]? with
  | some ⟨r, .created⟩ => some { m with threads := m.threads.set j ⟨r, .running⟩ }
  | _ => none

/-- A callback has handled its event; the receiver is returned. -/
def endCallback (m : Emission ε Ref) (j : ℕ) : Option (Ref × Emission ε Ref) :=
  match m.threads[j]? with
  | some ⟨r, .running⟩ => some (r, { m with threads := m.threads.set j ⟨r, .ended⟩ })
  | _ => none

variable {b : EventBus Ref} {eventId : ε → EventId} {m m' : Emission ε Ref}

theorem stage_of_enter (h : m.enter b eventId = some m') :
    m.stage = .popped ∧ ∃ ret receivers, b.sendSync (eventId m.event) = some (ret, receivers) ∧
      m' = { m with stage := .starting receivers } := by
  unfold enter at h
  split at h
  · next hstage =>
    obtain ⟨⟨ret, receivers⟩, hsend, rfl⟩ := Option.map_eq_some_iff.mp h
    exact ⟨hstage, ret, receivers, hsend, rfl⟩
  · cases h

theorem stage_of_start (h : m.start = some m') :
    m.stage = .starting [] ∧ m' = { m with stage := .joining 0 } ∨
      ∃ x receivers, m.stage = .starting (x :: receivers) ∧
        m' = { m with stage := .starting receivers, threads := m.threads ++ [⟨x, .created⟩] } := by
  unfold start at h
  split at h
  · next hstage => exact .inl ⟨hstage, (Option.some.inj h).symm⟩
  · next x receivers hstage => exact .inr ⟨x, receivers, hstage, (Option.some.inj h).symm⟩
  · cases h

theorem stage_of_join (h : m.join = some m') :
    ∃ i, m.stage = .joining i ∧
      (m.threads[i]? = none ∧ m' = { m with stage := .ended } ∨
        ∃ c, m.threads[i]? = some c ∧ c.phase = .ended ∧
          m' = { m with stage := .joining (i + 1) }) := by
  unfold join at h
  split at h
  · next i hstage =>
    refine ⟨i, hstage, ?_⟩
    split at h
    · next hi => exact .inl ⟨hi, (Option.some.inj h).symm⟩
    · next c hi =>
      obtain ⟨hended, h⟩ := Option.ite_none_right_eq_some.mp h
      exact .inr ⟨c, hi, hended, (Option.some.inj h).symm⟩
  · cases h

theorem thread_of_beginCallback {j : ℕ} (h : m.beginCallback j = some m') :
    ∃ x, m.threads[j]? = some ⟨x, .created⟩ ∧
      m' = { m with threads := m.threads.set j ⟨x, .running⟩ } := by
  unfold beginCallback at h
  split at h
  · next x hj => exact ⟨x, hj, (Option.some.inj h).symm⟩
  · cases h

theorem thread_of_endCallback {j : ℕ} {x : Ref} (h : m.endCallback j = some (x, m')) :
    m.threads[j]? = some ⟨x, .running⟩ ∧
      m' = { m with threads := m.threads.set j ⟨x, .ended⟩ } := by
  unfold endCallback at h
  split at h
  · next y hj =>
    obtain ⟨rfl, rfl⟩ := Prod.mk.inj (Option.some.inj h)
    exact ⟨hj, rfl⟩
  · cases h

end Emission

/-- The queue of the bus, the local variables of `Cyclic`, the threads of `EmitAsync`, and the events
that the callbacks have handled. -/
structure Async (ε Ref : Type) where
  queue : List ε
  event : Option ε
  flag : Bool
  emissions : List (Emission ε Ref)
  handled : List (Ref × ε)
  deriving Repr

/-- A step of a sender, of `Cyclic`, of a thread of `EmitAsync` or of one of its callbacks. -/
inductive AsyncAction (ε : Type) where
  | sendAsync (event : ε)
  | poll
  | spawn
  | enter (i : ℕ)
  | start (i : ℕ)
  | join (i : ℕ)
  | beginCallback (i j : ℕ)
  | endCallback (i j : ℕ)
  deriving Repr

namespace Async

variable {ε Ref : Type}

def init : Async ε Ref := ⟨[], none, false, [], []⟩

/-- A step of one of the threads of `EmitAsync`. -/
def onEmission (s : Async ε Ref) (i : ℕ) (f : Emission ε Ref → Option (Emission ε Ref)) :
    Option (Async ε Ref) :=
  (s.emissions[i]?).bind fun m =>
    (f m).map fun m' => { s with emissions := s.emissions.set i m' }

def step (b : EventBus Ref) (eventId : ε → EventId) (s : Async ε Ref) :
    AsyncAction ε → Option (Async ε Ref)
  | .sendAsync e => some { s with queue := s.queue ++ [e] }
  | .poll =>
    if s.flag then none
    else match s.queue with
      -- the loop of `Cyclic` polls an empty queue
      | [] => some s
      | e :: queue => some { s with queue := queue, event := some e, flag := true }
  | .spawn =>
    match s.flag, s.event with
    | true, some e => some { s with flag := false, emissions := s.emissions ++ [⟨e, .popped, []⟩] }
    | _, _ => none
  | .enter i => s.onEmission i (Emission.enter b eventId)
  | .start i => s.onEmission i Emission.start
  | .join i => s.onEmission i Emission.join
  | .beginCallback i j => s.onEmission i (·.beginCallback j)
  | .endCallback i j =>
    (s.emissions[i]?).bind fun m => (m.endCallback j).map fun r =>
      { s with emissions := s.emissions.set i r.2, handled := s.handled ++ [(r.1, m.event)] }

/-- What a step does. -/
inductive StepCases (b : EventBus Ref) (eventId : ε → EventId) (s : Async ε Ref) :
    AsyncAction ε → Async ε Ref → Prop
  | sendAsync (e : ε) : StepCases b eventId s (.sendAsync e) { s with queue := s.queue ++ [e] }
  | pollEmpty (hq : s.queue = []) : StepCases b eventId s .poll s
  | poll (e : ε) (queue : List ε) (hflag : s.flag = false) (hq : s.queue = e :: queue) :
      StepCases b eventId s .poll { s with queue := queue, event := some e, flag := true }
  | spawn (e : ε) (hflag : s.flag = true) (hevent : s.event = some e) :
      StepCases b eventId s .spawn
        { s with flag := false, emissions := s.emissions ++ [⟨e, .popped, []⟩] }
  | enter (i : ℕ) (s' : Async ε Ref) (h : s.onEmission i (Emission.enter b eventId) = some s') :
      StepCases b eventId s (.enter i) s'
  | start (i : ℕ) (s' : Async ε Ref) (h : s.onEmission i Emission.start = some s') :
      StepCases b eventId s (.start i) s'
  | join (i : ℕ) (s' : Async ε Ref) (h : s.onEmission i Emission.join = some s') :
      StepCases b eventId s (.join i) s'
  | beginCallback (i j : ℕ) (s' : Async ε Ref)
      (h : s.onEmission i (·.beginCallback j) = some s') :
      StepCases b eventId s (.beginCallback i j) s'
  | endCallback (i j : ℕ) (m m' : Emission ε Ref) (x : Ref) (hm : s.emissions[i]? = some m)
      (h : m.endCallback j = some (x, m')) :
      StepCases b eventId s (.endCallback i j)
        { s with emissions := s.emissions.set i m', handled := s.handled ++ [(x, m.event)] }

theorem step_cases {b : EventBus Ref} {eventId : ε → EventId} {s s' : Async ε Ref}
    {a : AsyncAction ε} (h : s.step b eventId a = some s') : StepCases b eventId s a s' := by
  cases a with
  | sendAsync e =>
    obtain rfl := Option.some.inj h
    exact .sendAsync e
  | poll =>
    simp only [step, Option.ite_none_left_eq_some, Bool.not_eq_true] at h
    obtain ⟨hflag, h⟩ := h
    split at h
    · next hq =>
      obtain rfl := Option.some.inj h
      exact .pollEmpty hq
    · next e queue hq =>
      obtain rfl := Option.some.inj h
      exact .poll e queue hflag hq
  | spawn =>
    simp only [step] at h
    split at h
    · next e hflag hevent =>
      obtain rfl := Option.some.inj h
      exact .spawn e hflag hevent
    · cases h
  | enter i => exact .enter i s' h
  | start i => exact .start i s' h
  | join i => exact .join i s' h
  | beginCallback i j => exact .beginCallback i j s' h
  | endCallback i j =>
    obtain ⟨m, hm, h⟩ := Option.bind_eq_some_iff.mp h
    obtain ⟨⟨x, m'⟩, hend, rfl⟩ := Option.map_eq_some_iff.mp h
    exact .endCallback i j m m' x hm hend

/-- The events that were sent in a run. -/
def sent (as : List (AsyncAction ε)) : List ε :=
  as.filterMap fun a =>
    match a with
    | .sendAsync e => some e
    | _ => none

/-- The events that `Cyclic` popped in a run. -/
def popped (b : EventBus Ref) (eventId : ε → EventId) (as : List (AsyncAction ε)) : List ε :=
  (trace (step b eventId) (fun s a => match a with
    | .poll => s.queue.head?
    | _ => none) init as).filterMap Prod.snd

end Async

/-! ## What is outstanding -/

variable {ε Ref : Type} [DecidableEq Ref]

instance (b : EventBus Ref) (ref : Ref) (e : EventId) : Decidable (b.Subscribed ref e) :=
  inferInstanceAs (Decidable (_ = _ ∧ b.eventToReceiversMap.Listed _ _))

/-- How often a receiver has still to handle the event of an emission: before `SendSync` once if it
subscribes to it, then for the callbacks of it that are to be started or have not ended. -/
def Emission.due (b : EventBus Ref) (eventId : ε → EventId) (r : Ref) (m : Emission ε Ref) : ℕ :=
  (match m.stage with
    | .popped => if b.Subscribed r (eventId m.event) then 1 else 0
    | .starting receivers => receivers.count r
    | .joining _ => 0
    | .ended => 0) +
  m.threads.countP fun c => c.receiver = r ∧ c.phase ≠ .ended

namespace Async

/-- The events a receiver has handled. -/
def handledBy (s : Async ε Ref) (r : Ref) : List ε :=
  (s.handled.filter fun x => x.1 = r).map Prod.snd

/-- The events a receiver has still to handle: in the queue, popped and not yet emitted, or emitted
with its callback pending. -/
def outstanding (b : EventBus Ref) (eventId : ε → EventId) (s : Async ε Ref) (r : Ref) : List ε :=
  (s.queue.filter fun e => b.Subscribed r (eventId e)) ++
    ((if s.flag then s.event.toList else []).filter fun e => b.Subscribed r (eventId e)) ++
    s.emissions.flatMap fun m => List.replicate (m.due b eventId r) m.event

/-- The queue is empty and no thread is running: `Cyclic` has nothing to emit, and all threads of
`EmitAsync` are at their ends. -/
def Quiescent (s : Async ε Ref) : Prop :=
  s.queue = [] ∧ s.flag = false ∧ ∀ m ∈ s.emissions, m.stage = .ended

end Async

/-! ## Deliveries -/

omit [DecidableEq Ref] in
/-- A delivery starts the callback of every subscriber once, and of nobody else. -/
theorem sendSync_subscribed {b : EventBus Ref} {s : Subscriptions} (h : b.Refines s)
    (hs : ∀ p ∈ s.pairs, p.2.IsValid) {e : EventId} {ret : ReturnType} {receivers : List Ref}
    (hsend : b.sendSync e = some (ret, receivers)) :
    receivers.Nodup ∧ ∀ r, r ∈ receivers ↔ b.Subscribed r e := by
  have hmem : ∀ r, b.Subscribed r e → r ∈ receivers := by
    rintro r ⟨hr, hid⟩
    obtain ⟨ret', receivers', hsend', hmem⟩ := (EventBus.indexed_iff_delivered h hs hr e).mp hid
    rw [hsend] at hsend'
    cases hsend'
    exact hmem
  by_cases hv : e.IsValid
  · obtain ⟨ret', receivers', hsend', hnodup, hown, hids⟩ :=
      EventBus.sendSync_spec h.toWellFormed hv fun _ => h.exists_of_indexed
    rw [hsend] at hsend'
    cases hsend'
    refine ⟨hnodup.of_map _, fun r => ⟨fun hr => ⟨hown r hr, ?_⟩, hmem r⟩⟩
    exact (hids _).mp (List.mem_map_of_mem hr)
  · -- an event that is not valid is delivered to nobody
    rw [EventBus.sendSync, if_neg fun hne => hv (EventId.isValid_iff.mpr hne)] at hsend
    cases hsend
    refine ⟨List.nodup_nil, fun r => iff_of_false (by simp) fun hr => hv ?_⟩
    exact hs _ ((h.indexed _ e).mp hr.2)

/-! ## The emissions -/

/-- The bus starts the callback of every subscriber once. -/
def Delivers (b : EventBus Ref) : Prop :=
  ∀ e ret receivers, b.sendSync e = some (ret, receivers) →
    ∀ r, receivers.count r = if b.Subscribed r e then 1 else 0

theorem delivers_of_run {receivers : Ref → EventReceiver} {b : EventBus Ref}
    (h : Reachable EventBus.next (EventBus.init receivers) b) : Delivers b := by
  intro e ret refs hsend r
  obtain ⟨s, href, hs⟩ := EventBus.exists_refines h
  obtain ⟨hnodup, hmem⟩ := sendSync_subscribed href hs hsend
  rw [hnodup.count]
  simp only [hmem]

namespace Emission

variable {b : EventBus Ref} {eventId : ε → EventId} {m m' : Emission ε Ref}

/-- A step of the thread of `EmitAsync` leaves its event and what is due alone. -/
def Keeps (b : EventBus Ref) (eventId : ε → EventId) (m m' : Emission ε Ref) : Prop :=
  m'.event = m.event ∧ ∀ r, m'.due b eventId r = m.due b eventId r

theorem enter_keeps (hb : Delivers b) (h : m.enter b eventId = some m') : Keeps b eventId m m' := by
  obtain ⟨hstage, ret, receivers, hsend, rfl⟩ := stage_of_enter h
  refine ⟨rfl, fun r => ?_⟩
  simp only [due, hstage, hb _ _ _ hsend r]

theorem start_keeps (h : m.start = some m') : Keeps b eventId m m' := by
  rcases stage_of_start h with ⟨hstage, rfl⟩ | ⟨x, receivers, hstage, rfl⟩
  · refine ⟨rfl, fun r => ?_⟩
    simp [due, hstage]
  · refine ⟨rfl, fun r => ?_⟩
    by_cases hx : x = r
    · simp [due, hstage, hx]
      omega
    · simp [due, hstage, hx]

theorem join_keeps (h : m.join = some m') : Keeps b eventId m m' := by
  obtain ⟨i, hstage, ⟨-, rfl⟩ | ⟨c, -, -, rfl⟩⟩ := stage_of_join h
  · refine ⟨rfl, fun r => ?_⟩
    simp [due, hstage]
  · refine ⟨rfl, fun r => ?_⟩
    simp [due, hstage]

theorem beginCallback_keeps {j : ℕ} (h : m.beginCallback j = some m') : Keeps b eventId m m' := by
  obtain ⟨x, hj, rfl⟩ := thread_of_beginCallback h
  refine ⟨rfl, fun r => ?_⟩
  obtain ⟨as, bs, hsplit, hset, -⟩ := exists_split_of_getElem? hj
  simp only [due, hset]
  simp [hsplit, List.countP_cons]

variable (b eventId) in
/-- A callback that ends has handled its event once. -/
theorem endCallback_due {j : ℕ} {x : Ref} (h : m.endCallback j = some (x, m')) :
    m'.event = m.event ∧
      ∀ r, m.due b eventId r = m'.due b eventId r + if x = r then 1 else 0 := by
  obtain ⟨hj, rfl⟩ := thread_of_endCallback h
  refine ⟨rfl, fun r => ?_⟩
  obtain ⟨as, bs, hsplit, hset, -⟩ := exists_split_of_getElem? hj
  simp only [due, hset]
  by_cases hx : x = r
  · simp [hsplit, hx]
    omega
  · simp [hsplit, hx]

end Emission

/-! ## Joins -/

/-- At the stage, the callback thread with the index has been joined. -/
def Stage.Joined : Stage Ref → ℕ → Prop
  | .joining i, k => k < i
  | .ended, _ => True
  | _, _ => False

/-- The callback threads that were joined have ended. -/
def Emission.JoinedEnded (m : Emission ε Ref) : Prop :=
  ∀ k c, m.threads[k]? = some c → m.stage.Joined k → c.phase = .ended

namespace Emission

variable {b : EventBus Ref} {eventId : ε → EventId} {m m' : Emission ε Ref}

omit [DecidableEq Ref] in
theorem joinedEnded_enter (h : m.enter b eventId = some m') : m'.JoinedEnded := by
  obtain ⟨-, ret, receivers, -, rfl⟩ := stage_of_enter h
  exact fun k c _ hk => hk.elim

omit [DecidableEq Ref] in
theorem joinedEnded_start (h : m.start = some m') : m'.JoinedEnded := by
  rcases stage_of_start h with ⟨-, rfl⟩ | ⟨x, receivers, -, rfl⟩
  · exact fun k c _ hk => absurd hk (Nat.not_lt_zero k)
  · exact fun k c _ hk => hk.elim

omit [DecidableEq Ref] in
theorem joinedEnded_join (hm : m.JoinedEnded) (h : m.join = some m') : m'.JoinedEnded := by
  obtain ⟨i, hstage, hcases⟩ := stage_of_join h
  have hm' : ∀ k c, m.threads[k]? = some c → k < i → c.phase = .ended := fun k c hc hk =>
    hm k c hc (by simpa [hstage, Stage.Joined] using hk)
  rcases hcases with ⟨hi, rfl⟩ | ⟨d, hi, hended, rfl⟩
  · -- there is no further thread, so all were joined
    intro k c hc _
    have hk : k < m.threads.length := (List.getElem?_eq_some_iff.mp hc).1
    have hlen := List.getElem?_eq_none_iff.mp hi
    exact hm' k c hc (by omega)
  · intro k c hc hk
    have hk : k < i + 1 := hk
    by_cases hki : k = i
    · subst hki
      have hcd : some c = some d := hc.symm.trans hi
      exact Option.some.inj hcd ▸ hended
    · exact hm' k c hc (by omega)

omit [DecidableEq Ref] in
/-- A thread that is not at its end was not joined, so it may go on. -/
theorem joinedEnded_set (hm : m.JoinedEnded) {j : ℕ} {d d' : Callback Ref}
    (hj : m.threads[j]? = some d) (hd : d.phase ≠ .ended) :
    JoinedEnded { m with threads := m.threads.set j d' } := by
  intro k c hc hk
  by_cases hkj : j = k
  · subst hkj
    exact absurd (hm j d hj hk) hd
  · exact hm k c (by rwa [List.getElem?_set_ne hkj] at hc) hk

omit [DecidableEq Ref] in
theorem joinedEnded_beginCallback (hm : m.JoinedEnded) {j : ℕ}
    (h : m.beginCallback j = some m') : m'.JoinedEnded := by
  obtain ⟨x, hj, rfl⟩ := thread_of_beginCallback h
  exact joinedEnded_set hm hj (by simp)

omit [DecidableEq Ref] in
theorem joinedEnded_endCallback (hm : m.JoinedEnded) {j : ℕ} {x : Ref}
    (h : m.endCallback j = some (x, m')) : m'.JoinedEnded := by
  obtain ⟨hj, rfl⟩ := thread_of_endCallback h
  exact joinedEnded_set hm hj (by simp)

/-- Nothing is due of an emission at its end. -/
theorem due_of_ended (hm : m.JoinedEnded) (hended : m.stage = .ended) (r : Ref) :
    m.due b eventId r = 0 := by
  have hnone : (m.threads.countP fun c => c.receiver = r ∧ c.phase ≠ .ended) = 0 := by
    rw [List.countP_eq_zero]
    intro c hc
    obtain ⟨k, hk⟩ := List.mem_iff_getElem?.mp hc
    have hphase := hm k c hk (by simp [hended, Stage.Joined])
    simp [hphase]
  rw [due, hended, hnone]

end Emission

/-! ## Conservation -/

namespace Async

variable {b : EventBus Ref} {eventId : ε → EventId}

omit [DecidableEq Ref] in
theorem sent_concat (as : List (AsyncAction ε)) (a : AsyncAction ε) :
    sent (as ++ [a]) = sent as ++ sent [a] := List.filterMap_append

theorem outstanding_onEmission {s s' : Async ε Ref} {i : ℕ}
    {f : Emission ε Ref → Option (Emission ε Ref)} (h : s.onEmission i f = some s')
    (hf : ∀ m m', f m = some m' → m.Keeps b eventId m') (r : Ref) :
    s'.handledBy r = s.handledBy r ∧ s'.outstanding b eventId r = s.outstanding b eventId r := by
  obtain ⟨m, hm, h⟩ := Option.bind_eq_some_iff.mp h
  obtain ⟨m', hfm, rfl⟩ := Option.map_eq_some_iff.mp h
  obtain ⟨hevent, hdue⟩ := hf m m' hfm
  obtain ⟨as, bs, hsplit, hset, -⟩ := exists_split_of_getElem? hm
  refine ⟨rfl, ?_⟩
  simp only [outstanding, hset]
  simp [hsplit, hevent, hdue r]

/-- **A step moves an event along, hands it over to a receiver, or adds one that is sent.** -/
theorem outstanding_step (hb : Delivers b) {s s' : Async ε Ref} {a : AsyncAction ε}
    (h : s.step b eventId a = some s') (r : Ref) :
    (s'.handledBy r ++ s'.outstanding b eventId r).Perm
      (s.handledBy r ++ s.outstanding b eventId r ++
        (sent [a]).filter fun e => b.Subscribed r (eventId e)) := by
  classical
  -- a step of a thread of `EmitAsync` leaves both parts alone
  have hkeep : ∀ {i f}, s.onEmission i f = some s' → sent [a] = [] →
      (∀ m m', f m = some m' → m.Keeps b eventId m') →
      (s'.handledBy r ++ s'.outstanding b eventId r).Perm
        (s.handledBy r ++ s.outstanding b eventId r ++
          (sent [a]).filter fun e => b.Subscribed r (eventId e)) := by
    intro i f hon hsent hf
    obtain ⟨hhandled, hout⟩ := outstanding_onEmission hon hf r
    rw [hhandled, hout, hsent, List.filter_nil, List.append_nil]
  cases step_cases h with
  | sendAsync e =>
    rw [List.perm_iff_count]
    intro x
    simp only [sent, outstanding, handledBy, List.filterMap_cons, List.filterMap_nil,
      List.filter_append, List.count_append]
    omega
  | pollEmpty hq => simp [sent]
  | poll e queue hflag hq =>
    -- the event is in the local variable instead of the queue
    rw [List.perm_iff_count]
    intro x
    simp only [sent, outstanding, handledBy, hflag, hq, List.filterMap_cons, List.filterMap_nil,
      List.filter_nil, List.append_nil, Option.toList_some, if_true, Bool.false_eq_true, if_false,
      List.count_append, List.filter_cons (x := e)]
    split <;> simp only [List.count_cons, List.count_nil] <;> omega
  | spawn e hflag hevent =>
    -- an emission that was just started owes its event to every subscriber
    have hdue : Emission.due b eventId r ⟨e, .popped, []⟩ =
        if b.Subscribed r (eventId e) then 1 else 0 := by simp [Emission.due]
    rw [List.perm_iff_count]
    intro x
    by_cases hsub : b.Subscribed r (eventId e)
    · simp [sent, outstanding, handledBy, hflag, hevent, hdue, hsub, List.count_cons]
    · simp [sent, outstanding, handledBy, hflag, hevent, hdue, hsub]
  | enter i _ hon => exact hkeep hon rfl fun m m' => Emission.enter_keeps hb
  | start i _ hon => exact hkeep hon rfl fun m m' => Emission.start_keeps
  | join i _ hon => exact hkeep hon rfl fun m m' => Emission.join_keeps
  | beginCallback i j _ hon => exact hkeep hon rfl fun m m' => Emission.beginCallback_keeps
  | endCallback i j m m' x hm hend =>
    obtain ⟨hevent, hdue⟩ := Emission.endCallback_due b eventId hend
    obtain ⟨as, bs, hsplit, hset, -⟩ := exists_split_of_getElem? hm
    rw [List.perm_iff_count]
    intro y
    have hd := hdue r
    simp only [outstanding, handledBy, hset]
    by_cases hx : x = r
    · simp only [hx, if_true] at hd
      simp [hsplit, hevent, hx, hd, sent, List.replicate_succ, List.count_cons]
      omega
    · simp only [hx, if_false] at hd
      simp [hsplit, hevent, hx, hd, sent]

theorem conserved_of_run (hb : Delivers b) {as : List (AsyncAction ε)} {s : Async ε Ref}
    (hrun : run (step b eventId) init as = some s) (r : Ref) :
    (s.handledBy r ++ s.outstanding b eventId r).Perm
      ((sent as).filter fun e => b.Subscribed r (eventId e)) := by
  refine run_history_induction (P := fun p t => (t.handledBy r ++ t.outstanding b eventId r).Perm
    ((sent p).filter fun e => b.Subscribed r (eventId e))) ?_ ?_ hrun
  · simp [init, handledBy, outstanding, sent]
  · intro p t a u _ ih hstep
    rw [sent_concat, List.filter_append]
    exact (outstanding_step hb hstep r).trans (ih.append_right _)

omit [DecidableEq Ref] in
/-- A step of one thread of `EmitAsync` keeps what holds of all. -/
theorem forall_onEmission {P : Emission ε Ref → Prop} {s s' : Async ε Ref} {i : ℕ}
    {f : Emission ε Ref → Option (Emission ε Ref)} (h : s.onEmission i f = some s')
    (hs : ∀ m ∈ s.emissions, P m) (hf : ∀ m m', P m → f m = some m' → P m') :
    ∀ m ∈ s'.emissions, P m := by
  obtain ⟨m, hm, h⟩ := Option.bind_eq_some_iff.mp h
  obtain ⟨m', hfm, rfl⟩ := Option.map_eq_some_iff.mp h
  intro x hx
  rcases List.mem_or_eq_of_mem_set hx with hx | rfl
  · exact hs x hx
  · exact hf m x (hs m (List.mem_of_getElem? hm)) hfm

omit [DecidableEq Ref] in
theorem joinedEnded_step {s s' : Async ε Ref} {a : AsyncAction ε}
    (hs : ∀ m ∈ s.emissions, m.JoinedEnded) (h : s.step b eventId a = some s') :
    ∀ m ∈ s'.emissions, m.JoinedEnded := by
  cases step_cases h with
  | sendAsync e => exact hs
  | pollEmpty hq => exact hs
  | poll e queue hflag hq => exact hs
  | spawn e hflag hevent =>
    intro m hm
    rcases List.mem_append.mp hm with hm | hm
    · exact hs m hm
    · obtain rfl := List.mem_singleton.mp hm
      exact fun k c _ hk => hk.elim
  | enter i _ hon => exact forall_onEmission hon hs fun m m' _ => Emission.joinedEnded_enter
  | start i _ hon => exact forall_onEmission hon hs fun m m' _ => Emission.joinedEnded_start
  | join i _ hon => exact forall_onEmission hon hs fun m m' => Emission.joinedEnded_join
  | beginCallback i j _ hon =>
    exact forall_onEmission hon hs fun m m' hm => Emission.joinedEnded_beginCallback hm
  | endCallback i j m m' x hm hend =>
    intro y hy
    rcases List.mem_or_eq_of_mem_set hy with hy | rfl
    · exact hs y hy
    · exact Emission.joinedEnded_endCallback (hs m (List.mem_of_getElem? hm)) hend

/-- Once everything is quiet, nothing is outstanding. -/
theorem outstanding_of_quiescent {as : List (AsyncAction ε)} {s : Async ε Ref}
    (hrun : run (step b eventId) init as = some s) (hq : s.Quiescent) (r : Ref) :
    s.outstanding b eventId r = [] := by
  obtain ⟨hqueue, hflag, hended⟩ := hq
  have hjoined : ∀ m ∈ s.emissions, m.JoinedEnded :=
    run_induction (P := fun s : Async ε Ref => ∀ m ∈ s.emissions, m.JoinedEnded)
      (by simp [init]) (fun t a u => joinedEnded_step) hrun
  have hnone : (s.emissions.flatMap fun m => List.replicate (m.due b eventId r) m.event) = [] := by
    rw [List.flatMap_eq_nil_iff]
    intro m hm
    rw [Emission.due_of_ended (hjoined m hm) (hended m hm), List.replicate_zero]
  simp [outstanding, hqueue, hflag, hnone]

omit [DecidableEq Ref] in
/-- The events are popped in the order in which they were sent. -/
theorem popped_append_queue {as : List (AsyncAction ε)} {s : Async ε Ref}
    (hrun : run (step b eventId) init as = some s) :
    popped b eventId as ++ s.queue = sent as := by
  refine run_history_induction (P := fun p t => popped b eventId p ++ t.queue = sent p) ?_ ?_ hrun
  · rfl
  · intro p t a u hp ih hstep
    have hpopped : popped b eventId (p ++ [a]) = popped b eventId p ++
        (match a with
          | .poll => t.queue.head?
          | _ => none).toList := by
      rw [popped, trace_concat hp, List.filterMap_append]
      cases a <;> simp [popped]
      cases t.queue.head? <;> rfl
    rw [hpopped, sent_concat, ← ih]
    cases step_cases hstep with
    | sendAsync e => simp [sent]
    | pollEmpty hq => simp [sent, hq]
    | poll e queue hflag hq => simp [sent, hq]
    | spawn e hflag hevent => simp [sent]
    | endCallback i j m m' x hm hend => simp [sent]
    | _ =>
      obtain ⟨m, -, hon⟩ := Option.bind_eq_some_iff.mp ‹_ = some u›
      obtain ⟨m', -, rfl⟩ := Option.map_eq_some_iff.mp hon
      simp [sent]

/-- **No asynchronous event is lost or handled twice.** With the subscriptions that any calls have
set up, what a receiver has handled and what is on its way to it are the events sent so far that it
subscribes to; when everything is quiet it has handled each of them once; and the events leave the
queue in the order in which they entered it. -/
theorem events_conserved {receivers : Ref → EventReceiver} {calls : List (BusCall Ref)}
    (hbus : run EventBus.next (EventBus.init receivers) calls = some b)
    {as : List (AsyncAction ε)} {s : Async ε Ref} (hrun : run (step b eventId) init as = some s) :
    (∀ r, (s.handledBy r ++ s.outstanding b eventId r).Perm
        ((sent as).filter fun e => b.Subscribed r (eventId e))) ∧
      (s.Quiescent → ∀ r, (s.handledBy r).Perm
        ((sent as).filter fun e => b.Subscribed r (eventId e))) ∧
      popped b eventId as ++ s.queue = sent as := by
  have hb : Delivers b := delivers_of_run ⟨calls, hbus⟩
  refine ⟨conserved_of_run hb hrun, fun hq r => ?_, popped_append_queue hrun⟩
  have hperm := conserved_of_run hb hrun r
  rwa [outstanding_of_quiescent hrun hq, List.append_nil] at hperm

/-- One receiver subscribes to disconnections. -/
def oneSubscription : List (BusCall Unit) := [.addReceiver (), .subscribe 5 .disconnectUser]

theorem oneSubscription_runs :
    (run EventBus.next (EventBus.init EventBus.newReceiver) oneSubscription).isSome = true := by
  decide

/-- The bus with one subscription. -/
def subscribedBus : EventBus Unit :=
  (run EventBus.next (EventBus.init EventBus.newReceiver) oneSubscription).get oneSubscription_runs

/-- An event that is sent twice, and another one that nobody subscribes to. -/
def twiceSent : List (AsyncAction Event) :=
  let e : Event := .disconnectUser (.ofUsername (bytes "bob"))
  [.sendAsync e, .sendAsync (.connectionFailed (.ofUsername [])), .sendAsync e, .poll, .spawn, .poll,
    .spawn, .poll, .spawn, .enter 2, .start 2, .start 2, .beginCallback 2 0, .enter 0, .start 0,
    .endCallback 2 0, .start 0, .beginCallback 0 0, .endCallback 0 0, .enter 1, .start 1, .join 1,
    .join 0, .join 0, .join 2, .join 2]

theorem twiceSent_runs :
    (run (step subscribedBus Event.getEventId) init twiceSent).isSome = true := by decide

/-- The state after all threads have ended. -/
def delivered : Async Event Unit :=
  (run (step subscribedBus Event.getEventId) init twiceSent).get twiceSent_runs

theorem events_conserved_twiceSent :
    (delivered.handledBy ()).Perm
        ((sent twiceSent).filter fun e => subscribedBus.Subscribed () e.getEventId) ∧
      popped subscribedBus Event.getEventId twiceSent ++ delivered.queue = sent twiceSent := by
  have hbus : run EventBus.next (EventBus.init EventBus.newReceiver) oneSubscription =
      some subscribedBus := (Option.some_get _).symm
  have hrun : run (step subscribedBus Event.getEventId) init twiceSent = some delivered :=
    (Option.some_get _).symm
  obtain ⟨-, hquiet, horder⟩ := events_conserved hbus hrun
  exact ⟨hquiet ⟨by decide, by decide, by decide⟩ (), horder⟩

end Async

end SimpleChat
