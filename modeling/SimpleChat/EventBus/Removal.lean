import SimpleChat.EventBus.Async
import SimpleChat.EventBus.Threads

/-!
# Deliveries that outlive a subscription

`SendSync` creates the threads of the callbacks while it holds its locks, and releases the locks
before it joins them. A thread that was created may begin its callback at any time afterwards, so
`RemoveReceiver` and `Unsubscribe` stop the deliveries to come, but not those under way.

## Main definitions

* `Invocation`, `Deliveries`, `Deliveries.step`: the callers of the bus, its queue, and the callback
  threads
* `Subscribes`: a step that stores an id for an event in the index
* `Withdrawn`: a removal or an end of a subscription that no later call takes back

## Main results

* `pending_step`: a callback that is to begin was so before the step, or its receiver is registered
  and indexed
* `begun_callbacks_created_before`: after a withdrawal only callbacks begin whose threads existed
  before it
* `callback_begins_after_removal`: one that does
-/

namespace SimpleChat

open Containers Std Transition

/-- A thread that `SendSync` has created for the callback of a receiver, with the event it is for. -/
structure Invocation (Ref : Type) extends Callback Ref where
  eventId : EventId
  deriving DecidableEq, Repr

/-- The bus with its callers, the event queue, the threads of `EmitAsync` that have not delivered
their event yet, all callback threads in the order of their creation, and the ones that a caller has
still to join. -/
structure Deliveries (Tid Ref : Type) where
  threads : Threads Tid Ref
  queue : List EventId
  emissions : List EventId
  invocations : List (Invocation Ref)
  joins : Tid → List ℕ

/-- A section of a caller, the join of its next callback thread, a step of the asynchronous delivery,
or the begin or the end of a callback. -/
inductive DeliveryAction (Tid Ref : Type) where
  | call (t : Tid) (a : BusSection Ref)
  | join (t : Tid)
  | sendAsync (eventId : EventId)
  | cyclic
  | emitAsync (i : ℕ)
  | beginCallback (k : ℕ)
  | endCallback (k : ℕ)
  deriving Repr

namespace Deliveries

variable {Tid Ref : Type}

def init (receivers : Ref → EventReceiver) : Deliveries Tid Ref :=
  ⟨.init receivers, [], [], [], fun _ => []⟩

/-- The threads that a delivery creates. -/
def create (b : EventBus Ref) (e : EventId) : List (Invocation Ref) :=
  ((b.sendSync e).elim [] Prod.snd).map fun ref => ⟨⟨ref, .created⟩, e⟩

/-- The threads that a section creates. -/
def created (b : EventBus Ref) : BusSection Ref → List (Invocation Ref)
  | .sendSync e => create b e
  | .start _ => []
  | .finish => []

/-- A callback thread goes from one phase to the next. -/
def setPhase (s : Deliveries Tid Ref) (k : ℕ) (p q : CallbackPhase) : Option (Deliveries Tid Ref) :=
  match s.invocations[k]? with
  | some c =>
    if c.phase = p then
      some { s with invocations := s.invocations.set k { c with phase := q } }
    else none
  | none => none

variable [DecidableEq Tid] [DecidableEq Ref]

/-- A caller takes no step before it has joined the threads of its last delivery. -/
def step (s : Deliveries Tid Ref) : DeliveryAction Tid Ref → Option (Deliveries Tid Ref)
  | .call t a =>
    if s.joins t = [] then
      (s.threads.step (t, a)).map fun threads =>
        let new := created s.threads.bus a
        { s with
          threads := threads
          invocations := s.invocations ++ new
          joins := Function.update s.joins t (List.range' s.invocations.length new.length) }
    else none
  | .join t =>
    match s.joins t with
    | k :: ks =>
      if (s.invocations[k]?).any fun c => c.phase = .ended then
        some { s with joins := Function.update s.joins t ks }
      else none
    | [] => none
  | .sendAsync e => some { s with queue := s.queue ++ [e] }
  | .cyclic =>
    match s.queue with
    | [] => some s
    | e :: queue => some { s with queue := queue, emissions := s.emissions ++ [e] }
  | .emitAsync i =>
    (s.emissions[i]?).bind fun e =>
      (s.threads.bus.sendSync e).map fun _ =>
        { s with
          emissions := s.emissions.eraseIdx i
          invocations := s.invocations ++ create s.threads.bus e }
  | .beginCallback k => s.setPhase k .created .running
  | .endCallback k => s.setPhase k .running .ended

omit [DecidableEq Tid] [DecidableEq Ref] in
/-- The thread was created for the callback of the receiver, which has not begun. -/
def Pending (s : Deliveries Tid Ref) (k : ℕ) (ref : Ref) (e : EventId) : Prop :=
  s.invocations[k]? = some ⟨⟨ref, .created⟩, e⟩

omit [DecidableEq Tid] [DecidableEq Ref] in
/-- The step ends a subscription call of the receiver for the event. -/
def Subscribes (id : ReceiverId) (e : EventId) (s : Deliveries Tid Ref) :
    DeliveryAction Tid Ref → Prop
  | .call t .finish => s.threads.gap t = some (.subscribe id e)
  | _ => False

/-- The step from `s` to `u` removes the receiver or ends its subscription to the event, with success,
and the steps since then have not taken it back. A removal also ends the subscriptions, if the
receiver claims the events that the index stores for it. -/
inductive Withdrawn (s u : Deliveries Tid Ref) (since : List (DeliveryAction Tid Ref)) (ref : Ref)
    (e : EventId) : DeliveryAction Tid Ref → Prop
  | notRegistered (t : Tid) (id : ReceiverId) (hr : s.threads.bus.Registered id ref)
      (hsince : Along step (fun v => ¬ v.threads.bus.Registered id ref) u since) :
      Withdrawn s u since ref e (.call t (.start (.removeReceiver id)))
  | notSubscribed (t : Tid) (id : ReceiverId) (hr : s.threads.bus.Registered id ref)
      (hclaimed : ∀ f, s.threads.bus.Indexed id f → f ∈ (s.threads.bus.receivers ref).events)
      (hsince : Meets step (fun v a => ¬ Subscribes id e v a) u since) :
      Withdrawn s u since ref e (.call t (.start (.removeReceiver id)))
  | unsubscribed (t : Tid) (id : ReceiverId) (hid : (s.threads.bus.receivers ref).id = id)
      (hg : s.threads.gap t = some (.unsubscribe id e))
      (hsince : Meets step (fun v a => ¬ Subscribes id e v a) u since) :
      Withdrawn s u since ref e (.call t .finish)

/-! ## What a step does to the bus and to the callbacks -/

/-- The receivers keep their ids. -/
theorem receivers_id_step {s s' : Threads Tid Ref} (hwf : s.bus.WellFormed)
    {t : Tid} {a : BusSection Ref} (h : s.step (t, a) = some s') (ref : Ref) :
    (s'.bus.receivers ref).id = (s.bus.receivers ref).id := by
  cases Threads.step_cases hwf h with
  | refused c hc => rfl
  | added r hfree => rfl
  | removed id r hr => rfl
  | entered c hc g r r' hr => exact EventBus.update_receiver_id s.bus hr ref
  | delivered e => rfl
  | subscribed id e hg => rfl
  | unsubscribed id e hg => rfl

/-- A section that stores an id for an event is the end of a subscription. -/
theorem indexed_step {s s' : Threads Tid Ref} (hwf : s.bus.WellFormed) {t : Tid}
    {a : BusSection Ref} (h : s.step (t, a) = some s') {id : ReceiverId} {e : EventId}
    (hid : s'.bus.Indexed id e) :
    s.bus.Indexed id e ∨ a = .finish ∧ s.gap t = some (.subscribe id e) := by
  cases Threads.step_cases hwf h with
  | refused c hc => exact .inl hid
  | added r hfree => exact .inl hid
  | removed k r hr => exact .inl ((EventBus.indexed_removeReceiver k r id e).mp hid).2
  | entered c hc g r r' hr => exact .inl hid
  | delivered f => exact .inl hid
  | subscribed k f hg =>
    rcases (Index.listed_insert _ _ _ _ _).mp hid with ⟨rfl, rfl⟩ | hid
    · exact .inr ⟨rfl, hg⟩
    · exact .inl hid
  | unsubscribed k f hg => exact .inl ((Index.listed_erase _ _ _ _ _).mp hid).2

omit [DecidableEq Tid] [DecidableEq Ref] in
/-- A delivery creates threads for receivers that are registered and indexed. -/
theorem mem_create {b : EventBus Ref} {e : EventId} {c : Invocation Ref} (hc : c ∈ create b e) :
    ∃ id, b.Registered id c.receiver ∧ b.Indexed id c.eventId := by
  obtain ⟨ref, href, rfl⟩ := List.mem_map.mp hc
  unfold EventBus.sendSync at href
  split at href
  · split at href
    · next ids hids =>
      cases hlookup : ids.toList.mapM fun id => (b.eventReceivers id).join with
      | none => simp [hlookup] at href
      | some refs =>
        have href : ref ∈ refs := by simpa [hlookup] using href
        obtain ⟨id, hid, hjoin⟩ := EventBus.mem_of_mapM hlookup href
        exact ⟨id, EventBus.join_eventReceivers.mp hjoin, ids, hids, ExtTreeSet.mem_toList.mp hid⟩
    · simp at href
  · simp at href

/-- What a step does to the bus and to the callback threads. -/
inductive StepCases (s s' : Deliveries Tid Ref) : DeliveryAction Tid Ref → Prop
  | called (t : Tid) (b : BusSection Ref) (hstep : s.threads.step (t, b) = some s'.threads)
      (hnew : s'.invocations = s.invocations ++ created s.threads.bus b) :
      StepCases s s' (.call t b)
  | emitted (i : ℕ) (e : EventId) (hsame : s'.threads = s.threads)
      (hnew : s'.invocations = s.invocations ++ create s.threads.bus e) :
      StepCases s s' (.emitAsync i)
  | moved (a : DeliveryAction Tid Ref) (k : ℕ) (c : Invocation Ref) (hc : c.phase ≠ .created)
      (hsame : s'.threads = s.threads) (hset : s'.invocations = s.invocations.set k c) :
      StepCases s s' a
  | other (a : DeliveryAction Tid Ref) (hsame : s'.threads = s.threads)
      (hset : s'.invocations = s.invocations) : StepCases s s' a

theorem moved_of_setPhase {s s' : Deliveries Tid Ref} {k : ℕ} {p q : CallbackPhase}
    (hq : q ≠ .created) (h : s.setPhase k p q = some s') (a : DeliveryAction Tid Ref) :
    StepCases s s' a := by
  unfold setPhase at h
  split at h
  · split at h
    · obtain rfl := Option.some.inj h
      exact .moved a k _ hq rfl rfl
    · cases h
  · cases h

theorem step_of_call {s s' : Deliveries Tid Ref} {t : Tid} {b : BusSection Ref}
    (h : s.step (.call t b) = some s') :
    s.threads.step (t, b) = some s'.threads ∧
      s'.invocations = s.invocations ++ created s.threads.bus b := by
  simp only [step] at h
  split at h
  · obtain ⟨threads, hstep, rfl⟩ := Option.map_eq_some_iff.mp h
    exact ⟨hstep, rfl⟩
  · cases h

theorem step_cases {s s' : Deliveries Tid Ref} {a : DeliveryAction Tid Ref}
    (h : s.step a = some s') : StepCases s s' a := by
  cases a with
  | call t b =>
    obtain ⟨hstep, hnew⟩ := step_of_call h
    exact .called t b hstep hnew
  | join t =>
    simp only [step] at h
    split at h
    · split at h
      · obtain rfl := Option.some.inj h
        exact .other _ rfl rfl
      · cases h
    · cases h
  | sendAsync e =>
    obtain rfl := Option.some.inj h
    exact .other _ rfl rfl
  | cyclic =>
    simp only [step] at h
    split at h <;> obtain rfl := Option.some.inj h <;> exact .other _ rfl rfl
  | emitAsync i =>
    obtain ⟨e, -, h⟩ := Option.bind_eq_some_iff.mp h
    obtain ⟨-, -, rfl⟩ := Option.map_eq_some_iff.mp h
    exact .emitted i e rfl rfl
  | beginCallback k => exact moved_of_setPhase (by decide) h _
  | endCallback k => exact moved_of_setPhase (by decide) h _

theorem threads_of_step {s s' : Deliveries Tid Ref} {a : DeliveryAction Tid Ref}
    (h : s.step a = some s') :
    s'.threads = s.threads ∨ ∃ t b, a = .call t b ∧ s.threads.step (t, b) = some s'.threads := by
  cases step_cases h with
  | called t b hstep hnew => exact .inr ⟨t, b, rfl, hstep⟩
  | emitted i e hsame hnew => exact .inl hsame
  | moved _ k c hc hsame hset => exact .inl hsame
  | other _ hsame hset => exact .inl hsame

omit [DecidableEq Tid] [DecidableEq Ref] in
/-- The threads keep their numbers when others are created. -/
theorem pending_append {s : Deliveries Tid Ref} {new : List (Invocation Ref)} {k : ℕ} {ref : Ref}
    {e : EventId} (hk : (s.invocations ++ new)[k]? = some ⟨⟨ref, .created⟩, e⟩) :
    s.Pending k ref e ∨ (⟨⟨ref, .created⟩, e⟩ : Invocation Ref) ∈ new := by
  rcases Nat.lt_or_ge k s.invocations.length with hlt | hge
  · rw [List.getElem?_append_left hlt] at hk
    exact .inl hk
  · rw [List.getElem?_append_right hge] at hk
    exact .inr (List.mem_of_getElem? hk)

omit [DecidableEq Tid] [DecidableEq Ref] in
theorem mem_created {b : EventBus Ref} {a : BusSection Ref} {c : Invocation Ref}
    (hc : c ∈ created b a) : ∃ id, b.Registered id c.receiver ∧ b.Indexed id c.eventId := by
  cases a with
  | sendSync e => exact mem_create hc
  | start c => cases hc
  | finish => cases hc

/-- A callback that is to begin was so before the step, or it was created for a receiver that is
registered and indexed. -/
theorem pending_step {s s' : Deliveries Tid Ref} {a : DeliveryAction Tid Ref}
    (h : s.step a = some s') {k : ℕ} {ref : Ref} {e : EventId} (hk : s'.Pending k ref e) :
    s.Pending k ref e ∨ ∃ id, s.threads.bus.Registered id ref ∧ s.threads.bus.Indexed id e := by
  cases step_cases h with
  | called t b hstep hnew =>
    rw [Pending, hnew] at hk
    exact (pending_append hk).imp_right mem_created
  | emitted i f hsame hnew =>
    rw [Pending, hnew] at hk
    exact (pending_append hk).imp_right mem_create
  | moved _ j c hc hsame hset =>
    rw [Pending, hset] at hk
    by_cases hjk : j = k
    · subst hjk
      rw [List.getElem?_set_self'] at hk
      obtain ⟨d, -, rfl⟩ := Option.map_eq_some_iff.mp hk
      exact absurd rfl hc
    · rw [List.getElem?_set_ne hjk] at hk
      exact .inl hk
  | other _ hsame hset =>
    rw [Pending, hset] at hk
    exact .inl hk

theorem wellFormed_step {s s' : Deliveries Tid Ref} (hwf : s.threads.bus.WellFormed)
    {a : DeliveryAction Tid Ref} (h : s.step a = some s') : s'.threads.bus.WellFormed := by
  rcases threads_of_step h with heq | ⟨t, b, -, hstep⟩
  · rw [heq]
    exact hwf
  · exact Threads.wellFormed_step hwf hstep

/-- The bus is well formed, and the receiver has the id. -/
def Keeps (ref : Ref) (id : ReceiverId) (s : Deliveries Tid Ref) : Prop :=
  s.threads.bus.WellFormed ∧ (s.threads.bus.receivers ref).id = id

theorem keeps_step {s s' : Deliveries Tid Ref} {ref : Ref} {id : ReceiverId} (hs : s.Keeps ref id)
    {a : DeliveryAction Tid Ref} (h : s.step a = some s') : s'.Keeps ref id := by
  refine ⟨wellFormed_step hs.1 h, ?_⟩
  rcases threads_of_step h with heq | ⟨t, b, -, hstep⟩
  · rw [heq]
    exact hs.2
  · exact (receivers_id_step hs.1 hstep ref).trans hs.2

omit [DecidableEq Tid] [DecidableEq Ref] in
theorem Keeps.eq_of_registered {s : Deliveries Tid Ref} {ref : Ref} {id id' : ReceiverId}
    (hs : s.Keeps ref id) (hr : s.threads.bus.Registered id' ref) : id' = id :=
  (hs.1.own_id id' ref hr).symm.trans hs.2

/-! ## After a withdrawal -/

/-- A receiver that claims its index entries leaves none when it is removed. -/
theorem not_indexed_removed {s s' : Threads Tid Ref} (hwf : s.bus.WellFormed) {t : Tid}
    {id : ReceiverId} {ref : Ref} (hr : s.bus.Registered id ref)
    (hclaimed : ∀ f, s.bus.Indexed id f → f ∈ (s.bus.receivers ref).events)
    (h : s.step (t, .start (.removeReceiver id)) = some s') (e : EventId) :
    ¬ s'.bus.Indexed id e := by
  intro hid
  cases Threads.step_cases hwf h with
  | refused c hc => exact EventBus.not_registered_of_free (hc id rfl) ⟨ref, hr⟩
  | removed id ref' hr' =>
    obtain rfl := hr.unique hr'
    obtain ⟨hnot, he⟩ := (EventBus.indexed_removeReceiver id ref id e).mp hid
    exact hnot ⟨rfl, hclaimed e he⟩
  | entered c hc => exact hc id rfl

theorem not_indexed_unsubscribed {s s' : Threads Tid Ref} (hwf : s.bus.WellFormed) {t : Tid}
    {id : ReceiverId} {e : EventId} (hg : s.gap t = some (.unsubscribe id e))
    (h : s.step (t, .finish) = some s') : ¬ s'.bus.Indexed id e := by
  intro hid
  cases Threads.step_cases hwf h with
  | subscribed k f hg' =>
    rw [hg] at hg'
    cases hg'
  | unsubscribed k f hg' =>
    obtain ⟨rfl, rfl⟩ : id = k ∧ e = f := by
      rw [hg] at hg'
      simpa using hg'
    exact ((Index.listed_erase _ _ _ _ _).mp hid).1 ⟨rfl, rfl⟩

/-- While a receiver is not both registered and indexed, no callback of it is added to those that are
to begin. -/
theorem pending_of_run {u t : Deliveries Tid Ref} {since : List (DeliveryAction Tid Ref)} {k : ℕ}
    {ref : Ref} {e : EventId} (hrun : run step u since = some t)
    (hout : Along step (fun v => ∀ id, v.threads.bus.Registered id ref →
      ¬ v.threads.bus.Indexed id e) u since) (hk : t.Pending k ref e) : u.Pending k ref e := by
  refine run_history_induction (P := fun p v => p <+: since → v.Pending k ref e → u.Pending k ref e)
    (fun _ => id) ?_ hrun (List.prefix_refl _) hk
  intro p v a w hp ih hstep hpre hw
  have hpre' : p <+: since := (List.prefix_append p [a]).trans hpre
  rcases pending_step hstep hw with hv | ⟨id, hr, hid⟩
  · exact ih hpre' hv
  · exact absurd hid (hout p v hpre' hp id hr)

/-- An event that the index does not store for the receiver stays so until a subscription to it
ends. -/
theorem along_not_indexed {u : Deliveries Tid Ref} {since : List (DeliveryAction Tid Ref)} {ref : Ref}
    {id : ReceiverId} {e : EventId} (hu : u.Keeps ref id) (hid : ¬ u.threads.bus.Indexed id e)
    (hsince : Meets step (fun v a => ¬ Subscribes id e v a) u since) :
    Along step (fun v => v.Keeps ref id ∧ ¬ v.threads.bus.Indexed id e) u since := by
  refine hsince.along ⟨hu, hid⟩ ?_
  rintro v a w ⟨hv, hnot⟩ hsub hstep
  refine ⟨keeps_step hv hstep, fun hw => ?_⟩
  rcases threads_of_step hstep with heq | ⟨t, b, rfl, hb⟩
  · rw [heq] at hw
    exact hnot hw
  · rcases indexed_step hv.1 hb hw with hv | ⟨rfl, hg⟩
    · exact hnot hv
    · exact hsub hg

/-- A receiver that was withdrawn is not both registered and indexed in any state since. -/
theorem Withdrawn.along {s u : Deliveries Tid Ref} {since : List (DeliveryAction Tid Ref)} {ref : Ref}
    {e : EventId} {a : DeliveryAction Tid Ref} (h : Withdrawn s u since ref e a)
    (hwf : s.threads.bus.WellFormed) (ha : s.step a = some u) :
    Along step (fun v => ∀ id, v.threads.bus.Registered id ref → ¬ v.threads.bus.Indexed id e)
      u since := by
  have hkeeps : ∀ {id : ReceiverId}, (s.threads.bus.receivers ref).id = id → u.Keeps ref id :=
    fun hid => keeps_step ⟨hwf, hid⟩ ha
  cases h with
  | notRegistered t id hr hsince =>
    intro p v hp hv id' hr'
    -- the receiver can be registered under its own id only
    have hv' : v.Keeps ref id :=
      run_induction (hkeeps (hwf.own_id id ref hr)) (fun _ _ _ hs h => keeps_step hs h) hv
    rw [hv'.eq_of_registered hr'] at hr'
    exact absurd hr' (hsince p v hp hv)
  | notSubscribed t id hr hclaimed hsince =>
    have hu := not_indexed_removed hwf hr hclaimed (step_of_call ha).1 e
    intro p v hp hv id' hr'
    obtain ⟨hv', hnot⟩ :=
      along_not_indexed (hkeeps (hwf.own_id id ref hr)) hu hsince p v hp hv
    rwa [hv'.eq_of_registered hr']
  | unsubscribed t id hid hg hsince =>
    have hu := not_indexed_unsubscribed hwf hg (step_of_call ha).1
    intro p v hp hv id' hr'
    obtain ⟨hv', hnot⟩ := along_not_indexed (hkeeps hid) hu hsince p v hp hv
    rwa [hv'.eq_of_registered hr']

/-- The step of the withdrawal creates no thread. -/
theorem Withdrawn.pending {s u : Deliveries Tid Ref} {since : List (DeliveryAction Tid Ref)}
    {ref : Ref} {e : EventId} {a : DeliveryAction Tid Ref} (h : Withdrawn s u since ref e a)
    (ha : s.step a = some u) {k : ℕ} (hk : u.Pending k ref e) : s.Pending k ref e := by
  have hsame : u.invocations = s.invocations := by
    cases h with
    | notRegistered t id hr hsince => exact (step_of_call ha).2.trans (List.append_nil _)
    | notSubscribed t id hr hclaimed hsince => exact (step_of_call ha).2.trans (List.append_nil _)
    | unsubscribed t id hid hg hsince => exact (step_of_call ha).2.trans (List.append_nil _)
  rwa [Pending, hsame] at hk

/-- A callback that begins was to begin. -/
theorem pending_of_begin {s : Deliveries Tid Ref} {k : ℕ} {c : Invocation Ref}
    (hk : s.invocations[k]? = some c) (hbegin : (s.step (.beginCallback k)).isSome = true) :
    s.Pending k c.receiver c.eventId := by
  obtain ⟨⟨ref, phase⟩, e⟩ := c
  by_cases hphase : phase = .created
  · rw [Pending, hk, hphase]
  · simp [step, setPhase, hk, hphase] at hbegin

/-- **After a withdrawal only callbacks begin whose threads were created before it**: until the
receiver is registered and subscribed again, a callback of it that begins was already to begin when
`RemoveReceiver` or `Unsubscribe` took effect. -/
theorem begun_callbacks_created_before {receivers : Ref → EventReceiver}
    {before since : List (DeliveryAction Tid Ref)} {a : DeliveryAction Tid Ref}
    {s u t : Deliveries Tid Ref} {k : ℕ} {c : Invocation Ref}
    (hs : run step (init receivers) before = some s) (ha : s.step a = some u)
    (ht : run step u since = some t) (hw : Withdrawn s u since c.receiver c.eventId a)
    (hk : t.invocations[k]? = some c) (hbegin : (t.step (.beginCallback k)).isSome = true) :
    s.Pending k c.receiver c.eventId := by
  have hwf : s.threads.bus.WellFormed :=
    run_induction (P := fun v => v.threads.bus.WellFormed) (EventBus.wellFormed_init receivers)
      (fun _ _ _ hv h => wellFormed_step hv h) hs
  have hu : u.Pending k c.receiver c.eventId :=
    pending_of_run ht (hw.along hwf ha) (pending_of_begin hk hbegin)
  exact hw.pending ha hu

/-! ## A callback under way -/

/-- A receiver is subscribed, and a delivery creates the thread of its callback. -/
def delivering : List (DeliveryAction ℕ Unit) :=
  [.call 0 (.start (.addReceiver ())), .call 0 (.start (.subscribe 5 .newMessage)),
    .call 0 .finish, .call 0 (.sendSync .newMessage)]

theorem delivering_runs : (run step (init Threads.oneReceiver) delivering).isSome = true := by decide

/-- The state in which the thread has been created. -/
def delivered : Deliveries ℕ Unit :=
  (run step (init Threads.oneReceiver) delivering).get delivering_runs

theorem run_delivering : run step (init Threads.oneReceiver) delivering = some delivered :=
  (Option.some_get _).symm

/-- The removal of the receiver. -/
def removal : DeliveryAction ℕ Unit := .call 1 (.start (.removeReceiver 5))

theorem removal_runs : (delivered.step removal).isSome = true := by decide

/-- The state after the removal. -/
def removed : Deliveries ℕ Unit := (delivered.step removal).get removal_runs

theorem step_removal : delivered.step removal = some removed := (Option.some_get _).symm

theorem delivered_registered : delivered.threads.bus.Registered 5 () := by
  show delivered.threads.bus.eventReceivers 5 = some (some ())
  decide

theorem removed_not_registered : ¬ removed.threads.bus.Registered 5 () := by
  show removed.threads.bus.eventReceivers 5 ≠ some (some ())
  decide

variable (Tid) in
/-- No callback of a receiver begins after the receiver has been removed or its subscription has
ended, until it is registered and subscribed again. -/
def RemovalFinal (receivers : Ref → EventReceiver) : Prop :=
  ∀ (before since : List (DeliveryAction Tid Ref)) (a : DeliveryAction Tid Ref)
    (s u t : Deliveries Tid Ref) (k : ℕ) (c : Invocation Ref),
    run step (init receivers) before = some s → s.step a = some u → run step u since = some t →
      Withdrawn s u since c.receiver c.eventId a → t.invocations[k]? = some c →
      t.step (.beginCallback k) = none

/-- A callback begins after `RemoveReceiver` has removed its receiver. -/
theorem callback_begins_after_removal : ¬ RemovalFinal ℕ Threads.oneReceiver := by
  intro hfinal
  have hbegin := hfinal delivering [] removal delivered removed removed 0
    ⟨⟨(), .created⟩, .newMessage⟩ run_delivering step_removal rfl
    (.notRegistered 1 5 delivered_registered (along_nil.mpr removed_not_registered)) (by decide)
  exact absurd (congrArg Option.isSome hbegin) (by decide)

/-- The receiver is registered again, and an event that would be for it is delivered. -/
def readding : List (DeliveryAction ℕ Unit) :=
  [.call 1 (.start (.addReceiver ())), .call 1 (.sendSync .newMessage)]

theorem readding_runs : (run step removed readding).isSome = true := by decide

/-- In the removal the receiver claims what the index stores for it. -/
theorem delivered_claims (f : EventId) :
    delivered.threads.bus.Indexed 5 f → f ∈ (delivered.threads.bus.receivers ()).events := by
  show delivered.threads.bus.eventToReceiversMap.Listed 5 f → _
  cases f <;> decide

theorem readding_not_subscribes :
    Meets step (fun v a => ¬ Subscribes 5 .newMessage v a) removed readding := by
  intro p a v hp _
  have ha : a ∈ readding := hp.subset (by simp)
  rcases List.mem_pair.mp ha with rfl | rfl <;> exact id

/-- The callback that begins then is the one of the thread that the first delivery created. -/
theorem begun_callbacks_created_before_readding : delivered.Pending 0 () .newMessage :=
  begun_callbacks_created_before (c := ⟨⟨(), .created⟩, .newMessage⟩) run_delivering step_removal
    (Option.some_get readding_runs).symm
    (.notSubscribed 1 5 delivered_registered delivered_claims readding_not_subscribes)
    (by decide) (by decide)

end Deliveries

end SimpleChat
