import SimpleChat.EventBus.Bus
import SimpleChat.Transition.Run

/-!
# The event bus under concurrency

Any number of threads call the bus. A section that holds a lock is one step; `Subscribe` and
`Unsubscribe` have a gap between the section on the receivers and the one on the index, in which
the other threads run. An id in the index without a receiver makes the next delivery dereference a
null pointer.

## Main definitions

* `Gap`, `Threads`, `Threads.step`: the threads, and the sections they run
* `NoDangling`: every id of the index is registered, and every delivery finds its receivers
* `Clean`: the condition on a step, that it leaves no id in the index without a receiver

## Main results

* `noDangling_along_iff`: nothing dangles along a run exactly if every removal finds the index
  entries of its receiver claimed by it, and every subscription ends on a registered receiver
-/

namespace SimpleChat

open Containers Transition

/-- The section on the index that a thread has still to run. -/
inductive Gap where
  | subscribe (receiverId : ReceiverId) (eventId : EventId)
  | unsubscribe (receiverId : ReceiverId) (eventId : EventId)
  deriving Repr

/-- What a thread does in one step: it starts a call, delivers an event, or runs the section that
ends its call. -/
inductive BusSection (Ref : Type) where
  | start (c : BusCall Ref)
  | sendSync (eventId : EventId)
  | finish
  deriving Repr

/-- The bus, and the gaps its callers are in. -/
structure Threads (Tid Ref : Type) where
  bus : EventBus Ref
  gap : Tid → Option Gap

namespace Threads

variable {Tid Ref : Type}

/-- The empty bus and no caller. -/
def init (receivers : Ref → EventReceiver) : Threads Tid Ref := ⟨.init receivers, fun _ => none⟩

section Step

variable [DecidableEq Tid] [DecidableEq Ref]

/-- After the section on the receivers, a thread that found its receiver is in the gap. -/
def enter (s : Threads Tid Ref) (t : Tid) (g : Gap) (r : ReturnType × EventBus Ref) :
    Threads Tid Ref :=
  ⟨r.2, if r.1 = .ok then Function.update s.gap t (some g) else s.gap⟩

/-- The first section of a call. -/
def start (s : Threads Tid Ref) (t : Tid) : BusCall Ref → Option (Threads Tid Ref)
  | .addReceiver ref => some { s with bus := (s.bus.addReceiver ref).2 }
  | .removeReceiver id => (s.bus.removeReceiver id).map fun r => { s with bus := r.2 }
  | .subscribe id e =>
    if e.IsValid then (s.bus.subscribeReceivers id e).map (s.enter t (.subscribe id e)) else some s
  | .unsubscribe id e =>
    if e.IsValid then (s.bus.unsubscribeReceivers id e).map (s.enter t (.unsubscribe id e))
    else some s

/-- One section of one thread. A section that would dereference a null pointer is not a step. -/
def step (s : Threads Tid Ref) : Tid × BusSection Ref → Option (Threads Tid Ref)
  | (t, a) =>
    match s.gap t, a with
    | none, .start c => s.start t c
    | none, .sendSync e => (s.bus.sendSync e).map fun _ => s
    | some (.subscribe id e), .finish =>
      some ⟨s.bus.subscribeIndex id e, Function.update s.gap t none⟩
    | some (.unsubscribe id e), .finish =>
      some ⟨s.bus.unsubscribeIndex id e, Function.update s.gap t none⟩
    | _, _ => none

end Step

/-- Every id in the index is registered, so no delivery dereferences a null pointer. -/
structure NoDangling (s : Threads Tid Ref) : Prop where
  registered : ∀ id e, s.bus.Indexed id e → ∃ ref, s.bus.Registered id ref
  delivers : ∀ e, (s.bus.sendSync e).isSome = true

/-- A receiver is removed only while it claims all events that the index stores it for, and a
subscription ends only while its receiver is registered. -/
def Clean (s : Threads Tid Ref) : Tid × BusSection Ref → Prop
  | (_, .start (.removeReceiver id)) => ∀ ref, s.bus.Registered id ref →
      ∀ e, s.bus.Indexed id e → e ∈ (s.bus.receivers ref).events
  | (t, .finish) => ∀ id e, s.gap t = some (.subscribe id e) → ∃ ref, s.bus.Registered id ref
  | _ => True

/-- In a well-formed bus, a delivery goes wrong only over an id that is not registered. -/
theorem noDangling_iff {s : Threads Tid Ref} (hwf : s.bus.WellFormed) :
    s.NoDangling ↔ ∀ id e, s.bus.Indexed id e → ∃ ref, s.bus.Registered id ref := by
  constructor
  · exact NoDangling.registered
  · intro hreg
    refine ⟨hreg, fun e => ?_⟩
    by_cases hv : e.IsValid
    · obtain ⟨ret, threads, hsend, -⟩ := EventBus.sendSync_spec hwf hv fun id => hreg id e
      simp [hsend]
    · simp [EventBus.sendSync, EventId.isValid_iff.not_left.mp hv]

variable [DecidableEq Tid] [DecidableEq Ref]

/-- What a section does to the bus. -/
inductive StepCases (s : Threads Tid Ref) (t : Tid) : BusSection Ref → Threads Tid Ref → Prop
  | refused (c : BusCall Ref)
      (hc : ∀ id, c = .removeReceiver id → s.bus.eventReceivers id = none) :
      StepCases s t (.start c) s
  | added (ref : Ref) (hfree : s.bus.eventReceivers (s.bus.receivers ref).id = none) :
      StepCases s t (.start (.addReceiver ref)) { s with bus := { s.bus with
        eventReceivers :=
          Function.update s.bus.eventReceivers (s.bus.receivers ref).id (some (some ref)) } }
  | removed (id : ReceiverId) (ref : Ref) (hr : s.bus.Registered id ref) :
      StepCases s t (.start (.removeReceiver id)) { s with bus := { s.bus with
        eventToReceiversMap := (s.bus.receivers ref).getEvents.toList.foldl
          (fun m e => m.erase id e) s.bus.eventToReceiversMap
        eventReceivers := Function.update s.bus.eventReceivers id none } }
  | entered (c : BusCall Ref) (hc : ∀ id, c ≠ .removeReceiver id) (g : Gap) (ref : Ref)
      (r : EventReceiver) (hr : r.id = (s.bus.receivers ref).id) :
      StepCases s t (.start c) ⟨{ s.bus with receivers := Function.update s.bus.receivers ref r },
        Function.update s.gap t (some g)⟩
  | delivered (e : EventId) : StepCases s t (.sendSync e) s
  | subscribed (id : ReceiverId) (e : EventId) (hg : s.gap t = some (.subscribe id e)) :
      StepCases s t .finish ⟨s.bus.subscribeIndex id e, Function.update s.gap t none⟩
  | unsubscribed (id : ReceiverId) (e : EventId) (hg : s.gap t = some (.unsubscribe id e)) :
      StepCases s t .finish ⟨s.bus.unsubscribeIndex id e, Function.update s.gap t none⟩

/-- The first section of a call that changes a pair either refuses it, or changes the events of a
receiver and enters the gap. -/
theorem enter_cases {s s' : Threads Tid Ref} (hwf : s.bus.WellFormed) {t : Tid} {c : BusCall Ref}
    (hc : ∀ k, c ≠ .removeReceiver k) {id : ReceiverId} {g : Gap}
    {f : EventReceiver → ReturnType × EventReceiver} (hf : ∀ r, (f r).2.id = r.id)
    (h : (s.bus.updateReceiver id f).map (s.enter t g) = some s') :
    StepCases s t (.start c) s' := by
  rcases hwf.free_or_registered id with hid | ⟨ref, hr⟩
  · rw [EventBus.updateReceiver_of_free hid] at h
    cases h
    exact .refused c fun k hk => absurd hk (hc k)
  · rw [EventBus.updateReceiver_of_registered hr] at h
    cases h
    exact .entered c hc g ref _ (hf _)

theorem start_cases {s s' : Threads Tid Ref} (hwf : s.bus.WellFormed) {t : Tid} {c : BusCall Ref}
    (h : s.start t c = some s') : StepCases s t (.start c) s' := by
  cases c with
  | addReceiver ref =>
    cases hid : s.bus.eventReceivers (s.bus.receivers ref).id with
    | none =>
      rw [start, EventBus.addReceiver_of_free hid] at h
      cases h
      exact .added ref hid
    | some p =>
      rw [start, EventBus.addReceiver_of_registered hid] at h
      cases h
      exact .refused _ nofun
  | removeReceiver id =>
    rcases hwf.free_or_registered id with hid | ⟨ref, hr⟩
    · rw [start, EventBus.removeReceiver_of_free hid] at h
      cases h
      refine .refused _ fun k hk => ?_
      cases hk
      exact hid
    · rw [start, EventBus.removeReceiver_of_registered hr] at h
      cases h
      exact .removed id ref hr
  | subscribe id e =>
    by_cases hv : e.IsValid
    · rw [start, if_pos hv] at h
      exact enter_cases hwf (by simp) (EventBus.addEvent_id · e) h
    · rw [start, if_neg hv] at h
      cases h
      exact .refused _ nofun
  | unsubscribe id e =>
    by_cases hv : e.IsValid
    · rw [start, if_pos hv] at h
      exact enter_cases hwf (by simp) (EventBus.removeEvent_id · e) h
    · rw [start, if_neg hv] at h
      cases h
      exact .refused _ nofun

theorem step_cases {s s' : Threads Tid Ref} (hwf : s.bus.WellFormed) {t : Tid} {a : BusSection Ref}
    (h : s.step (t, a) = some s') : StepCases s t a s' := by
  simp only [step] at h
  split at h
  · exact start_cases hwf h
  · obtain ⟨-, -, rfl⟩ := Option.map_eq_some_iff.mp h
    exact .delivered _
  · cases h
    exact .subscribed _ _ ‹_›
  · cases h
    exact .unsubscribed _ _ ‹_›
  · cases h

/-- No section breaks the table of receivers. -/
theorem wellFormed_step {s s' : Threads Tid Ref} (hwf : s.bus.WellFormed) {a : Tid × BusSection Ref}
    (h : s.step a = some s') : s'.bus.WellFormed := by
  obtain ⟨t, a⟩ := a
  cases step_cases hwf h with
  | refused c hc => exact hwf
  | added ref hfree => exact hwf.register ref
  | removed id ref hr => exact hwf.unregister id _
  | entered c hc g ref r hr => exact hwf.replace hr s.bus.eventToReceiversMap
  | delivered e => exact hwf
  | subscribed id e hg => exact ⟨hwf.noNull, hwf.own_id⟩
  | unsubscribed id e hg => exact ⟨hwf.noNull, hwf.own_id⟩

theorem wellFormed_of_reachable {receivers : Ref → EventReceiver} {s : Threads Tid Ref}
    (h : Reachable step (init receivers) s) : s.bus.WellFormed :=
  h.invariant (P := fun s => s.bus.WellFormed) (EventBus.wellFormed_init receivers)
    fun _ _ _ hwf hn => wellFormed_step hwf hn

omit [DecidableEq Tid] [DecidableEq Ref] in
/-- If all ids of the index are registered, they are so after a removal exactly if the receiver
claimed all events that the index stored it for. -/
theorem registered_removed_iff {b : EventBus Ref}
    (hb : ∀ k e, b.Indexed k e → ∃ r, b.Registered k r) {id : ReceiverId} {ref : Ref} :
    (∀ k e, ((b.receivers ref).getEvents.toList.foldl (fun m e => m.erase id e)
        b.eventToReceiversMap).Listed k e →
      ∃ r, Function.update b.eventReceivers id none k = some (some r)) ↔
    ∀ e, b.Indexed id e → e ∈ (b.receivers ref).events := by
  constructor
  · -- an entry that the receiver did not claim would have stayed
    intro hreg e hid
    by_contra hnot
    obtain ⟨x, hx⟩ := hreg id e
      ((EventBus.indexed_removeReceiver id ref id e).mpr ⟨fun hk => hnot hk.2, hid⟩)
    simp at hx
  · intro hclaimed k e hk
    obtain ⟨hne, hke⟩ := (EventBus.indexed_removeReceiver id ref k e).mp hk
    obtain ⟨r, hr⟩ := hb k e hke
    have hkid : k ≠ id := by
      rintro rfl
      exact hne ⟨rfl, hclaimed e hke⟩
    exact ⟨r, by rwa [Function.update_of_ne hkid]⟩

omit [DecidableEq Tid] [DecidableEq Ref] in
/-- If all ids of the index are registered, they are so after an insertion exactly if the inserted
one is. -/
theorem registered_subscribed_iff {b : EventBus Ref}
    (hb : ∀ k e, b.Indexed k e → ∃ r, b.Registered k r) (id : ReceiverId) (e : EventId) :
    (∀ k f, (b.eventToReceiversMap.insert id e).Listed k f → ∃ r, b.Registered k r) ↔
      ∃ r, b.Registered id r := by
  constructor
  · intro hreg
    exact hreg id e ((Index.listed_insert _ _ _ _ _).mpr (.inl ⟨rfl, rfl⟩))
  · intro hr k f hk
    rcases (Index.listed_insert _ _ _ _ _).mp hk with ⟨rfl, -⟩ | hk
    · exact hr
    · exact hb k f hk

/-- From a state in which nothing dangles, a section leaves nothing dangling exactly if it is
clean. -/
theorem noDangling_step {s s' : Threads Tid Ref} (hwf : s.bus.WellFormed) (hs : s.NoDangling)
    {a : Tid × BusSection Ref} (h : s.step a = some s') : s'.NoDangling ↔ s.Clean a := by
  rw [noDangling_iff (wellFormed_step hwf h)]
  obtain ⟨t, a⟩ := a
  cases step_cases hwf h with
  | refused c hc =>
    -- a removal that was refused found nobody to remove
    refine iff_of_true hs.registered ?_
    cases c with
    | removeReceiver id =>
      intro ref hr
      exact absurd ⟨ref, hr⟩ (EventBus.not_registered_of_free (hc id rfl))
    | addReceiver ref => trivial
    | subscribe id e => trivial
    | unsubscribe id e => trivial
  | added ref hfree =>
    refine iff_of_true (fun id e hid => ?_) trivial
    obtain ⟨r, hr⟩ := hs.registered id e hid
    have hne : id ≠ (s.bus.receivers ref).id := by
      rintro rfl
      exact EventBus.not_registered_of_free hfree ⟨r, hr⟩
    exact ⟨r, by simpa [EventBus.Registered, hne] using hr⟩
  | removed id ref hr =>
    refine (registered_removed_iff hs.registered).trans ⟨fun hclaimed r hr' => ?_, ?_⟩
    · obtain rfl := hr.unique hr'
      exact hclaimed
    · exact fun hclean => hclean ref hr
  | entered c hc g ref r hr =>
    refine iff_of_true hs.registered ?_
    cases c with
    | removeReceiver id => exact absurd rfl (hc id)
    | addReceiver ref => trivial
    | subscribe id e => trivial
    | unsubscribe id e => trivial
  | delivered e => exact iff_of_true hs.registered trivial
  | subscribed id e hg =>
    refine (registered_subscribed_iff hs.registered id e).trans ⟨fun hreg k f hk => ?_, ?_⟩
    · rw [hg] at hk
      cases hk
      exact hreg
    · exact fun hclean => hclean id e hg
  | unsubscribed id e hg =>
    refine iff_of_true (fun k f hk => ?_) (fun k f hk => ?_)
    · exact hs.registered k f ((Index.listed_erase _ _ _ _ _).mp hk).2
    · rw [hg] at hk
      cases hk

omit [DecidableEq Tid] [DecidableEq Ref] in
theorem noDangling_init (receivers : Ref → EventReceiver) :
    (init receivers : Threads Tid Ref).NoDangling := by
  rw [noDangling_iff (EventBus.wellFormed_init receivers)]
  intro id e hid
  exact absurd hid (EventBus.not_indexed_init receivers id e)

/-- **Nothing dangles along a run exactly if all its sections are clean.** -/
theorem noDangling_along_iff {receivers : Ref → EventReceiver} {as : List (Tid × BusSection Ref)}
    {s : Threads Tid Ref} (hrun : run step (init receivers) as = some s) :
    Along step NoDangling (init receivers) as ↔ Meets step Clean (init receivers) as :=
  along_iff_meets (noDangling_init receivers)
    (fun _ _ _ ht hs h => noDangling_step (wellFormed_of_reachable ht) hs h) hrun

/-- One receiver, with the id 5. -/
def oneReceiver : Unit → EventReceiver := fun _ => ⟨5, ∅⟩

/-- A receiver is removed in the gap of its subscription. -/
def removedInGap : List (ℕ × BusSection Unit) :=
  [(0, .start (.addReceiver ())), (0, .start (.subscribe 5 .newMessage)),
    (1, .start (.removeReceiver 5)), (0, .finish)]

theorem removedInGap_runs : (run step (init oneReceiver) removedInGap).isSome = true := by decide

/-- The state after the removal in the gap. -/
def dangling : Threads ℕ Unit := (run step (init oneReceiver) removedInGap).get removedInGap_runs

theorem run_removedInGap : run step (init oneReceiver) removedInGap = some dangling :=
  (Option.some_get _).symm

/-- A removal in the gap of a subscription leaves an id in the index without a receiver, and the
next delivery dereferences a null pointer. -/
theorem removal_in_gap_dangles :
    Reachable step (init oneReceiver) dangling ∧ ¬ dangling.NoDangling ∧
      dangling.bus.sendSync .newMessage = none := by
  have hsend : dangling.bus.sendSync .newMessage = none := by decide
  refine ⟨⟨removedInGap, run_removedInGap⟩, fun hs => ?_, hsend⟩
  have hsome := hs.delivers .newMessage
  rw [hsend] at hsome
  cases hsome

theorem noDangling_along_removedInGap :
    Along step NoDangling (init oneReceiver) removedInGap ↔
      Meets step Clean (init oneReceiver) removedInGap :=
  noDangling_along_iff run_removedInGap

end Threads

end SimpleChat
