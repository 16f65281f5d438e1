import SimpleChat.EventBus.Bus
import SimpleChat.Transition.Run
import Mathlib.Data.Finset.Filter
import Mathlib.Data.Finset.Prod

/-!
# The event bus as a subscription relation

What the bus is for: a set of registered receivers and a relation of receivers to events. The bus
stores the relation twice, in the receivers and in the index; the copy in a receiver outlives its
registration, the copy in the index does not. Used by one caller at a time, the bus answers every
call as the relation does, and delivers every event to the receivers related to it.

## Main definitions

* `Subscriptions`, `Subscriptions.step`: the abstract state and its calls
* `EventBus.Refines b s`: the simulation
* `CallCases`: what a call does to the bus

## Main results

* `refines_change`: what an operation on a pair must do to both copies
* `refines_call`, `refines_run`: every call keeps the simulation, and so does every run
* `call_cases`: every call is one of `CallCases`
* `bus_refines_subscriptions`: the bus, after any calls, refines the relation after them
-/

namespace SimpleChat

open Containers Std Transition

/-- The registered receivers, and the pairs of receivers and events. -/
structure Subscriptions where
  registered : Finset ReceiverId
  pairs : Finset (ReceiverId × EventId)
  deriving DecidableEq

namespace Subscriptions

/-- No receivers. -/
def empty : Subscriptions := ⟨∅, ∅⟩

/-- The pairs of a registered receiver with a valid event are changed. -/
def change (s : Subscriptions) (id : ReceiverId) (e : EventId)
    (pairs : Finset (ReceiverId × EventId)) : ReturnType × Subscriptions :=
  if ¬ e.IsValid then (.eventIdInvalid, s)
  else if id ∈ s.registered then (.ok, { s with pairs := pairs })
  else (.receiverNotExists, s)

/-- What a call is answered, and what it changes. -/
def step (s : Subscriptions) : BusCall ReceiverId → ReturnType × Subscriptions
  | .addReceiver id =>
    if id ∈ s.registered then (.receiverExists, s)
    else (.ok, { s with registered := insert id s.registered })
  | .removeReceiver id =>
    if id ∈ s.registered then
      (.ok, ⟨s.registered.erase id, s.pairs.filter fun p => p.1 ≠ id⟩)
    else (.receiverNotExists, s)
  | .subscribe id e => s.change id e (insert (id, e) s.pairs)
  | .unsubscribe id e => s.change id e (s.pairs.erase (id, e))

/-- The relation after a sequence of calls. -/
def after (calls : List (BusCall ReceiverId)) : Subscriptions :=
  calls.foldl (fun s c => (s.step c).2) empty

end Subscriptions

namespace EventBus

variable {Ref : Type}

/-- The bus simulates the relation: the same receivers are registered, each under its own id, the
index stores the pairs, all of registered receivers, and a registered receiver claims the events
it is paired with. It may claim others, from before it was removed. -/
structure Refines (b : EventBus Ref) (s : Subscriptions) : Prop extends b.WellFormed where
  free : ∀ id, b.eventReceivers id = none ↔ id ∉ s.registered
  indexed : ∀ id e, b.Indexed id e ↔ (id, e) ∈ s.pairs
  pairs_registered : ∀ id e, (id, e) ∈ s.pairs → id ∈ s.registered
  claimed : ∀ id ref e, b.Registered id ref → (id, e) ∈ s.pairs → e ∈ (b.receivers ref).events

namespace Refines

variable {b : EventBus Ref} {s : Subscriptions}

theorem exists_registered (h : b.Refines s) {id : ReceiverId} (hid : id ∈ s.registered) :
    ∃ ref, b.Registered id ref :=
  (h.free_or_registered id).resolve_left fun hp => (h.free id).mp hp hid

/-- The index stores registered receivers only. -/
theorem exists_of_indexed (h : b.Refines s) {id : ReceiverId} {e : EventId} (hid : b.Indexed id e) :
    ∃ ref, b.Registered id ref :=
  h.exists_registered (h.pairs_registered id e ((h.indexed id e).mp hid))

theorem mem_registered (h : b.Refines s) {id : ReceiverId} {ref : Ref}
    (hr : b.Registered id ref) : id ∈ s.registered := by
  by_contra hid
  exact not_registered_of_free ((h.free id).mpr hid) ⟨ref, hr⟩

end Refines

theorem refines_init {receivers : Ref → EventReceiver} :
    (init receivers).Refines .empty where
  toWellFormed := wellFormed_init receivers
  free id := by simp [init, Subscriptions.empty]
  indexed id e := iff_of_false (not_indexed_init receivers id e) (by simp [Subscriptions.empty])
  pairs_registered id e h := by simp [Subscriptions.empty] at h
  claimed id ref e hr := by cases hr

theorem refines_addReceiver {b : EventBus Ref} {s : Subscriptions} (h : b.Refines s) {ref : Ref}
    (hfree : (b.receivers ref).id ∉ s.registered) :
    Refines { b with
      eventReceivers := Function.update b.eventReceivers (b.receivers ref).id (some (some ref)) }
      { s with registered := insert (b.receivers ref).id s.registered } where
  toWellFormed := h.register ref
  free id := by
    by_cases hid : id = (b.receivers ref).id
    · simp [hid]
    · simp [hid, h.free id]
  indexed := h.indexed
  pairs_registered id e hp := Finset.mem_insert_of_mem (h.pairs_registered id e hp)
  claimed id r e hr hp := by
    have hid : id ≠ (b.receivers ref).id := by
      rintro rfl
      exact hfree (h.pairs_registered _ e hp)
    exact h.claimed id r e (by simpa [Registered, hid] using hr) hp

theorem refines_removeReceiver {b : EventBus Ref} {s : Subscriptions} (h : b.Refines s)
    {id : ReceiverId} {ref : Ref} (hr : b.Registered id ref) :
    Refines { b with
      eventToReceiversMap := (b.receivers ref).getEvents.toList.foldl
        (fun m e => m.erase id e) b.eventToReceiversMap
      eventReceivers := Function.update b.eventReceivers id none }
      ⟨s.registered.erase id, s.pairs.filter fun p => p.1 ≠ id⟩ where
  toWellFormed := h.unregister id _
  free k := by
    by_cases hk : k = id
    · simp [hk]
    · simp [hk, h.free k]
  indexed k e := by
    rw [Indexed, indexed_removeReceiver, Finset.mem_filter, h.indexed]
    -- the receiver claims every event it is paired with, so no pair of it survives
    constructor
    · rintro ⟨hne, hp⟩
      refine ⟨hp, ?_⟩
      rintro rfl
      exact hne ⟨rfl, h.claimed k ref e hr hp⟩
    · rintro ⟨hp, hne⟩
      exact ⟨fun hk => hne hk.1, hp⟩
  pairs_registered k e hp := by
    obtain ⟨hp, hne⟩ := Finset.mem_filter.mp hp
    exact Finset.mem_erase.mpr ⟨hne, h.pairs_registered k e hp⟩
  claimed k r e hk hp := by
    obtain ⟨hp, hne⟩ := Finset.mem_filter.mp hp
    exact h.claimed k r e (by simpa [Registered, hne] using hk) hp

variable [DecidableEq Ref]

/-- Changing the events of a registered receiver leaves its pairs with other events alone. -/
theorem refines_update {b : EventBus Ref} {s : Subscriptions} (h : b.Refines s) {id : ReceiverId}
    {ref : Ref} (hr : b.Registered id ref) {r : EventReceiver} (hrid : r.id = id)
    {m : Index EventId ReceiverId} {pairs : Finset (ReceiverId × EventId)}
    (hm : ∀ k e, m.Listed k e ↔ (k, e) ∈ pairs)
    (hpairs : ∀ k e, (k, e) ∈ pairs → k = id ∨ (k, e) ∈ s.pairs)
    (hevents : ∀ e, (id, e) ∈ pairs → e ∈ r.events) :
    Refines { b with receivers := Function.update b.receivers ref r, eventToReceiversMap := m }
      { s with pairs := pairs } where
  toWellFormed := h.replace (hrid.trans (h.own_id id ref hr).symm) m
  free := h.free
  indexed := hm
  pairs_registered k e hp := by
    rcases hpairs k e hp with rfl | hp
    · exact h.mem_registered hr
    · exact h.pairs_registered k e hp
  claimed k x e hx hp := by
    -- two ids never share a receiver, for each is registered under its own id
    by_cases hxr : x = ref
    · subst hxr
      obtain rfl : k = id := (h.own_id k x hx).symm.trans (h.own_id id x hr)
      simpa using hevents e hp
    · have hk : k ≠ id := by
        rintro rfl
        exact hxr (hx.unique hr)
      have hp' := (hpairs k e hp).resolve_left hk
      simpa [hxr] using h.claimed k x e hx hp'

/-- A change is answered as the relation says, and keeps the simulation: `f` keeps the id of the
receiver and leaves it claiming the new pairs, which are what `g` leaves in the index. -/
theorem refines_change {b : EventBus Ref} {s : Subscriptions} (h : b.Refines s) {id : ReceiverId}
    {e : EventId} {f : EventReceiver → ReturnType × EventReceiver}
    {g : Index EventId ReceiverId → Index EventId ReceiverId}
    {pairs : Finset (ReceiverId × EventId)} (hid : ∀ r, (f r).2.id = r.id)
    (hg : ∀ k l, (g b.eventToReceiversMap).Listed k l ↔ (k, l) ∈ pairs)
    (hpairs : ∀ k l, (k, l) ∈ pairs → k = id ∨ (k, l) ∈ s.pairs)
    (hevents : e.IsValid → ∀ r, (∀ l, (id, l) ∈ s.pairs → l ∈ r.events) →
      ∀ l, (id, l) ∈ pairs → l ∈ (f r).2.events) :
    ∃ ret b', b.change id e f g = some (ret, b') ∧ ret = (s.change id e pairs).1 ∧
      (ret ≠ .ok → b' = b) ∧ b'.Refines (s.change id e pairs).2 := by
  by_cases hv : e.IsValid
  · by_cases hreg : id ∈ s.registered
    · obtain ⟨ref, hr⟩ := h.exists_registered hreg
      refine ⟨_, _, change_of_registered hv hr f g, ?_, by simp, ?_⟩
      · simp [Subscriptions.change, hreg, hv]
      · simp only [Subscriptions.change, hreg, hv, not_true_eq_false, if_true, if_false]
        refine refines_update h hr ((hid _).trans (h.own_id id ref hr)) hg hpairs ?_
        exact hevents hv _ fun l => h.claimed id ref l hr
    · refine ⟨_, _, change_of_free hv ((h.free id).mpr hreg) f g, ?_, fun _ => rfl, ?_⟩
      · simp [Subscriptions.change, hreg, hv]
      · simpa [Subscriptions.change, hreg, hv] using h
  · refine ⟨_, _, change_of_invalid hv f g, ?_, fun _ => rfl, ?_⟩
    · simp [Subscriptions.change, hv]
    · simpa [Subscriptions.change, hv] using h

/-- **Every call is answered as the relation says, changes nothing when it is refused, and keeps
the simulation.** -/
theorem refines_call {b : EventBus Ref} {s : Subscriptions} (h : b.Refines s) (c : BusCall Ref) :
    ∃ ret b', b.call c = some (ret, b') ∧
      ret = (s.step (c.map fun ref => (b.receivers ref).id)).1 ∧ (ret ≠ .ok → b' = b) ∧
      b'.Refines (s.step (c.map fun ref => (b.receivers ref).id)).2 := by
  cases c with
  | addReceiver ref =>
    by_cases hid : (b.receivers ref).id ∈ s.registered
    · obtain ⟨r, hr⟩ := h.exists_registered hid
      refine ⟨_, _, congrArg some (addReceiver_of_registered hr), ?_, fun _ => rfl, ?_⟩
      · simp [Subscriptions.step, BusCall.map, hid]
      · simpa [Subscriptions.step, BusCall.map, hid] using h
    · refine ⟨_, _, congrArg some (addReceiver_of_free ((h.free _).mpr hid)), ?_, by simp, ?_⟩
      · simp [Subscriptions.step, BusCall.map, hid]
      · simpa [Subscriptions.step, BusCall.map, hid] using refines_addReceiver h hid
  | removeReceiver id =>
    by_cases hid : id ∈ s.registered
    · obtain ⟨r, hr⟩ := h.exists_registered hid
      refine ⟨_, _, removeReceiver_of_registered hr, ?_, by simp, ?_⟩
      · simp [Subscriptions.step, BusCall.map, hid]
      · simpa [Subscriptions.step, BusCall.map, hid] using refines_removeReceiver h hr
    · refine ⟨_, _, removeReceiver_of_free ((h.free id).mpr hid), ?_, fun _ => rfl, ?_⟩
      · simp [Subscriptions.step, BusCall.map, hid]
      · simpa [Subscriptions.step, BusCall.map, hid] using h
  | subscribe id e =>
    apply refines_change h (addEvent_id · e)
    · intro k l
      rw [Index.listed_insert, ← Indexed, h.indexed]
      simp
    · intro k l hp
      simp only [Finset.mem_insert, Prod.mk.injEq] at hp
      exact hp.imp_left And.left
    · intro hv r hclaimed l hp
      rw [addEvent_events hv]
      simp only [Finset.mem_insert, Prod.mk.injEq, true_and] at hp
      exact hp.imp_right (hclaimed l)
  | unsubscribe id e =>
    apply refines_change h (removeEvent_id · e)
    · intro k l
      rw [Index.listed_erase, ← Indexed, h.indexed]
      simp
    · intro k l hp
      exact .inr (Finset.mem_of_mem_erase hp)
    · intro hv r hclaimed l hp
      obtain ⟨hne, hp⟩ := Finset.mem_erase.mp hp
      refine (removeEvent_events hv l).mpr ⟨?_, hclaimed l hp⟩
      rintro rfl
      exact hne rfl

/-- The bus after a call, whatever it returned. -/
def next (b : EventBus Ref) (c : BusCall Ref) : Option (EventBus Ref) :=
  (b.call c).map Prod.snd

/-! ## What a call does -/

/-- The bus answers the call with `RET_OK`. -/
def Accepts (b : EventBus Ref) : BusCall Ref → Prop
  | .addReceiver ref => b.eventReceivers (b.receivers ref).id = none
  | .removeReceiver id => ∃ ref, b.Registered id ref
  | .subscribe id e => e.IsValid ∧ ∃ ref, b.Registered id ref
  | .unsubscribe id e => e.IsValid ∧ ∃ ref, b.Registered id ref

/-- What a call does to a bus without null pointers. -/
inductive CallCases (b : EventBus Ref) : BusCall Ref → EventBus Ref → Prop
  | refused (c : BusCall Ref) (hc : ¬ b.Accepts c) : CallCases b c b
  | added (ref : Ref) (hfree : b.eventReceivers (b.receivers ref).id = none) :
      CallCases b (.addReceiver ref) { b with
        eventReceivers :=
          Function.update b.eventReceivers (b.receivers ref).id (some (some ref)) }
  | removed (id : ReceiverId) (ref : Ref) (hr : b.Registered id ref) :
      CallCases b (.removeReceiver id) { b with
        eventToReceiversMap := (b.receivers ref).getEvents.toList.foldl
          (fun m e => m.erase id e) b.eventToReceiversMap
        eventReceivers := Function.update b.eventReceivers id none }
  | subscribed (id : ReceiverId) (e : EventId) (ref : Ref) (hv : e.IsValid)
      (hr : b.Registered id ref) :
      CallCases b (.subscribe id e) { b with
        receivers := Function.update b.receivers ref ((b.receivers ref).addEvent e).2
        eventToReceiversMap := b.eventToReceiversMap.insert id e }
  | unsubscribed (id : ReceiverId) (e : EventId) (ref : Ref) (hv : e.IsValid)
      (hr : b.Registered id ref) :
      CallCases b (.unsubscribe id e) { b with
        receivers := Function.update b.receivers ref ((b.receivers ref).removeEvent e).2
        eventToReceiversMap := b.eventToReceiversMap.erase id e }

theorem change_cases {b b' : EventBus Ref} (hwf : b.WellFormed) {id : ReceiverId} {e : EventId}
    {f : EventReceiver → ReturnType × EventReceiver}
    {g : Index EventId ReceiverId → Index EventId ReceiverId} {ret : ReturnType}
    (h : b.change id e f g = some (ret, b')) :
    (¬ (e.IsValid ∧ ∃ ref, b.Registered id ref) ∧ b' = b) ∨
      ∃ ref, e.IsValid ∧ b.Registered id ref ∧ b' = { b with
        receivers := Function.update b.receivers ref (f (b.receivers ref)).2
        eventToReceiversMap := g b.eventToReceiversMap } := by
  by_cases hv : e.IsValid
  · rcases hwf.free_or_registered id with hid | ⟨ref, hr⟩
    · rw [change_of_free hv hid] at h
      cases h
      exact .inl ⟨fun hc => not_registered_of_free hid hc.2, rfl⟩
    · rw [change_of_registered hv hr] at h
      cases h
      exact .inr ⟨ref, hv, hr, rfl⟩
  · rw [change_of_invalid hv] at h
    cases h
    exact .inl ⟨fun hc => hv hc.1, rfl⟩

theorem call_cases {b b' : EventBus Ref} (hwf : b.WellFormed) {c : BusCall Ref}
    (h : b.next c = some b') : CallCases b c b' := by
  obtain ⟨⟨ret, _⟩, hcall, rfl⟩ := Option.map_eq_some_iff.mp h
  cases c with
  | addReceiver ref =>
    cases hid : b.eventReceivers (b.receivers ref).id with
    | none =>
      rw [call, addReceiver_of_free hid] at hcall
      cases hcall
      exact .added ref hid
    | some p =>
      rw [call, addReceiver_of_registered hid] at hcall
      cases hcall
      refine .refused _ fun hfree : b.eventReceivers (b.receivers ref).id = none => ?_
      rw [hid] at hfree
      cases hfree
  | removeReceiver id =>
    rcases hwf.free_or_registered id with hid | ⟨ref, hr⟩
    · rw [call, removeReceiver_of_free hid] at hcall
      cases hcall
      exact .refused _ (not_registered_of_free hid)
    · rw [call, removeReceiver_of_registered hr] at hcall
      cases hcall
      exact .removed id ref hr
  | subscribe id e =>
    rcases change_cases hwf hcall with ⟨hc, rfl⟩ | ⟨ref, hv, hr, rfl⟩
    · exact .refused _ hc
    · exact .subscribed id e ref hv hr
  | unsubscribe id e =>
    rcases change_cases hwf hcall with ⟨hc, rfl⟩ | ⟨ref, hv, hr, rfl⟩
    · exact .refused _ hc
    · exact .unsubscribed id e ref hv hr

/-- No call changes the id of a receiver. -/
theorem next_receivers_id {b b' : EventBus Ref} (h : b.WellFormed) {c : BusCall Ref}
    (hc : b.next c = some b') (ref : Ref) : (b'.receivers ref).id = (b.receivers ref).id := by
  cases call_cases h hc with
  | refused c hrefused => rfl
  | added r hfree => rfl
  | removed id r hr => rfl
  | subscribed id e r hv hr => exact update_receiver_id b (addEvent_id _ e) ref
  | unsubscribed id e r hv hr => exact update_receiver_id b (removeEvent_id _ e) ref

/-! ## Runs -/

/-- After any calls made one at a time the bus simulates the relation after them. -/
theorem refines_run (receivers : Ref → EventReceiver) (calls : List (BusCall Ref)) :
    ∃ b, run next (init receivers) calls = some b ∧
      b.Refines (Subscriptions.after (calls.map (BusCall.map fun ref => (receivers ref).id))) ∧
      ∀ ref, (b.receivers ref).id = (receivers ref).id := by
  induction calls using List.reverseRecOn with
  | nil => exact ⟨_, rfl, refines_init, fun _ => rfl⟩
  | append_singleton calls c ih =>
    obtain ⟨b, hb, href, hids⟩ := ih
    obtain ⟨ret, b', hcall, -, -, href'⟩ := refines_call href c
    have hnext : b.next c = some b' := congrArg (Option.map Prod.snd) hcall
    refine ⟨b', run_concat_eq_some.mpr ⟨b, hb, hnext⟩, ?_, fun ref => ?_⟩
    · simpa only [Subscriptions.after, List.map_append, List.map_singleton, List.foldl_append,
        List.foldl_cons, List.foldl_nil, hids] using href'
    · exact (next_receivers_id href.toWellFormed hnext ref).trans (hids ref)

/-- **The bus refines the subscription relation.** After any calls, made one at a time from the
empty bus, every further call is answered as the relation dictates and changes nothing when it is
refused, and the delivery of an event runs the callback of each receiver paired with it, once. -/
theorem bus_refines_subscriptions (receivers : Ref → EventReceiver) (calls : List (BusCall Ref)) :
    ∃ b, run next (init receivers) calls = some b ∧
      (∀ c, ∃ ret b', b.call c = some (ret, b') ∧
        ret = ((Subscriptions.after (calls.map (BusCall.map fun ref => (receivers ref).id))).step
          (c.map fun ref => (receivers ref).id)).1 ∧
        (ret ≠ .ok → b' = b)) ∧
      ∀ e, e.IsValid → ∃ ret threads, b.sendSync e = some (ret, threads) ∧
        (threads.map fun ref => (receivers ref).id).Nodup ∧
        (∀ ref ∈ threads, b.Registered (receivers ref).id ref) ∧
        ∀ id, id ∈ threads.map (fun ref => (receivers ref).id) ↔
          (id, e) ∈
            (Subscriptions.after (calls.map (BusCall.map fun ref => (receivers ref).id))).pairs := by
  obtain ⟨b, hb, href, hids⟩ := refines_run receivers calls
  refine ⟨b, hb, fun c => ?_, fun e hv => ?_⟩
  · obtain ⟨ret, b', hcall, hret, hsame, -⟩ := refines_call href c
    simp only [hids] at hret
    exact ⟨ret, b', hcall, hret, hsame⟩
  · obtain ⟨ret, threads, hsend, hnodup, hown, hmem⟩ :=
      sendSync_spec href.toWellFormed hv fun _ => href.exists_of_indexed
    simp only [hids, href.indexed] at hnodup hown hmem
    exact ⟨ret, threads, hsend, hnodup, hown, hmem⟩

end EventBus

end SimpleChat
