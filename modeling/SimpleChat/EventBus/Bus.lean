import SimpleChat.Containers.Index
import SimpleChat.EventBus.Event

/-!
# The event bus

The bus keeps pointers to the registered receivers, by id, and an index from events to the ids of
their subscribers; each receiver also keeps the set of its own events. `Subscribe` and
`Unsubscribe` are two critical sections, one on the receivers and one on the index; the other
operations are one.

A pointer is `none` where it is null: `operator[]` makes a null pointer for a missing id.
Dereferencing it is undefined, and an operation that does so has no result here.

## Main definitions

* `EventReceiver`, `EventBus Ref`: a receiver, and the bus over the receiver objects `Ref`
* `addReceiver`, `removeReceiver`, `subscribe`, `unsubscribe`, `sendSync`: the operations
* `updateReceiver`, `updateIndex`: the two sections of `Subscribe` and `Unsubscribe`
* `BusCall`, `EventBus.call`: the operations by name
* `EventBus.WellFormed`: no null pointer, and every receiver under its own id

## Main results

* `removeReceiver_of_registered`, `change_of_registered`: the operations on a registered receiver
* `sendSync_spec`: the callbacks that a delivery runs
-/

namespace SimpleChat

open Containers Std

/-- `eventReceiverId_t`. -/
abbrev ReceiverId := ℤ

structure EventReceiver where
  id : ReceiverId
  events : ExtTreeSet EventId compare

namespace EventReceiver

def addEvent (r : EventReceiver) (e : EventId) : ReturnType × EventReceiver :=
  if e.IsValid then (.ok, { r with events := r.events.insert e }) else (.eventIdInvalid, r)

def removeEvent (r : EventReceiver) (e : EventId) : ReturnType × EventReceiver :=
  if e.IsValid then (.ok, { r with events := r.events.erase e }) else (.eventIdInvalid, r)

def containsEvent (r : EventReceiver) (e : EventId) : Bool := r.events.contains e

def getEvents (r : EventReceiver) : ExtTreeSet EventId compare := r.events

def getId (r : EventReceiver) : ReceiverId := r.id

end EventReceiver

/-- The bus over receiver objects `Ref`, with the state of every receiver. -/
structure EventBus (Ref : Type) where
  eventReceivers : ReceiverId → Option (Option Ref)
  eventToReceiversMap : Index EventId ReceiverId
  receivers : Ref → EventReceiver

/-- A call of the bus; `ρ` names the receiver that is added. -/
inductive BusCall (ρ : Type) where
  | addReceiver (receiver : ρ)
  | removeReceiver (receiverId : ReceiverId)
  | subscribe (receiverId : ReceiverId) (eventId : EventId)
  | unsubscribe (receiverId : ReceiverId) (eventId : EventId)
  deriving DecidableEq, Repr

def BusCall.map {ρ ρ' : Type} (f : ρ → ρ') : BusCall ρ → BusCall ρ'
  | addReceiver r => addReceiver (f r)
  | removeReceiver id => removeReceiver id
  | subscribe id e => subscribe id e
  | unsubscribe id e => unsubscribe id e

namespace EventBus

variable {Ref : Type}

/-- The empty bus. -/
def init (receivers : Ref → EventReceiver) : EventBus Ref := ⟨fun _ => none, ∅, receivers⟩

section Operations

variable [DecidableEq Ref]

def addReceiver (b : EventBus Ref) (ref : Ref) : ReturnType × EventBus Ref :=
  let receiverId := (b.receivers ref).getId
  match b.eventReceivers receiverId with
  | none => (.ok, { b with
      eventReceivers := Function.update b.eventReceivers receiverId (some (some ref)) })
  | some _ => (.receiverExists, b)

def removeReceiver (b : EventBus Ref) (receiverId : ReceiverId) :
    Option (ReturnType × EventBus Ref) :=
  match b.eventReceivers receiverId with
  | none => some (.receiverNotExists, b)
  | some none => none
  | some (some ref) =>
    let events := (b.receivers ref).getEvents
    some (.ok, { b with
      eventToReceiversMap := events.toList.foldl (fun m e => m.erase receiverId e)
        b.eventToReceiversMap
      eventReceivers := Function.update b.eventReceivers receiverId none })

/-- The section of `Subscribe` and of `Unsubscribe` under `mtx_event_receivers`: `f` changes the
events of the receiver. -/
def updateReceiver (b : EventBus Ref) (receiverId : ReceiverId)
    (f : EventReceiver → ReturnType × EventReceiver) : Option (ReturnType × EventBus Ref) :=
  match b.eventReceivers receiverId with
  | none => some (.receiverNotExists, b)
  | some none => none
  | some (some ref) => some (.ok, { b with
      receivers := Function.update b.receivers ref (f (b.receivers ref)).2 })

omit [DecidableEq Ref] in
/-- Their section under `mtx_event_to_receivers_map`: `g` changes the index. -/
def updateIndex (b : EventBus Ref) (g : Index EventId ReceiverId → Index EventId ReceiverId) :
    EventBus Ref :=
  { b with eventToReceiversMap := g b.eventToReceiversMap }

/-- Both sections. The second one runs when the first one found the receiver. -/
def change (b : EventBus Ref) (receiverId : ReceiverId) (e : EventId)
    (f : EventReceiver → ReturnType × EventReceiver)
    (g : Index EventId ReceiverId → Index EventId ReceiverId) :
    Option (ReturnType × EventBus Ref) :=
  if e.IsValid then
    (b.updateReceiver receiverId f).map fun (ret, b') =>
      if ret = .ok then (.ok, b'.updateIndex g) else (ret, b')
  else some (.eventIdInvalid, b)

def subscribeReceivers (b : EventBus Ref) (receiverId : ReceiverId) (e : EventId) :
    Option (ReturnType × EventBus Ref) :=
  b.updateReceiver receiverId fun r => r.addEvent e

omit [DecidableEq Ref] in
def subscribeIndex (b : EventBus Ref) (receiverId : ReceiverId) (e : EventId) : EventBus Ref :=
  b.updateIndex fun m => m.insert receiverId e

def subscribe (b : EventBus Ref) (receiverId : ReceiverId) (e : EventId) :
    Option (ReturnType × EventBus Ref) :=
  b.change receiverId e (fun r => r.addEvent e) fun m => m.insert receiverId e

def unsubscribeReceivers (b : EventBus Ref) (receiverId : ReceiverId) (e : EventId) :
    Option (ReturnType × EventBus Ref) :=
  b.updateReceiver receiverId fun r => r.removeEvent e

omit [DecidableEq Ref] in
def unsubscribeIndex (b : EventBus Ref) (receiverId : ReceiverId) (e : EventId) : EventBus Ref :=
  b.updateIndex fun m => m.erase receiverId e

def unsubscribe (b : EventBus Ref) (receiverId : ReceiverId) (e : EventId) :
    Option (ReturnType × EventBus Ref) :=
  b.change receiverId e (fun r => r.removeEvent e) fun m => m.erase receiverId e

omit [DecidableEq Ref] in
/-- The receivers whose callbacks `SendSync` runs, each on a thread of its own that it joins. The
ids of the index are looked up unchecked. -/
def sendSync (b : EventBus Ref) (e : EventId) : Option (ReturnType × List Ref) :=
  if e ≠ .invalid then
    match b.eventToReceiversMap.sets e with
    | some ids =>
      (ids.toList.mapM fun id => (b.eventReceivers id).join).map fun threads => (.ok, threads)
    | none => some (.noReceiversForEvent, [])
  else some (.eventIdInvalid, [])

/-- A call with its return code. -/
def call (b : EventBus Ref) : BusCall Ref → Option (ReturnType × EventBus Ref)
  | .addReceiver ref => some (b.addReceiver ref)
  | .removeReceiver id => b.removeReceiver id
  | .subscribe id e => b.subscribe id e
  | .unsubscribe id e => b.unsubscribe id e

end Operations

/-! ## The operations on a registered receiver -/

/-- The id is a key of `event_receivers`, with a pointer to the receiver. -/
def Registered (b : EventBus Ref) (id : ReceiverId) (ref : Ref) : Prop :=
  b.eventReceivers id = some (some ref)

theorem Registered.unique {b : EventBus Ref} {id : ReceiverId} {ref ref' : Ref}
    (h : b.Registered id ref) (h' : b.Registered id ref') : ref = ref' :=
  Option.some.inj (Option.some.inj (h.symm.trans h'))

theorem not_registered_of_free {b : EventBus Ref} {id : ReceiverId}
    (h : b.eventReceivers id = none) : ¬ ∃ ref, b.Registered id ref := by
  rintro ⟨ref, hr⟩
  rw [Registered, h] at hr
  cases hr

/-- The id is stored for the event in `event_to_receivers_map`. -/
def Indexed (b : EventBus Ref) (id : ReceiverId) (e : EventId) : Prop :=
  b.eventToReceiversMap.Listed id e

/-- No pointer in `event_receivers` is null, and every receiver is registered under its own id. -/
structure WellFormed (b : EventBus Ref) : Prop where
  noNull : ∀ id p, b.eventReceivers id = some p → ∃ ref, p = some ref
  own_id : ∀ id ref, b.Registered id ref → (b.receivers ref).id = id

theorem not_indexed_init (receivers : Ref → EventReceiver) (id : ReceiverId) (e : EventId) :
    ¬ (init receivers).Indexed id e :=
  Index.not_listed_empty id e

/-- The call that `SendSync` makes of a callback finds its receiver exactly if the id is registered
with a receiver. -/
theorem join_eventReceivers {b : EventBus Ref} {id : ReceiverId} {ref : Ref} :
    (b.eventReceivers id).join = some ref ↔ b.Registered id ref :=
  Option.join_eq_some_iff

theorem addReceiver_of_registered {b : EventBus Ref} {ref : Ref} {p : Option Ref}
    (h : b.eventReceivers (b.receivers ref).id = some p) :
    b.addReceiver ref = (.receiverExists, b) := by
  simp [addReceiver, EventReceiver.getId, h]

theorem addReceiver_of_free {b : EventBus Ref} {ref : Ref}
    (h : b.eventReceivers (b.receivers ref).id = none) :
    b.addReceiver ref = (.ok, { b with
      eventReceivers :=
        Function.update b.eventReceivers (b.receivers ref).id (some (some ref)) }) := by
  simp [addReceiver, EventReceiver.getId, h]

/-- Removal drops the id from the index entries of the events that the receiver claims. -/
theorem indexed_removeReceiver {b : EventBus Ref} (id : ReceiverId) (ref : Ref)
    (k : ReceiverId) (e : EventId) :
    ((b.receivers ref).getEvents.toList.foldl (fun m e => m.erase id e)
        b.eventToReceiversMap).Listed k e ↔
      ¬ (k = id ∧ e ∈ (b.receivers ref).events) ∧ b.Indexed k e := by
  rw [Index.listed_foldl_erase, ExtTreeSet.mem_toList]
  rfl

theorem removeReceiver_of_registered {b : EventBus Ref} {id : ReceiverId} {ref : Ref}
    (h : b.Registered id ref) :
    b.removeReceiver id = some (.ok, { b with
      eventToReceiversMap := (b.receivers ref).getEvents.toList.foldl
        (fun m e => m.erase id e) b.eventToReceiversMap
      eventReceivers := Function.update b.eventReceivers id none }) := by
  have h : b.eventReceivers id = some (some ref) := h
  simp [removeReceiver, h]

theorem removeReceiver_of_free {b : EventBus Ref} {id : ReceiverId}
    (h : b.eventReceivers id = none) : b.removeReceiver id = some (.receiverNotExists, b) := by
  simp [removeReceiver, h]

section Change

variable [DecidableEq Ref] {b : EventBus Ref} {id : ReceiverId} {ref : Ref} {e : EventId}

theorem updateReceiver_of_registered (h : b.Registered id ref)
    (f : EventReceiver → ReturnType × EventReceiver) :
    b.updateReceiver id f = some (.ok, { b with
      receivers := Function.update b.receivers ref (f (b.receivers ref)).2 }) := by
  have h : b.eventReceivers id = some (some ref) := h
  simp [updateReceiver, h]

theorem updateReceiver_of_free (h : b.eventReceivers id = none)
    (f : EventReceiver → ReturnType × EventReceiver) :
    b.updateReceiver id f = some (.receiverNotExists, b) := by
  simp [updateReceiver, h]

/-- On a registered receiver both copies of the relation are changed. -/
theorem change_of_registered (hv : e.IsValid) (h : b.Registered id ref)
    (f : EventReceiver → ReturnType × EventReceiver)
    (g : Index EventId ReceiverId → Index EventId ReceiverId) :
    b.change id e f g = some (.ok, { b with
      receivers := Function.update b.receivers ref (f (b.receivers ref)).2
      eventToReceiversMap := g b.eventToReceiversMap }) := by
  rw [change, if_pos hv, updateReceiver_of_registered h]
  rfl

theorem change_of_free (hv : e.IsValid) (h : b.eventReceivers id = none)
    (f : EventReceiver → ReturnType × EventReceiver)
    (g : Index EventId ReceiverId → Index EventId ReceiverId) :
    b.change id e f g = some (.receiverNotExists, b) := by
  rw [change, if_pos hv, updateReceiver_of_free h]
  rfl

theorem change_of_invalid (hv : ¬ e.IsValid) (f : EventReceiver → ReturnType × EventReceiver)
    (g : Index EventId ReceiverId → Index EventId ReceiverId) :
    b.change id e f g = some (.eventIdInvalid, b) := if_neg hv

end Change

theorem containsEvent_iff {r : EventReceiver} {e : EventId} :
    r.containsEvent e = true ↔ e ∈ r.events := ExtTreeSet.contains_iff_mem

theorem addEvent_events {r : EventReceiver} {e : EventId} (hv : e.IsValid) (f : EventId) :
    f ∈ (r.addEvent e).2.events ↔ f = e ∨ f ∈ r.events := by
  simp [EventReceiver.addEvent, hv, @eq_comm _ f e]

theorem removeEvent_events {r : EventReceiver} {e : EventId} (hv : e.IsValid) (f : EventId) :
    f ∈ (r.removeEvent e).2.events ↔ f ≠ e ∧ f ∈ r.events := by
  simp [EventReceiver.removeEvent, hv, @eq_comm _ f e]

@[simp] theorem addEvent_id (r : EventReceiver) (e : EventId) : (r.addEvent e).2.id = r.id := by
  unfold EventReceiver.addEvent
  split <;> rfl

@[simp] theorem removeEvent_id (r : EventReceiver) (e : EventId) :
    (r.removeEvent e).2.id = r.id := by
  unfold EventReceiver.removeEvent
  split <;> rfl

/-! ## Well-formed buses -/

theorem wellFormed_init (receivers : Ref → EventReceiver) : (init receivers).WellFormed where
  noNull id p hp := by cases hp
  own_id id ref hr := by cases hr

/-- Replacing a receiver by one of the same id changes no id. -/
theorem update_receiver_id [DecidableEq Ref] (b : EventBus Ref) {ref : Ref} {r : EventReceiver}
    (hr : r.id = (b.receivers ref).id) (x : Ref) :
    (Function.update b.receivers ref r x).id = (b.receivers x).id := by
  by_cases hx : x = ref
  · subst hx
    simpa using hr
  · simp [hx]

namespace WellFormed

variable {b : EventBus Ref}

theorem free_or_registered (h : b.WellFormed) (id : ReceiverId) :
    b.eventReceivers id = none ∨ ∃ ref, b.Registered id ref := by
  cases hp : b.eventReceivers id with
  | none => exact .inl rfl
  | some p =>
    obtain ⟨ref, rfl⟩ := h.noNull id p hp
    exact .inr ⟨ref, hp⟩

/-- Registering a receiver under its id. -/
theorem register (h : b.WellFormed) (ref : Ref) :
    WellFormed { b with
      eventReceivers :=
        Function.update b.eventReceivers (b.receivers ref).id (some (some ref)) } where
  noNull id p hp := by
    by_cases hid : id = (b.receivers ref).id
    · subst hid
      exact ⟨ref, by simpa using hp.symm⟩
    · exact h.noNull id p (by simpa [hid] using hp)
  own_id id r hr := by
    by_cases hid : id = (b.receivers ref).id
    · subst hid
      obtain rfl : ref = r := by simpa [Registered] using hr
      rfl
    · exact h.own_id id r (by simpa [Registered, hid] using hr)

/-- Unregistering an id. -/
theorem unregister (h : b.WellFormed) (id : ReceiverId) (m : Index EventId ReceiverId) :
    WellFormed { b with
      eventToReceiversMap := m, eventReceivers := Function.update b.eventReceivers id none } where
  noNull k p hp := by
    by_cases hk : k = id
    · simp [hk] at hp
    · exact h.noNull k p (by simpa [hk] using hp)
  own_id k r hk := by
    by_cases hkid : k = id
    · simp [Registered, hkid] at hk
    · exact h.own_id k r (by simpa [Registered, hkid] using hk)

/-- Replacing a receiver by one of the same id, and the index. -/
theorem replace [DecidableEq Ref] (h : b.WellFormed) {ref : Ref} {r : EventReceiver}
    (hr : r.id = (b.receivers ref).id) (m : Index EventId ReceiverId) :
    WellFormed { b with
      receivers := Function.update b.receivers ref r, eventToReceiversMap := m } where
  noNull := h.noNull
  own_id id x hx := (update_receiver_id b hr x).trans (h.own_id id x hx)

end WellFormed

/-! ## Delivery -/

/-- A lookup that succeeds at every element, with results that know their element. -/
theorem mapM_lookup {α β : Type} {f : α → Option β} {g : β → α} {l : List α}
    (h : ∀ a ∈ l, ∃ b, f a = some b ∧ g b = a) :
    ∃ bs, l.mapM f = some bs ∧ bs.map g = l ∧ ∀ b ∈ bs, f (g b) = some b := by
  induction l with
  | nil => exact ⟨[], rfl, rfl, by simp⟩
  | cons a l ih =>
    obtain ⟨b, hb, hg⟩ := h a (List.mem_cons_self ..)
    obtain ⟨bs, hbs, hmap, hall⟩ := ih fun x hx => h x (List.mem_cons_of_mem _ hx)
    refine ⟨b :: bs, by simp [hb, hbs], by simp [hg, hmap], ?_⟩
    simp only [List.mem_cons, forall_eq_or_imp]
    exact ⟨hg ▸ hb, hall⟩

/-- Every result of lookups is that of an element. -/
theorem mem_of_mapM {α β : Type} {f : α → Option β} {l : List α} {bs : List β}
    (h : l.mapM f = some bs) {b : β} (hb : b ∈ bs) : ∃ a ∈ l, f a = some b := by
  induction l generalizing bs with
  | nil =>
    obtain rfl : [] = bs := by simpa using h
    cases hb
  | cons a l ih =>
    obtain ⟨c, hc, cs, hcs, rfl⟩ : ∃ c, f a = some c ∧ ∃ cs, l.mapM f = some cs ∧ c :: cs = bs := by
      simpa [Option.bind_eq_some_iff] using h
    rcases List.mem_cons.mp hb with rfl | hb
    · exact ⟨a, List.mem_cons_self .., hc⟩
    · obtain ⟨x, hx, hfx⟩ := ih hcs hb
      exact ⟨x, List.mem_cons_of_mem _ hx, hfx⟩

/-- If every id stored for the event is registered, `SendSync` runs the callbacks of exactly the
receivers registered under these ids, each once. -/
theorem sendSync_spec {b : EventBus Ref} (hb : b.WellFormed) {e : EventId} (hv : e.IsValid)
    (hreg : ∀ id, b.Indexed id e → ∃ ref, b.Registered id ref) :
    ∃ ret threads, b.sendSync e = some (ret, threads) ∧
      (threads.map fun ref => (b.receivers ref).id).Nodup ∧
      (∀ ref ∈ threads, b.Registered (b.receivers ref).id ref) ∧
      ∀ id, id ∈ threads.map (fun ref => (b.receivers ref).id) ↔ b.Indexed id e := by
  rw [sendSync, if_pos (EventId.isValid_iff.mp hv)]
  cases hids : b.eventToReceiversMap.sets e with
  | none =>
    refine ⟨_, [], rfl, by simp, by simp, fun id => iff_of_false (by simp) ?_⟩
    rintro ⟨s, hs, -⟩
    rw [hids] at hs
    cases hs
  | some ids =>
    -- no lookup of the loop makes a null pointer
    have hlookup : ∀ id ∈ ids.toList,
        ∃ ref, (b.eventReceivers id).join = some ref ∧ (b.receivers ref).id = id := by
      intro id hmem
      obtain ⟨ref, href⟩ := hreg id ⟨ids, hids, ExtTreeSet.mem_toList.mp hmem⟩
      exact ⟨ref, join_eventReceivers.mpr href, hb.own_id id ref href⟩
    obtain ⟨threads, hthreads, hmap, hall⟩ := mapM_lookup hlookup
    refine ⟨.ok, threads, by simp [hthreads], ?_, fun ref href => ?_, fun id => ?_⟩
    · rw [hmap]
      exact ExtTreeSet.distinct_toList.imp fun {a c} hne heq => hne (by simp [heq])
    · exact join_eventReceivers.mp (hall ref href)
    · rw [hmap, ExtTreeSet.mem_toList]
      constructor
      · exact fun hmem => ⟨ids, hids, hmem⟩
      · rintro ⟨s, hs, hmem⟩
        rw [hids] at hs
        exact Option.some.inj hs ▸ hmem

end EventBus

end SimpleChat
