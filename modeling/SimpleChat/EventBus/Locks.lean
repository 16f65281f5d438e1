import SimpleChat.Concurrency.Locks
import SimpleChat.EventBus.Threads

/-!
# The locks of the event bus

The functions of the bus lock by lock: the locks of the two maps, of the event set of each receiver
and of the queue. `SendSync` starts a thread for every callback, releases both maps, and joins the
threads; the callbacks may call the bus themselves. Everybody acquires the locks in one order, and
joins without a lock, so the bus never deadlocks.

## Main definitions

* `BusLock`, `BusLock.rank`: the locks and their order
* `BusCode.addReceiver`, `BusCode.sendSync` and so on: the functions, continued by what their caller
  does next
* `Script`: what a thread does with the bus, and what the callbacks do that it causes

## Main results

* `call_uninterrupted`, `sendSync_uninterrupted`: without interruption, the functions do what the bus
  does in one step
* `Script.ordered`: a script keeps the order of the locks
* `never_deadlocks`: some thread can take a step while a call is unfinished
-/

namespace SimpleChat

open Concurrency Containers Std

/-- The locks: `mtx_event_receivers`, `mtx_event_to_receivers_map`, `mtx_events` of a receiver, and
`event_async_queue_lock`. -/
inductive BusLock (Ref : Type) where
  | eventReceivers
  | eventToReceiversMap
  | events (receiver : Ref)
  | eventAsyncQueue
  deriving DecidableEq, Repr

/-- The order in which the locks are acquired. -/
def BusLock.rank {Ref : Type} : BusLock Ref → ℕ
  | eventReceivers => 0
  | events _ => 1
  | eventToReceiversMap => 1
  | eventAsyncQueue => 1

/-- What the locks protect. -/
structure BusData (Ref : Type) where
  bus : EventBus Ref
  eventAsyncQueue : List EventId

/-- What a thread has still to do with the bus. -/
abbrev BusCode (Ref : Type) := Code (BusLock Ref) (BusData Ref)

namespace BusCode

variable {Ref : Type}

/-- A change of the bus. -/
def modify (f : EventBus Ref → EventBus Ref) (next : BusCode Ref) : BusCode Ref :=
  .act (fun d => { d with bus := f d.bus }) fun _ => next

/-- A look at the bus. -/
def look (next : EventBus Ref → BusCode Ref) : BusCode Ref := .act id fun d => next d.bus

/-- A unique lock around a change of the bus. -/
def exclusively (l : BusLock Ref) (f : EventBus Ref → EventBus Ref) (next : BusCode Ref) :
    BusCode Ref :=
  .acquire l .exclusive <| modify f <| .release l .exclusive next

def addReceiver (ref : Ref) (k : ReturnType → BusCode Ref) : BusCode Ref :=
  .acquire .eventReceivers .exclusive <| look fun b =>
    modify (fun b => (b.addReceiver ref).2) <|
    .release .eventReceivers .exclusive <| k (b.addReceiver ref).1

/-- `GetEvents` of a receiver. -/
def getEvents (ref : Ref) (next : ExtTreeSet EventId compare → BusCode Ref) : BusCode Ref :=
  .acquire (.events ref) .shared <| look fun b =>
    .release (.events ref) .shared <| next (b.receivers ref).getEvents

def removeReceiver (receiverId : ReceiverId) (k : ReturnType → BusCode Ref) : BusCode Ref :=
  .acquire .eventReceivers .exclusive <| look fun b =>
    match b.eventReceivers receiverId with
    | none => .release .eventReceivers .exclusive <| k .receiverNotExists
    | some none => .abort
    | some (some ref) =>
      getEvents ref fun events =>
      exclusively .eventToReceiversMap (fun b => b.updateIndex fun m =>
        events.toList.foldl (fun m e => m.erase receiverId e) m) <|
      modify (fun b => { b with
        eventReceivers := Function.update b.eventReceivers receiverId none }) <|
      .release .eventReceivers .exclusive <| k .ok

/-- The loop of `SendSync` that starts the callbacks; `threads` are those started so far. -/
def startCallbacks (callback : Ref → BusCode Ref) (next : List ℕ → BusCode Ref) :
    List ReceiverId → List ℕ → BusCode Ref
  | [], threads => next threads
  | id :: ids, threads => look fun b =>
    match (b.eventReceivers id).join with
    -- `operator[]` gives a null pointer
    | none => .abort
    | some ref => .spawn (callback ref) fun j => startCallbacks callback next ids (threads ++ [j])

/-- The loop of `SendSync` that joins the callbacks. -/
def joinCallbacks (next : BusCode Ref) : List ℕ → BusCode Ref
  | [] => next
  | j :: threads => .join j <| joinCallbacks next threads

def sendSync (e : EventId) (callback : Ref → BusCode Ref) (k : ReturnType → BusCode Ref) :
    BusCode Ref :=
  if e ≠ .invalid then
    .acquire .eventReceivers .shared <|
    .acquire .eventToReceiversMap .shared <| look fun b =>
      match b.eventToReceiversMap.sets e with
      | some ids =>
        startCallbacks callback (fun threads =>
          .release .eventReceivers .shared <|
          .release .eventToReceiversMap .shared <| joinCallbacks (k .ok) threads) ids.toList []
      | none =>
        .release .eventToReceiversMap .shared <|
        .release .eventReceivers .shared <| k .noReceiversForEvent
  else k .eventIdInvalid

def sendAsync (e : EventId) (next : BusCode Ref) : BusCode Ref :=
  .acquire .eventAsyncQueue .exclusive <|
  .act (fun d => { d with eventAsyncQueue := d.eventAsyncQueue ++ [e] }) fun _ =>
  .release .eventAsyncQueue .exclusive next

variable [DecidableEq Ref]

/-- `Subscribe` and `Unsubscribe`: `f` is `AddEvent` or `RemoveEvent`, and `g` changes the index. -/
def change (receiverId : ReceiverId) (e : EventId) (f : EventReceiver → ReturnType × EventReceiver)
    (g : Index EventId ReceiverId → Index EventId ReceiverId) (k : ReturnType → BusCode Ref) :
    BusCode Ref :=
  if e.IsValid then
    .acquire .eventReceivers .exclusive <| look fun b =>
      match b.eventReceivers receiverId with
      | none => .release .eventReceivers .exclusive <| k .receiverNotExists
      | some none => .abort
      | some (some ref) =>
        exclusively (.events ref) (fun b => { b with
          receivers := Function.update b.receivers ref (f (b.receivers ref)).2 }) <|
        .release .eventReceivers .exclusive <|
        exclusively .eventToReceiversMap (fun b => b.updateIndex g) <| k .ok
  else k .eventIdInvalid

def subscribe (receiverId : ReceiverId) (e : EventId) : (ReturnType → BusCode Ref) → BusCode Ref :=
  change receiverId e (fun r => r.addEvent e) fun m => m.insert receiverId e

def unsubscribe (receiverId : ReceiverId) (e : EventId) :
    (ReturnType → BusCode Ref) → BusCode Ref :=
  change receiverId e (fun r => r.removeEvent e) fun m => m.erase receiverId e

def call : BusCall Ref → (ReturnType → BusCode Ref) → BusCode Ref
  | .addReceiver ref => addReceiver ref
  | .removeReceiver id => removeReceiver id
  | .subscribe id e => subscribe id e
  | .unsubscribe id e => unsubscribe id e

end BusCode

/-- What a thread does with the bus: it makes calls, and goes on as their results say. With an event
it sends, what the callbacks do that this runs. -/
inductive Script (Ref : Type) where
  | done
  | call (c : BusCall Ref) (k : ReturnType → Script Ref)
  | sendSync (eventId : EventId) (callback : Ref → Script Ref) (k : ReturnType → Script Ref)
  | sendAsync (eventId : EventId) (next : Script Ref)

/-- The code of a thread that follows a script. -/
def Script.code {Ref : Type} [DecidableEq Ref] : Script Ref → BusCode Ref
  | done => .done
  | call c k => BusCode.call c fun ret => (k ret).code
  | sendSync e callback k =>
    BusCode.sendSync e (fun ref => (callback ref).code) fun ret => (k ret).code
  | sendAsync e next => BusCode.sendAsync e next.code

namespace BusCode

variable {Ref : Type} [DecidableEq Ref] {self n : ℕ}

/-! ## The functions without interruption -/

omit [DecidableEq Ref] in
theorem alone_removeReceiver (id : ReceiverId) (k : ReturnType → BusCode Ref) (d : BusData Ref) :
    (removeReceiver id k).alone n d =
      (d.bus.removeReceiver id).bind fun r => (k r.1).alone n { d with bus := r.2 } := by
  cases hid : d.bus.eventReceivers id with
  | none => simp [removeReceiver, EventBus.removeReceiver, look, Code.alone, hid]
  | some receiver =>
    cases receiver with
    | none => simp [removeReceiver, EventBus.removeReceiver, look, Code.alone, hid]
    | some ref =>
      simp [removeReceiver, EventBus.removeReceiver, EventBus.updateIndex, look, modify, exclusively,
        getEvents, Code.alone, hid]

theorem alone_change (id : ReceiverId) (e : EventId) (f : EventReceiver → ReturnType × EventReceiver)
    (g : Index EventId ReceiverId → Index EventId ReceiverId) (k : ReturnType → BusCode Ref)
    (d : BusData Ref) : (change id e f g k).alone n d =
      (d.bus.change id e f g).bind fun r => (k r.1).alone n { d with bus := r.2 } := by
  by_cases hv : e.IsValid
  · cases hid : d.bus.eventReceivers id with
    | none => simp [change, EventBus.change, EventBus.updateReceiver, look, Code.alone, hv, hid]
    | some receiver =>
      cases receiver with
      | none => simp [change, EventBus.change, EventBus.updateReceiver, look, Code.alone, hv, hid]
      | some ref =>
        simp [change, EventBus.change, EventBus.updateReceiver, EventBus.updateIndex, look, modify,
          exclusively, Code.alone, hv, hid]
  · simp [change, EventBus.change, hv]

/-- A call does what the bus does in one step. -/
theorem alone_call (c : BusCall Ref) (k : ReturnType → BusCode Ref) (d : BusData Ref) :
    (call c k).alone n d = (d.bus.call c).bind fun r => (k r.1).alone n { d with bus := r.2 } := by
  cases c with
  | addReceiver ref => rfl
  | removeReceiver id => exact alone_removeReceiver id k d
  | subscribe id e =>
    rw [call, subscribe, EventBus.call, EventBus.subscribe]
    exact alone_change id e _ _ k d
  | unsubscribe id e =>
    rw [call, unsubscribe, EventBus.call, EventBus.unsubscribe]
    exact alone_change id e _ _ k d

omit [DecidableEq Ref] in
theorem alone_startCallbacks (callback : Ref → BusCode Ref) (next : List ℕ → BusCode Ref)
    (d : BusData Ref) (ids : List ReceiverId) (threads : List ℕ) :
    (startCallbacks callback next ids threads).alone n d =
      (ids.mapM fun id => (d.bus.eventReceivers id).join).bind fun refs =>
        ((next (threads ++ List.range' n refs.length)).alone (n + refs.length) d).map fun r =>
          (r.1, refs.map callback ++ r.2) := by
  induction ids generalizing n threads with
  | nil => simp [startCallbacks]
  | cons id ids ih =>
    cases hid : (d.bus.eventReceivers id).join with
    | none => simp [startCallbacks, look, Code.alone, hid]
    | some ref =>
      have hstart : (startCallbacks callback next (id :: ids) threads).alone n d =
          ((startCallbacks callback next ids (threads ++ [n])).alone (n + 1) d).map fun r =>
            (r.1, callback ref :: r.2) := by
        simp [startCallbacks, look, Code.alone, hid]
      rw [hstart, ih]
      cases hids : ids.mapM fun id => (d.bus.eventReceivers id).join with
      | none => simp [hid, hids]
      | some refs =>
        have hnext : n + 1 + refs.length = n + (refs.length + 1) := by omega
        simp [hid, hids, hnext, List.range'_succ, Function.comp_def]

omit [DecidableEq Ref] in
theorem alone_joinCallbacks (next : BusCode Ref) (threads : List ℕ) (d : BusData Ref) :
    (joinCallbacks next threads).alone n d = next.alone n d := by
  induction threads with
  | nil => rfl
  | cons j threads ih => exact ih

omit [DecidableEq Ref] in
/-- A delivery starts the callbacks of the receivers that the bus finds for the event. -/
theorem alone_sendSync (e : EventId) (callback : Ref → BusCode Ref) (k : ReturnType → BusCode Ref)
    (d : BusData Ref) : (sendSync e callback k).alone n d =
      (d.bus.sendSync e).bind fun r => ((k r.1).alone (n + r.2.length) d).map fun x =>
        (x.1, r.2.map callback ++ x.2) := by
  by_cases hv : e = .invalid
  · simp [sendSync, EventBus.sendSync, hv]
  · cases hids : d.bus.eventToReceiversMap.sets e with
    | none => simp [sendSync, EventBus.sendSync, look, Code.alone, hv, hids]
    | some ids =>
      simp [sendSync, EventBus.sendSync, look, Code.alone, hv, hids, alone_startCallbacks,
        alone_joinCallbacks, Option.bind_map]

/-- A thread that makes a call without interruption changes the bus as the call does in one step. -/
theorem call_uninterrupted {policy : Process (BusLock Ref) (BusData Ref) → BusLock Ref → Bool}
    {p q : Process (BusLock Ref) (BusData Ref)} {i m : ℕ} {c : BusCall Ref}
    {held held' : List (BusLock Ref × Mode)}
    (h : Transition.run (Process.step policy) p (List.replicate m i) = some q)
    (hq : q.aborted = false) (hi : p.threads[i]? = some ⟨call c fun _ => .done, held⟩)
    (hu : q.threads[i]? = some ⟨.done, held'⟩) :
    ∃ ret, p.data.bus.call c = some (ret, q.data.bus) ∧
      q.data.eventAsyncQueue = p.data.eventAsyncQueue := by
  obtain ⟨new, -, halone⟩ := Process.alone_of_run h hq hi hu
  rw [alone_call] at halone
  obtain ⟨⟨ret, b⟩, hcall, hret⟩ := Option.bind_eq_some_iff.mp halone
  have hdata : { p.data with bus := b } = q.data := congrArg Prod.fst (Option.some.inj hret)
  exact ⟨ret, by rw [hcall, ← hdata], by rw [← hdata]⟩

/-- A thread that delivers an event without interruption, up to its joins, starts the callbacks of the
receivers that the bus finds for the event in one step, and leaves the bus as it was. -/
theorem sendSync_uninterrupted {policy : Process (BusLock Ref) (BusData Ref) → BusLock Ref → Bool}
    {p q : Process (BusLock Ref) (BusData Ref)} {i m : ℕ} {e : EventId}
    {callback : Ref → BusCode Ref} {threads : List ℕ} {held held' : List (BusLock Ref × Mode)}
    (h : Transition.run (Process.step policy) p (List.replicate m i) = some q)
    (hq : q.aborted = false)
    (hi : p.threads[i]? = some ⟨sendSync e callback fun _ => .done, held⟩)
    (hu : q.threads[i]? = some ⟨joinCallbacks .done threads, held'⟩) :
    ∃ ret receivers new, p.data.bus.sendSync e = some (ret, receivers) ∧ q.data = p.data ∧
      q.threads = p.threads.set i ⟨joinCallbacks .done threads, held'⟩ ++ new ∧
      new.map Thread.code = receivers.map callback := by
  obtain ⟨new, hthreads, halone⟩ := Process.alone_of_run h hq hi hu
  rw [alone_sendSync, alone_joinCallbacks] at halone
  obtain ⟨⟨ret, receivers⟩, hsend, hret⟩ := Option.bind_eq_some_iff.mp halone
  obtain ⟨hdata, hcode⟩ := Prod.mk.inj (Option.some.inj hret)
  exact ⟨ret, receivers, new, hsend, hdata.symm, hthreads, by simpa using hcode.symm⟩

/-! ## The order of the locks -/

/-- The discipline of a thread of the bus. -/
abbrev Ordered (self n : ℕ) (held : List (BusLock Ref × Mode)) (c : BusCode Ref) : Prop :=
  Code.Ordered BusLock.rank self n held c

variable {held : List (BusLock Ref × Mode)} {l : BusLock Ref}

omit [DecidableEq Ref] in
theorem rank_lt_of_eventReceivers (hl : l ≠ .eventReceivers) (m : Mode) :
    ∀ h ∈ [((.eventReceivers : BusLock Ref), m)], h.1.rank < l.rank := by
  intro h hh
  obtain rfl := List.mem_singleton.mp hh
  cases l with
  | eventReceivers => exact absurd rfl hl
  | _ => exact Nat.zero_lt_one

theorem ordered_exclusively {f : EventBus Ref → EventBus Ref} {next : BusCode Ref}
    (hl : ∀ h ∈ held, h.1.rank < l.rank) (hnext : Ordered self n held next) :
    Ordered self n held (exclusively l f next) :=
  ⟨hl, fun _ => hnext.release l .exclusive⟩

theorem ordered_getEvents {ref : Ref} {next : ExtTreeSet EventId compare → BusCode Ref}
    (hl : ∀ h ∈ held, h.1.rank < (BusLock.events ref).rank)
    (hnext : ∀ events, Ordered self n held (next events)) :
    Ordered self n held (getEvents ref next) :=
  ⟨hl, fun _ => (hnext _).release (.events ref) .shared⟩

variable {k : ReturnType → BusCode Ref}

theorem ordered_addReceiver {ref : Ref} (hk : ∀ ret, Ordered self n [] (k ret)) :
    Ordered self n [] (addReceiver ref k) :=
  ⟨by simp, fun _ _ => (hk _).release .eventReceivers .exclusive⟩

theorem ordered_removeReceiver {id : ReceiverId} (hk : ∀ ret, Ordered self n [] (k ret)) :
    Ordered self n [] (removeReceiver id k) := by
  refine ⟨by simp, fun d => ?_⟩
  dsimp only
  split
  · exact (hk _).release .eventReceivers .exclusive
  · trivial
  · -- the set of events and the index are locked while the receivers are
    refine ordered_getEvents (rank_lt_of_eventReceivers (by simp) _) fun events => ?_
    refine ordered_exclusively (rank_lt_of_eventReceivers (by simp) _) fun _ => ?_
    exact (hk _).release .eventReceivers .exclusive

theorem ordered_change {id : ReceiverId} {e : EventId}
    {f : EventReceiver → ReturnType × EventReceiver}
    {g : Index EventId ReceiverId → Index EventId ReceiverId}
    (hk : ∀ ret, Ordered self n [] (k ret)) : Ordered self n [] (change id e f g k) := by
  unfold change
  split
  · refine ⟨by simp, fun d => ?_⟩
    dsimp only
    split
    · exact (hk _).release .eventReceivers .exclusive
    · trivial
    · refine ordered_exclusively (rank_lt_of_eventReceivers (by simp) _) ?_
      -- the receivers are released before the index is locked
      exact (ordered_exclusively (by simp) (hk _)).release .eventReceivers .exclusive
  · exact hk _

theorem ordered_call {c : BusCall Ref} (hk : ∀ ret, Ordered self n [] (k ret)) :
    Ordered self n [] (call c k) := by
  cases c with
  | addReceiver ref => exact ordered_addReceiver hk
  | removeReceiver id => exact ordered_removeReceiver hk
  | subscribe id e =>
    rw [call, subscribe]
    exact ordered_change hk
  | unsubscribe id e =>
    rw [call, unsubscribe]
    exact ordered_change hk

theorem ordered_joinCallbacks {next : BusCode Ref} {threads : List ℕ}
    (hthreads : ∀ j ∈ threads, self < j ∧ j < n) (hnext : Ordered self n [] next) :
    Ordered self n [] (joinCallbacks next threads) := by
  induction threads with
  | nil => exact hnext
  | cons j threads ih =>
    exact ⟨hthreads j (List.mem_cons_self ..), rfl,
      ih fun i hi => hthreads i (List.mem_cons_of_mem _ hi)⟩

/-- The numbers of the started threads are above that of the caller. -/
theorem ordered_startCallbacks {callback : Ref → BusCode Ref} {next : List ℕ → BusCode Ref}
    (hcallback : ∀ ref j, Ordered j (j + 1) [] (callback ref))
    (hnext : ∀ m threads, self < m → (∀ j ∈ threads, self < j ∧ j < m) →
      Ordered self m held (next threads))
    (ids : List ReceiverId) {threads : List ℕ} (hself : self < n)
    (hthreads : ∀ j ∈ threads, self < j ∧ j < n) :
    Ordered self n held (startCallbacks callback next ids threads) := by
  induction ids generalizing n threads with
  | nil => exact hnext n threads hself hthreads
  | cons id ids ih =>
    intro d
    dsimp only
    split
    · trivial
    · intro j hj
      refine ⟨hcallback _ j, ih (by omega) fun i hi => ?_⟩
      rcases List.mem_append.mp hi with hi | hi
      · have hi := hthreads i hi
        omega
      · obtain rfl := List.mem_singleton.mp hi
        omega

theorem ordered_sendSync {e : EventId} {callback : Ref → BusCode Ref}
    (hcallback : ∀ ref j, Ordered j (j + 1) [] (callback ref))
    (hk : ∀ m ret, self < m → Ordered self m [] (k ret)) (hself : self < n) :
    Ordered self n [] (sendSync e callback k) := by
  unfold sendSync
  split
  · refine ⟨by simp, rank_lt_of_eventReceivers (by simp) _, fun d => ?_⟩
    dsimp only
    split
    · refine ordered_startCallbacks hcallback (fun m threads hm hthreads => ?_) _ hself (by simp)
      -- both locks are released before the first join
      have hjoin := ordered_joinCallbacks hthreads (hk m .ok hm)
      show Ordered self m (List.erase [(.eventToReceiversMap, .shared), (.eventReceivers, .shared)]
        (.eventReceivers, .shared)) _
      rw [List.erase_cons_tail (by simp), List.erase_cons_head]
      exact hjoin.release .eventToReceiversMap .shared
    · exact ((hk n _ hself).release .eventReceivers .shared).release .eventToReceiversMap .shared
  · exact hk n _ hself

theorem ordered_sendAsync {e : EventId} {next : BusCode Ref} (hnext : Ordered self n [] next) :
    Ordered self n [] (sendAsync e next) :=
  ⟨by simp, fun _ => hnext.release .eventAsyncQueue .exclusive⟩

end BusCode

/-- A script keeps the order of the locks, in whatever thread it runs. -/
theorem Script.ordered {Ref : Type} [DecidableEq Ref] (s : Script Ref) {self n : ℕ}
    (hself : self < n) : BusCode.Ordered self n [] s.code := by
  induction s generalizing self n with
  | done => rfl
  | call c k ih => exact BusCode.ordered_call fun ret => ih ret hself
  | sendSync e callback k ihc ihk =>
    refine BusCode.ordered_sendSync (fun ref j => ihc ref (Nat.lt_succ_self j)) ?_ hself
    exact fun m ret hm => ihk ret hm
  | sendAsync e next ih => exact BusCode.ordered_sendAsync (ih hself)

namespace Script

variable {Ref : Type} [DecidableEq Ref]

/-- **The event bus never deadlocks.** Any threads follow their scripts, with or without priority for
waiting writers. While the process has not aborted over a null pointer and some thread has still
something to do, some thread can take a step; and a thread that waits for a callback holds no lock. -/
theorem never_deadlocks (policy : Process (BusLock Ref) (BusData Ref) → BusLock Ref → Bool)
    (d : BusData Ref) (scripts : List (Script Ref)) {p : Process (BusLock Ref) (BusData Ref)}
    (h : Transition.Reachable (Process.step policy) (.start d (scripts.map Script.code)) p)
    (hlive : p.aborted = false) {i : ℕ} (hi : p.Unfinished i) :
    (∃ j, (p.step policy j).isSome = true) ∧
      ∀ (j k : ℕ) (next : BusCode Ref) (held : List (BusLock Ref × Mode)),
        p.threads[j]? = some ⟨.join k next, held⟩ → held = [] := by
  obtain ⟨is, his⟩ := h
  have hp : p.Disciplined BusLock.rank := by
    refine Process.disciplined_of_run (Process.disciplined_start fun c hc j => ?_) his
    obtain ⟨s, -, rfl⟩ := List.mem_map.mp hc
    exact s.ordered (Nat.lt_succ_self j)
  exact ⟨Process.exists_step hp hlive hi, fun j k next held hj => hp.held_of_join hj⟩

/-- A receiver is subscribed and gets an event, in whose callback it ends its subscription. -/
def callingBack : List (Script Unit) :=
  [.call (.addReceiver ()) fun _ => .call (.subscribe 5 .newMessage) fun _ =>
    .sendSync .newMessage (fun _ => .call (.unsubscribe 5 .newMessage) fun _ => .done) fun _ => .done]

/-- Readers let waiting writers go first. -/
def writersFirst : Process (BusLock Unit) (BusData Unit) → BusLock Unit → Bool := fun _ _ => true

/-- The process that is about to run it. -/
def beforeCallingBack : Process (BusLock Unit) (BusData Unit) :=
  .start ⟨.init Threads.oneReceiver, []⟩ (callingBack.map Script.code)

/-- The sender gets to the join of the callback, and the callback locks the receivers. -/
def joining : List ℕ := List.replicate 20 0 ++ [1]

theorem joining_runs :
    (Transition.run (Process.step writersFirst) beforeCallingBack joining).isSome = true := by decide

/-- The state in which the sender waits for the callback. -/
def waiting : Process (BusLock Unit) (BusData Unit) :=
  (Transition.run (Process.step writersFirst) beforeCallingBack joining).get joining_runs

theorem never_deadlocks_waiting : (∃ j, (waiting.step writersFirst j).isSome = true) ∧
    ∀ (j k : ℕ) (next : BusCode Unit) (held : List (BusLock Unit × Mode)),
      waiting.threads[j]? = some ⟨.join k next, held⟩ → held = [] :=
  never_deadlocks writersFirst _ callingBack ⟨joining, (Option.some_get joining_runs).symm⟩
    (by decide) (i := 0) ⟨waiting.threads.get ⟨0, by decide⟩, List.getElem?_eq_getElem _, by decide⟩

end Script

end SimpleChat
