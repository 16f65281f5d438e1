import SimpleChat.Common.Basic
import Mathlib.Order.Basic

/-!
# Events

The identifiers of events, in their order in the source, and the events that components send
asynchronously.

## Main definitions

* `EventId`: the event identifiers, `EventId.invalid` last
* `Event`: an asynchronous event with the data its handlers cast `data_in` to
-/

namespace SimpleChat

/-- `eEventId_t`. -/
inductive EventId where
  | temp
  | connectionOpened
  | newMessage
  | connectionClosed
  | connectionFailed
  | getUsers
  | disconnectUser
  | invalid
  deriving Repr

namespace EventId

/-- The value of the enumerator. -/
def val : EventId → ℕ
  | temp => 0
  | connectionOpened => 1
  | newMessage => 2
  | connectionClosed => 3
  | connectionFailed => 4
  | getUsers => 5
  | disconnectUser => 6
  | invalid => 7

theorem val_injective : Function.Injective val := by
  intro a b h
  cases a <;> cases b <;> first | rfl | cases h

instance : LinearOrder EventId := LinearOrder.lift' val val_injective

/-- `event_id < EVENT_ID_INVALID`. -/
def IsValid (e : EventId) : Prop := e < invalid

instance (e : EventId) : Decidable e.IsValid := inferInstanceAs (Decidable (e < invalid))

/-- Every identifier but the last is below it. -/
theorem isValid_iff {e : EventId} : e.IsValid ↔ e ≠ invalid := by
  cases e <;> decide

end EventId

/-- An asynchronous event, with what its handlers cast `data_in` to. -/
inductive Event where
  | connectionOpened (user : User)
  | newMessage (message : Message)
  | connectionClosed (user : User)
  | connectionFailed (user : User)
  | disconnectUser (user : User)
  deriving DecidableEq, Repr

/-- `GetEventId`. -/
def Event.getEventId : Event → EventId
  | connectionOpened _ => .connectionOpened
  | newMessage _ => .newMessage
  | connectionClosed _ => .connectionClosed
  | connectionFailed _ => .connectionFailed
  | disconnectUser _ => .disconnectUser

end SimpleChat
