import SimpleChat.EventBus.Event
import Mathlib.Data.Finset.Erase

/-!
# The handlers of the websocket server

The websocket server keeps the users of its connections in two maps, `val_map` from validation to
opening and `conn_user_map` from opening to closing, and the set of the usernames in use. Its
handlers run one at a time on the thread of the server.

## Main definitions

* `WebsocketServer Hdl`: the registry of the server, over connection handles `Hdl`
* `validateHandler`, `openHandler`, `messageHandler`, `closeHandler`, `failHandler`: the handlers,
  with the event each sends
* `disconnectUser`: the connection that a `DISCONNECT_USER` event closes
* `Call`, `serve`, `sentEvent`: the handlers by name, their effect on the registry and their event

## Main results

* `validateHandler_snd`: the answer of the validation
* `openHandler_eq`, `messageHandler_eq`, `closeHandler_eq`: the handlers on a connection that is in
  its map
* `sentEvent_openHandler`, `sentEvent_of_connected`, `sentEvent_closeHandler`: the events they send
-/

namespace SimpleChat

open Containers Std

/-- The remote address of a connection: its text and, for an IPv4 address mapped to IPv6, the
text of the IPv4 address. -/
structure Address where
  toText : Bytes
  v4Mapped : Option Bytes
  deriving DecidableEq, Repr

/-- What the server reads from a connection: the `Username` header of its request and its remote
endpoint. -/
structure Request where
  usernameHeader : Bytes
  address : Address
  port : UInt32
  deriving DecidableEq, Repr

inductive Opcode where
  | text
  | binary
  deriving DecidableEq, Repr

/-- A message as it arrives from a connection. -/
structure WsMessage where
  payload : Bytes
  opcode : Opcode
  deriving DecidableEq, Repr

/-- A call `srv.send(hdl, p_message->ToString(), opcode)`. -/
structure Send (Hdl : Type) where
  hdl : Hdl
  message : Message
  opcode : Opcode
  deriving DecidableEq, Repr

/-- What `MessageHandler` does: the message it makes and sends as an event, the sends that
succeeded, and whether a send raised an exception, which leaves the handler. -/
structure Broadcast (Hdl : Type) where
  message : Message
  sends : List (Send Hdl)
  raised : Bool
  deriving DecidableEq, Repr

/-- The registry of the websocket server. -/
structure WebsocketServer (Hdl : Type) [LinearOrder Hdl] where
  valMap : OrderedMap Hdl User
  connUserMap : OrderedMap Hdl User
  usernames : Finset Bytes

/-- A call of a handler by websocketpp. -/
inductive Call (Hdl : Type) where
  | validateHandler (hdl : Hdl) (req : Request)
  | openHandler (hdl : Hdl)
  | messageHandler (hdl : Hdl) (msg : WsMessage)
  | closeHandler (hdl : Hdl)
  | failHandler (hdl : Hdl)
  deriving DecidableEq, Repr

/-- The connection a handler is called for. -/
def Call.hdl {Hdl : Type} : Call Hdl → Hdl
  | validateHandler hdl _ => hdl
  | openHandler hdl => hdl
  | messageHandler hdl _ => hdl
  | closeHandler hdl => hdl
  | failHandler hdl => hdl

namespace WebsocketServer

variable {Hdl : Type} [LinearOrder Hdl]

/-! ## Reading a connection -/

def getConnectionUsername (req : Request) : ReturnType × Bytes :=
  (if req.usernameHeader.isEmpty then .usernameHeaderMissing else .ok, req.usernameHeader)

def getConnectionIP (req : Request) : Bytes := req.address.v4Mapped.getD req.address.toText

def getConnectionPort (req : Request) : UInt32 := req.port

def getConnectionUser (req : Request) : ReturnType × User :=
  let (ret, username) := getConnectionUsername req
  (ret, .ofConnection username (getConnectionIP req) (getConnectionPort req))

theorem getConnectionUser_ok {req : Request} :
    (getConnectionUser req).1 = .ok ↔ req.usernameHeader ≠ [] := by
  simp [getConnectionUser, getConnectionUsername]

/-! ## The handlers -/

/-- The server before any connection. -/
def init : WebsocketServer Hdl := ⟨∅, ∅, ∅⟩

/-- A missing header or a name in use is answered `false`; the user is recorded either way, and
`insert` keeps a record that is there. -/
def validateHandler (s : WebsocketServer Hdl) (hdl : Hdl) (req : Request) :
    WebsocketServer Hdl × Bool :=
  let (r, user) := getConnectionUser req
  let ret := if r = .ok then decide (user.username ∉ s.usernames) else false
  ({ s with valMap := s.valMap.insertIfNew hdl user }, ret)

def openHandler (s : WebsocketServer Hdl) (hdl : Hdl) (now : Time) :
    WebsocketServer Hdl × Event :=
  let (validated, valMap) := subscript s.valMap hdl
  let user := validated.setCurrentTime now
  ({ valMap := valMap.erase hdl
     connUserMap := s.connUserMap.insertIfNew hdl user
     usernames := insert user.username s.usernames }, .connectionOpened user)

/-- The loop of `MessageHandler` over the snapshot: `srv.send` raises an exception on a connection
that is not open. -/
def sendAll (isOpen : Hdl → Bool) (message : Message) (opcode : Opcode) :
    List Hdl → List (Send Hdl) × Bool
  | [] => ([], false)
  | hdl :: hdls =>
    if isOpen hdl then
      let (sends, raised) := sendAll isOpen message opcode hdls
      (⟨hdl, message, opcode⟩ :: sends, raised)
    else ([], true)

/-- The lookup of the sender is in the snapshot, which is what is sent to. -/
def messageHandler (s : WebsocketServer Hdl) (isOpen : Hdl → Bool) (hdl : Hdl) (msg : WsMessage)
    (now : Time) : Broadcast Hdl :=
  let (user, snapshot) := subscript s.connUserMap hdl
  let message : Message := ⟨user, msg.payload, now⟩
  let (sends, raised) := sendAll isOpen message msg.opcode snapshot.keys
  ⟨message, sends, raised⟩

def closeHandler (s : WebsocketServer Hdl) (hdl : Hdl) : WebsocketServer Hdl × Event :=
  let (user, connUserMap) := subscript s.connUserMap hdl
  ({ s with
     connUserMap := connUserMap.erase hdl
     usernames := s.usernames.erase user.username }, .connectionClosed user)

def failHandler (s : WebsocketServer Hdl) (hdl : Hdl) : WebsocketServer Hdl × Event :=
  let (user, valMap) := subscript s.valMap hdl
  ({ s with valMap := valMap.erase hdl }, .connectionFailed user)

/-- The connection that `DisconnectUser` calls `srv.close` on: the first of the map whose user
equals the one of the event. -/
def disconnectUser (s : WebsocketServer Hdl) (user : User) : Option Hdl :=
  (s.connUserMap.toList.find? fun e => e.2.operatorEq user).map Prod.fst

/-- The registry after a handler; `MessageHandler` works on a copy. -/
def serve (s : WebsocketServer Hdl) (now : Time) : Call Hdl → WebsocketServer Hdl
  | .validateHandler hdl req => (s.validateHandler hdl req).1
  | .openHandler hdl => (s.openHandler hdl now).1
  | .messageHandler _ _ => s
  | .closeHandler hdl => (s.closeHandler hdl).1
  | .failHandler hdl => (s.failHandler hdl).1

/-- The event a handler sends; `MessageHandler` sends it before its loop. -/
def sentEvent (s : WebsocketServer Hdl) (now : Time) : Call Hdl → Option Event
  | .validateHandler _ _ => none
  | .openHandler hdl => some (s.openHandler hdl now).2
  | .messageHandler hdl msg =>
    some (.newMessage ⟨(subscript s.connUserMap hdl).1, msg.payload, now⟩)
  | .closeHandler hdl => some (s.closeHandler hdl).2
  | .failHandler hdl => some (s.failHandler hdl).2

/-- The answer of `ValidateHandler`; the other handlers give none. -/
def answer (s : WebsocketServer Hdl) : Call Hdl → Bool
  | .validateHandler hdl req => (s.validateHandler hdl req).2
  | _ => false

/-! ## The handlers within their life cycle -/

theorem validateHandler_snd {s : WebsocketServer Hdl} {hdl : Hdl} {req : Request} :
    (s.validateHandler hdl req).2 = true ↔
      req.usernameHeader ≠ [] ∧ req.usernameHeader ∉ s.usernames := by
  show (if (getConnectionUser req).1 = .ok then
    decide ((getConnectionUser req).2.username ∉ s.usernames) else false) = true ↔ _
  by_cases h : req.usernameHeader = []
  · rw [if_neg (fun hr => getConnectionUser_ok.mp hr h)]
    simp [h]
  · rw [if_pos (getConnectionUser_ok.mpr h), decide_eq_true_iff]
    exact ⟨fun hn => ⟨h, hn⟩, And.right⟩

@[simp] theorem validateHandler_valMap (s : WebsocketServer Hdl) (hdl : Hdl) (req : Request) :
    (s.validateHandler hdl req).1.valMap =
      s.valMap.insertIfNew hdl (getConnectionUser req).2 := rfl

@[simp] theorem validateHandler_connUserMap (s : WebsocketServer Hdl) (hdl : Hdl)
    (req : Request) : (s.validateHandler hdl req).1.connUserMap = s.connUserMap := rfl

/-- The message of a connected sender is broadcast over the whole map. -/
theorem messageHandler_eq {s : WebsocketServer Hdl} {hdl : Hdl} {u : User} (isOpen : Hdl → Bool)
    (msg : WsMessage) (now : Time) (h : s.connUserMap[hdl]? = some u) :
    s.messageHandler isOpen hdl msg now =
      ⟨⟨u, msg.payload, now⟩,
        (sendAll isOpen ⟨u, msg.payload, now⟩ msg.opcode s.connUserMap.keys).1,
        (sendAll isOpen ⟨u, msg.payload, now⟩ msg.opcode s.connUserMap.keys).2⟩ := by
  simp [messageHandler, subscript_of_getElem? h]

/-- Opening a validated connection moves its user from `val_map` to `conn_user_map`, stamped. -/
theorem openHandler_eq {s : WebsocketServer Hdl} {hdl : Hdl} {u : User} (now : Time)
    (h : s.valMap[hdl]? = some u) :
    s.openHandler hdl now =
      ({ valMap := s.valMap.erase hdl
         connUserMap := s.connUserMap.insertIfNew hdl (u.setCurrentTime now)
         usernames := insert u.username s.usernames }, .connectionOpened (u.setCurrentTime now)) := by
  simp [openHandler, subscript_of_getElem? h]

/-- Closing an open connection releases its username. -/
theorem closeHandler_eq {s : WebsocketServer Hdl} {hdl : Hdl} {u : User}
    (h : s.connUserMap[hdl]? = some u) :
    s.closeHandler hdl =
      ({ s with
         connUserMap := s.connUserMap.erase hdl
         usernames := s.usernames.erase u.username }, .connectionClosed u) := by
  simp [closeHandler, subscript_of_getElem? h]

/-- The event of an opening has the stamped user of the handshake. -/
theorem sentEvent_openHandler {s : WebsocketServer Hdl} {hdl : Hdl} {u : User} (now : Time)
    (h : s.valMap[hdl]? = some u) :
    s.sentEvent now (.openHandler hdl) = some (.connectionOpened (u.setCurrentTime now)) := by
  rw [sentEvent, openHandler_eq now h]

/-- The event of a message has the connected user as its author. -/
theorem sentEvent_of_connected {s : WebsocketServer Hdl} {hdl : Hdl} {u : User} (now : Time)
    (msg : WsMessage) (h : s.connUserMap[hdl]? = some u) :
    s.sentEvent now (.messageHandler hdl msg) = some (.newMessage ⟨u, msg.payload, now⟩) := by
  rw [sentEvent, subscript_of_getElem? h]

/-- The event of a close has the user that was connected. -/
theorem sentEvent_closeHandler {s : WebsocketServer Hdl} {hdl : Hdl} {u : User} (now : Time)
    (h : s.connUserMap[hdl]? = some u) :
    s.sentEvent now (.closeHandler hdl) = some (.connectionClosed u) := by
  rw [sentEvent, closeHandler_eq h]

/-- A failed connection is dropped from `val_map`, whether it was there or not. -/
theorem failHandler_fst (s : WebsocketServer Hdl) (hdl : Hdl) :
    (s.failHandler hdl).1 = { s with valMap := s.valMap.erase hdl } := by
  have h := erase_subscript s.valMap hdl
  simp only [failHandler, h]

end WebsocketServer

end SimpleChat
