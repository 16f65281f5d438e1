import SimpleChat.AdminClient.ConsoleApp
import SimpleChat.ClientMgr.Handlers
import SimpleChat.Protobuf.ConnectedUsers
import SimpleChat.Protobuf.KickUser

/-!
# The handlers of the REST server

The body of the answer to `/get_users`, and the event that the body of a request to `/kick_user`
leads to.

## Main definitions

* `ClientMgr.getUsers`: the users that `GET_USERS` reports
* `RestServer.handlerGetUsers`, `RestServer.handlerKickUserBody`: the handlers
-/

namespace SimpleChat

open Protobuf

/-- `GetUsers`: the users are copied. -/
def ClientMgr.getUsers (c : ClientMgr) : UserSet := c.users

namespace RestServer

variable {R : Runtime}

/-- What `Handler_GetUsers` adds for a user. An object that was not stamped holds any timestamp
`unset`; the cast to `uint64_t` is modulo 2^64. -/
def userMessage (R : Runtime) (unset : Time) (u : User) : Protobuf.User R :=
  (((Protobuf.User.empty.setUsername u.username).setIp u.ip).setPort u.port).setJoinedTimestamp
    (UInt64.ofInt (u.joinedTimestamp.getD unset))

/-- The loop of `Handler_GetUsers` over the users. -/
def usersMessage (R : Runtime) (unset : Time) (users : UserSet) : ConnectedUsers R :=
  users.toList.foldl (fun m e => m.addUsers (userMessage R unset e.1)) ConnectedUsers.empty

/-- The body that `Handler_GetUsers` answers with. -/
def handlerGetUsers (R : Runtime) (unset : Time) (users : UserSet) : Bytes :=
  (usersMessage R unset users).serialize

/-- The event that `Handler_KickUser` sends. The result of `ParseFromString` is not looked at; where
it fails, the message holds what it left there. -/
def handlerKickUserBody (leftover : Bytes → KickUser R) (body : Bytes) : Event :=
  handlerKickUser ⟨((KickUser.parseFromString body).getD (leftover body)).username⟩

theorem foldl_addUsers {α : Type} (f : α → Protobuf.User R) (as : List α) (m : ConnectedUsers R) :
    as.foldl (fun m a => m.addUsers (f a)) m = { m with users := m.users ++ as.map f } := by
  induction as generalizing m with
  | nil => simp
  | cons a as ih =>
    rw [List.foldl_cons, ih]
    simp [ConnectedUsers.addUsers]

theorem users_usersMessage (unset : Time) (users : UserSet) :
    (usersMessage R unset users).users =
      users.toList.map fun e => userMessage R unset e.1 := by
  rw [usersMessage, foldl_addUsers]
  rfl

/-- What the console serialises is the event that it means. -/
theorem handlerKickUserBody_serialize (leftover : Bytes → KickUser R) (message : KickUser R)
    (h : message.byteSizeLong ≤ R.maxSize) :
    handlerKickUserBody leftover message.serialize = handlerKickUser ⟨message.username⟩ := by
  rw [handlerKickUserBody, KickUser.parseFromString_serialize message h, Option.getD_some]

end RestServer

end SimpleChat
