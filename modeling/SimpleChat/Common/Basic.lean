import SimpleChat.Containers.OrderedMap

/-!
# Users and messages

The data every component of the server shares: the return codes, the users and the chat
messages.

## Main definitions

* `ReturnType`: the return codes
* `User`: a user, with the time it joined once `User.setCurrentTime` has set it
* `Message`: a chat message, with its author and the time it was stamped
* `UserMap`, `UserSet`: containers of users, ordered by username
-/

namespace SimpleChat

/-- `std::string`: a sequence of bytes. -/
abbrev Bytes := List UInt8

/-- The bytes of an ASCII literal. -/
def bytes (s : String) : Bytes := s.toList.map fun c => c.toNat.toUInt8

/-- `time_t`: seconds since the epoch. -/
abbrev Time := ℤ

/-- `eReturnType_t`. -/
inductive ReturnType where
  | ok
  | notOk
  | receiverExists
  | receiverNotExists
  | eventIdInvalid
  | noReceiversForEvent
  | usernameHeaderMissing
  | invalid
  deriving DecidableEq, Repr

/-- A user. No constructor of the source initialises the joined timestamp: it is `none` until
`setCurrentTime`. -/
structure User where
  username : Bytes
  ip : Bytes
  port : UInt32
  joinedTimestamp : Option Time
  deriving DecidableEq, Repr

namespace User

/-- `User()`. -/
instance : Inhabited User := ⟨⟨[], [], 0, none⟩⟩

/-- `User(username)`. -/
def ofUsername (username : Bytes) : User := ⟨username, [], 0, none⟩

/-- `User(username, ip, port)`. -/
def ofConnection (username ip : Bytes) (port : UInt32) : User := ⟨username, ip, port, none⟩

def setCurrentTime (u : User) (now : Time) : User := { u with joinedTimestamp := some now }

/-- `operator==`: users are compared by name only. -/
def operatorEq (u v : User) : Bool := u.username == v.username

@[simp] theorem operatorEq_iff {u v : User} : u.operatorEq v = true ↔ u.username = v.username := by
  simp [operatorEq]

@[simp] theorem setCurrentTime_username (u : User) (now : Time) :
    (u.setCurrentTime now).username = u.username := rfl

end User

/-- A `std::map` over users, under `User::operator<`: users are ordered by name. -/
abbrev UserMap (β : Type) := Containers.KeyedMap User.username β

/-- `std::set<User>`. -/
abbrev UserSet := UserMap Unit

/-- The user is stored in the map, with all its fields. -/
def UserStored {β : Type} (m : UserMap β) (u : User) : Prop :=
  ∃ b, m.find? u.username = some (u, b)

/-- A chat message. -/
structure Message where
  user : User
  text : Bytes
  msgTimestamp : Time
  deriving DecidableEq, Repr

end SimpleChat
