import SimpleChat.Protobuf.WireFormat
import Mathlib.Algebra.Order.BigOperators.Group.List

/-!
# The connected users

The generated classes of the messages `User` and `ConnectedUsers`, in which the server sends the
connected users to the console. The parse loop of `ConnectedUsers` has a fast path: as long as the
buffer has data, users that follow each other are read without a turn of the loop for each.

## Main definitions

* `User`, `ConnectedUsers`: the messages
* `User.serialize`, `ConnectedUsers.serialize`: their serialisations, with the size of each user
  before it
* `User.schema`, `ConnectedUsers.schema`: their parse loops, without the fast path
* `ConnectedUsers.parseFromString`: the parse loop with the fast path

## Main results

* `User.parseFromString_serialize`, `ConnectedUsers.round_trip`: what is serialised is read back
* `ConnectedUsers.parseFromString_eq`, `ConnectedUsers.parseFromString_buffers`: the fast path, and
  where the buffers end, make no difference
* `ConnectedUsers.concatenation_is_merged`: one text after another is merged into its message
-/

namespace SimpleChat

namespace Protobuf

open Wire

/-! ## A user -/

/-- The fields of `User`. -/
inductive User.Field where
  | username
  | ip
  | port
  | joinedTimestamp
  deriving DecidableEq, Repr

/-- The switch of `User::_InternalParse`. -/
def User.switch (tag : UInt32) : Option User.Field :=
  if tag >>> 3 = 1 then
    if tag.toUInt8 = 10 then some .username else none
  else if tag >>> 3 = 2 then
    if tag.toUInt8 = 18 then some .ip else none
  else if tag >>> 3 = 3 then
    if tag.toUInt8 = 24 then some .port else none
  else if tag >>> 3 = 4 then
    if tag.toUInt8 = 32 then some .joinedTimestamp else none
  else none

structure User (R : Runtime) where
  username : Option Bytes
  ip : Option Bytes
  port : Option UInt32
  joinedTimestamp : Option UInt64
  unknownFields : List (UnknownField R User.switch)

namespace User

variable {R : Runtime}

/-- The default instance. -/
def empty : User R := ⟨none, none, none, none, []⟩

/-- `set_username`. -/
def setUsername (m : User R) (username : Bytes) : User R := { m with username := some username }

/-- `set_ip`. -/
def setIp (m : User R) (ip : Bytes) : User R := { m with ip := some ip }

/-- `set_port`. -/
def setPort (m : User R) (port : UInt32) : User R := { m with port := some port }

/-- `set_joined_timestamp`. -/
def setJoinedTimestamp (m : User R) (timestamp : UInt64) : User R :=
  { m with joinedTimestamp := some timestamp }

def addUnknown (m : User R) (u : UnknownField R switch) : User R :=
  { m with unknownFields := m.unknownFields ++ [u] }

/-- The cases of the switch of `_InternalParse`. -/
def parseField : Field → User R → Bytes → Option (User R × Bytes)
  | .username => R.string.store setUsername
  | .ip => R.string.store setIp
  | .port => R.varint32.store setPort
  | .joinedTimestamp => R.varint64.store setJoinedTimestamp

/-- `MergeImpl`. -/
def mergeFrom (m source : User R) : User R where
  username := source.username <|> m.username
  ip := source.ip <|> m.ip
  port := source.port <|> m.port
  joinedTimestamp := source.joinedTimestamp <|> m.joinedTimestamp
  unknownFields := m.unknownFields ++ source.unknownFields

/-- `_InternalSerialize`. -/
def serialize (m : User R) : Bytes :=
  R.writeField 10 R.string m.username ++ (R.writeField 18 R.string m.ip ++
    (R.writeField 24 R.varint32 m.port ++ (R.writeField 32 R.varint64 m.joinedTimestamp ++
      UnknownField.serializeAll m.unknownFields)))

/-- `ByteSizeLong`. -/
def byteSizeLong (m : User R) : ℕ :=
  fieldSize R.string m.username + fieldSize R.string m.ip +
    fieldSize R.varint64 m.joinedTimestamp + fieldSize R.varint32 m.port +
    UnknownField.byteSizeAll m.unknownFields

def schema (R : Runtime) : Schema R Field (User R) where
  switch := switch
  empty := empty
  parseField := parseField
  addUnknown := addUnknown
  mergeFrom := mergeFrom
  parseField_word {f m input m' rest} h := by
    cases f <;> exact Codec.store_word h
  mergeFrom_empty m := by simp [mergeFrom, empty]
  parseField_mergeFrom f base m input := by
    cases f with
    | username => exact Codec.store_map (fun _ _ => by simp [mergeFrom, setUsername]) m input
    | ip => exact Codec.store_map (fun _ _ => by simp [mergeFrom, setIp]) m input
    | port => exact Codec.store_map (fun _ _ => by simp [mergeFrom, setPort]) m input
    | joinedTimestamp =>
      exact Codec.store_map (fun _ _ => by simp [mergeFrom, setJoinedTimestamp]) m input
  addUnknown_mergeFrom base m u := by simp [mergeFrom, addUnknown]

/-- `ParseFromString`. -/
def parseFromString (input : Bytes) : Option (User R) := (schema R).parseFromString input

theorem length_serialize (m : User R) : m.serialize.length = m.byteSizeLong := by
  simp only [serialize, List.length_append, UnknownField.length_serializeAll, byteSizeLong]
  rw [R.length_writeField (by decide), R.length_writeField (by decide),
    R.length_writeField (by decide), R.length_writeField (by decide)]
  omega

theorem foldl_addUnknown (us : List (UnknownField R switch)) (m : User R) :
    us.foldl addUnknown m = { m with unknownFields := m.unknownFields ++ us } := by
  induction us generalizing m with
  | nil => simp
  | cons u us ih => simp [ih, addUnknown]

/-- What is serialised is read back, with all unknown fields. -/
theorem parseFromString_serialize (m : User R) (h : m.byteSizeLong ≤ R.maxSize) :
    parseFromString m.serialize = some m := by
  rw [byteSizeLong] at h
  have hunknown : UnknownField.byteSizeAll m.unknownFields ≤ R.maxSize := by omega
  refine Schema.parseWhole_eq_some.mpr ?_
  rw [serialize,
    Schema.internalParse_writeField (f := Field.username) rfl rfl
      (R.string_writable_of_fieldSize (by omega)),
    Schema.internalParse_writeField (f := Field.ip) rfl rfl
      (R.string_writable_of_fieldSize (by omega)),
    Schema.internalParse_writeField (f := Field.port) rfl rfl fun n _ => R.varint32_writable n,
    Schema.internalParse_writeField (f := Field.joinedTimestamp) rfl rfl
      fun n _ => R.varint64_writable n]
  refine (Schema.internalParse_unknownFields (S := schema R) hunknown _).trans ?_
  obtain ⟨username, ip, port, joinedTimestamp, unknownFields⟩ := m
  cases username <;> cases ip <;> cases port <;> cases joinedTimestamp <;>
    simp [schema, foldl_addUnknown, empty, setUsername, setIp, setPort, setJoinedTimestamp]

/-- `ParseMessage` and `InternalWriteMessage`: a user after its size. -/
def codec (R : Runtime) : Codec UInt8 (User R) :=
  Codec.sized R.size serialize parseFromString (fun m => m.byteSizeLong ≤ R.maxSize)
    parseFromString_serialize

theorem codec_writable {m : User R} (h : m.byteSizeLong ≤ R.maxSize) : (codec R).Writable m := by
  refine ⟨h, R.size_writable _ ?_⟩
  rwa [length_serialize]

end User

/-! ## The users -/

/-- The fields of `ConnectedUsers`. -/
inductive ConnectedUsers.Field where
  | users
  deriving DecidableEq, Repr

/-- The switch of `ConnectedUsers::_InternalParse`. -/
def ConnectedUsers.switch (tag : UInt32) : Option ConnectedUsers.Field :=
  if tag >>> 3 = 1 then
    if tag.toUInt8 = 10 then some .users else none
  else none

structure ConnectedUsers (R : Runtime) where
  users : List (User R)
  unknownFields : List (UnknownField R ConnectedUsers.switch)

namespace ConnectedUsers

variable {R : Runtime}

/-- The default instance. -/
def empty : ConnectedUsers R := ⟨[], []⟩

/-- `add_users`, with the user that it adds. -/
def addUsers (m : ConnectedUsers R) (user : User R) : ConnectedUsers R :=
  { m with users := m.users ++ [user] }

def addUnknown (m : ConnectedUsers R) (u : UnknownField R switch) : ConnectedUsers R :=
  { m with unknownFields := m.unknownFields ++ [u] }

/-- The case of the switch of `_InternalParse`, for one user. -/
def parseField : Field → ConnectedUsers R → Bytes → Option (ConnectedUsers R × Bytes)
  | .users => (User.codec R).store addUsers

/-- `MergeImpl`. -/
def mergeFrom (m source : ConnectedUsers R) : ConnectedUsers R where
  users := m.users ++ source.users
  unknownFields := m.unknownFields ++ source.unknownFields

/-- A user with its tag and the size that `ByteSizeLong` left in it. -/
def writeUser (user : User R) : Bytes :=
  R.tag.write 10 ++ (R.size.write user.byteSizeLong ++ user.serialize)

/-- `_InternalSerialize`. -/
def serialize (m : ConnectedUsers R) : Bytes :=
  m.users.flatMap writeUser ++ UnknownField.serializeAll m.unknownFields

/-- `ByteSizeLong`. -/
def byteSizeLong (m : ConnectedUsers R) : ℕ :=
  m.users.length +
    (m.users.map fun user => R.size.size user.byteSizeLong + user.byteSizeLong).sum +
    UnknownField.byteSizeAll m.unknownFields

/-- The class without the fast path of its parse loop. -/
def schema (R : Runtime) : Schema R Field (ConnectedUsers R) where
  switch := switch
  empty := empty
  parseField := parseField
  addUnknown := addUnknown
  mergeFrom := mergeFrom
  parseField_word {f m input m' rest} h := by
    cases f with
    | users => exact Codec.store_word h
  mergeFrom_empty m := by simp [mergeFrom, empty]
  parseField_mergeFrom f base m input := by
    cases f with
    | users => exact Codec.store_map (fun _ _ => by simp [mergeFrom, addUsers]) m input
  addUnknown_mergeFrom base m u := by simp [mergeFrom, addUnknown]

/-! ## The fast path -/

/-- The loop of the case `users`, from the input after a tag: a user is read, and while the buffer
has data and the next byte is the tag of a user, another one. -/
def parseUsers (dataAvailable : Bytes → Bool) :
    ℕ → ConnectedUsers R → Bytes → Option (ConnectedUsers R × Bytes)
  | 0, _, _ => none
  | fuel + 1, m, input =>
    match (User.codec R).read input with
    | none => none
    | some (user, rest) =>
      if dataAvailable rest then
        match rest with
        | 10 :: rest' => parseUsers dataAvailable fuel (m.addUsers user) rest'
        | _ => some (m.addUsers user, rest)
      else some (m.addUsers user, rest)

/-- A turn of the loop of `_InternalParse`. -/
def turn (dataAvailable : Bytes → Bool) (m : ConnectedUsers R) (input : Bytes) :
    Option (Turn UInt8 (ConnectedUsers R) UInt32) :=
  match R.tag.read input with
  | none => none
  | some (tag, rest) =>
    match h : switch tag with
    | some .users =>
      (parseUsers dataAvailable rest.length m rest).map fun x => .next x.1 x.2
    | none => (schema R).handleUnusual m tag h rest

/-- `ParseFromString`. Where the buffers of the input end is not known here. -/
def parseFromString (dataAvailable : Bytes → Bool) (input : Bytes) : Option (ConnectedUsers R) :=
  endedAtLimit (readRecords (turn dataAvailable) input.length empty input)

variable {dataAvailable : Bytes → Bool}

/-- The tag of a user is the byte 10. -/
theorem read_tag_users (R : Runtime) (rest : Bytes) : R.tag.read (10 :: rest) = some (10, rest) := by
  have h := R.tag.read_write (R.tag_writable 10) rest
  rwa [R.tag_write_of_lt 10 (by decide)] at h

/-- Without the fast path, a user is read in a turn. -/
theorem internalParse_users {tag : UInt32} {m : ConnectedUsers R} {b : UInt8} {input rest : Bytes}
    (htag : R.tag.read (b :: input) = some (tag, rest)) (h : switch tag = some .users) :
    (schema R).internalParse m (b :: input) =
      ((User.codec R).read rest).bind fun x => (schema R).internalParse (m.addUsers x.1) x.2 := by
  have hturn : (schema R).turn m (b :: input) =
      ((User.codec R).read rest).map fun x => .next (m.addUsers x.1) x.2 := by
    rw [Schema.turn, htag, Option.bind_some, Schema.fieldTurn_of_some (S := schema R) h]
    simp [schema, parseField, Codec.store, Function.comp_def]
  cases hread : (User.codec R).read rest with
  | none =>
    rw [hread] at hturn
    exact Reader.read_of_none hturn
  | some x =>
    rw [hread] at hturn
    exact Reader.read_of_next hturn

theorem length_parseUsers_le {k : ℕ} {m m' : ConnectedUsers R} {input rest : Bytes}
    (h : parseUsers dataAvailable k m input = some (m', rest)) : rest.length ≤ input.length := by
  induction k generalizing m input with
  | zero => cases h
  | succ k ih =>
    rw [parseUsers] at h
    split at h
    · cases h
    · next user r hread =>
      have hlt := Codec.length_rest_lt hread
      split at h
      · split at h
        · next r' =>
          have := ih h
          rw [List.length_cons] at hlt
          omega
        · obtain ⟨-, rfl⟩ := Prod.mk.inj (Option.some.inj h)
          exact hlt.le
      · obtain ⟨-, rfl⟩ := Prod.mk.inj (Option.some.inj h)
        exact hlt.le

/-- The loop of the case `users` and what comes after it read as the turns for each user do. -/
theorem bind_parseUsers (dataAvailable : Bytes → Bool) {k : ℕ} {m : ConnectedUsers R}
    {input : Bytes} (h : input.length ≤ k) :
    ((parseUsers dataAvailable k m input).bind fun x => (schema R).internalParse x.1 x.2) =
      ((User.codec R).read input).bind fun x =>
        (schema R).internalParse (m.addUsers x.1) x.2 := by
  induction k generalizing m input with
  | zero =>
    obtain rfl := List.eq_nil_of_length_eq_zero (Nat.le_zero.mp h)
    rw [Codec.read_nil]
    rfl
  | succ k ih =>
    rw [parseUsers]
    cases hread : (User.codec R).read input with
    | none => rfl
    | some x =>
      obtain ⟨user, rest⟩ := x
      have hlt := Codec.length_rest_lt hread
      rw [Option.bind_some]
      simp only
      split
      · split
        · next rest' _ =>
          rw [List.length_cons] at hlt
          rw [internalParse_users (read_tag_users R rest') rfl]
          exact ih (by omega)
        · rfl
      · rfl

/-- A turn differs from one without the fast path only at the tag of a user. -/
theorem turn_cases (dataAvailable : Bytes → Bool) (m : ConnectedUsers R) (input : Bytes) :
    turn dataAvailable m input = (schema R).turn m input ∨
      ∃ tag rest, R.tag.read input = some (tag, rest) ∧ switch tag = some .users ∧
        turn dataAvailable m input =
          (parseUsers dataAvailable rest.length m rest).map fun x => .next x.1 x.2 := by
  unfold turn
  split
  · next htag =>
    left
    rw [Schema.turn, htag, Option.bind_none]
  · next tag rest htag =>
    split
    · next h => exact .inr ⟨tag, rest, htag, h, rfl⟩
    · next h =>
      left
      rw [Schema.turn, htag, Option.bind_some, Schema.fieldTurn_of_none (S := schema R) h]

/-- The fast path makes no difference. -/
theorem parseFromString_eq (dataAvailable : Bytes → Bool) (input : Bytes) :
    parseFromString dataAvailable input = (schema R).parseFromString input := by
  have hread : readRecords (turn dataAvailable) input.length empty input =
      (schema R).internalParse empty input := by
    apply Reader.readRecords_eq_read_of_turns _ _ _ le_rfl
    · intro m b input hturn
      rcases turn_cases dataAvailable m (b :: input) with heq | ⟨tag, rest, htag, h, heq⟩
      · exact Reader.read_of_none (heq.symm.trans hturn)
      · -- the loop over users fails exactly where the turns for them do
        have hnone := Option.map_eq_none_iff.mp (heq.symm.trans hturn)
        have hbind := bind_parseUsers dataAvailable (m := m) (le_refl rest.length)
        rw [hnone, Option.bind_none] at hbind
        exact (internalParse_users htag h).trans hbind.symm
    · intro m b input m' reason hturn
      rcases turn_cases dataAvailable m (b :: input) with heq | ⟨tag, rest, htag, h, heq⟩
      · exact Reader.read_of_stop (heq.symm.trans hturn)
      · obtain ⟨x, -, hx⟩ := Option.map_eq_some_iff.mp (heq.symm.trans hturn)
        cases hx
    · intro m b input m' rest' hturn
      rcases turn_cases dataAvailable m (b :: input) with heq | ⟨tag, rest, htag, h, heq⟩
      · have hplain := heq.symm.trans hturn
        exact ⟨Nat.le_of_lt_succ (Reader.length_rest_lt (r := (schema R).reader) hplain),
          Reader.read_of_next hplain⟩
      · -- one turn stands for the turns of all the users it reads
        obtain ⟨⟨m₁, r⟩, hx, hnext⟩ := Option.map_eq_some_iff.mp (heq.symm.trans hturn)
        obtain ⟨rfl, rfl⟩ := Turn.next.inj hnext
        have hlt := Codec.length_rest_lt htag
        have hle := length_parseUsers_le hx
        have hbind := bind_parseUsers dataAvailable (m := m) (le_refl rest.length)
        rw [hx, Option.bind_some] at hbind
        rw [List.length_cons] at hlt
        exact ⟨le_trans hle (Nat.le_of_lt_succ hlt), (internalParse_users htag h).trans hbind.symm⟩
  rw [parseFromString, hread]
  rfl

/-- **Where the buffers of the input end makes no difference.** -/
theorem parseFromString_buffers (dataAvailable dataAvailable' : Bytes → Bool) (input : Bytes) :
    (parseFromString dataAvailable input : Option (ConnectedUsers R)) =
      parseFromString dataAvailable' input := by
  rw [parseFromString_eq, parseFromString_eq]

/-! ## Round trip -/

theorem writeUser_eq (user : User R) :
    writeUser user = R.tag.write 10 ++ (User.codec R).write user := by
  rw [writeUser, ← User.length_serialize]
  rfl

theorem length_writeUser (user : User R) :
    (writeUser user).length = 1 + (R.size.size user.byteSizeLong + user.byteSizeLong) := by
  simp [writeUser, User.length_serialize, Codec.size, R.tag_write_of_lt 10 (by decide)]
  omega

theorem length_serialize (m : ConnectedUsers R) : m.serialize.length = m.byteSizeLong := by
  obtain ⟨users, unknownFields⟩ := m
  simp only [serialize, byteSizeLong, List.length_append, UnknownField.length_serializeAll]
  congr 1
  induction users with
  | nil => rfl
  | cons user users ih =>
    rw [List.flatMap_cons, List.length_append, ih, length_writeUser]
    simp only [List.map_cons, List.sum_cons, List.length_cons]
    omega

theorem internalParse_writeUser {user : User R} (h : user.byteSizeLong ≤ R.maxSize)
    (m : ConnectedUsers R) (rest : Bytes) :
    (schema R).internalParse m (writeUser user ++ rest) =
      (schema R).internalParse (m.addUsers user) rest := by
  rw [writeUser_eq]
  refine Schema.internalParse_known (f := Field.users) rfl ?_
  exact Codec.store_write (User.codec_writable h) m rest

theorem internalParse_writeUsers {users : List (User R)}
    (h : ∀ user ∈ users, user.byteSizeLong ≤ R.maxSize) (m : ConnectedUsers R) (rest : Bytes) :
    (schema R).internalParse m (users.flatMap writeUser ++ rest) =
      (schema R).internalParse { m with users := m.users ++ users } rest := by
  induction users generalizing m with
  | nil => simp
  | cons user users ih =>
    obtain ⟨huser, husers⟩ := List.forall_mem_cons.mp h
    rw [List.flatMap_cons, List.append_assoc, internalParse_writeUser huser, ih husers]
    simp [addUsers]

theorem foldl_addUnknown (us : List (UnknownField R switch)) (m : ConnectedUsers R) :
    us.foldl addUnknown m = { m with unknownFields := m.unknownFields ++ us } := by
  induction us generalizing m with
  | nil => simp
  | cons u us ih => simp [ih, addUnknown]

/-- A user is no larger than the message. -/
theorem byteSizeLong_le {m : ConnectedUsers R} {user : User R} (h : user ∈ m.users) :
    user.byteSizeLong ≤ m.byteSizeLong := by
  have hle := List.le_sum_of_mem (List.mem_map_of_mem
    (f := fun user => R.size.size user.byteSizeLong + user.byteSizeLong) h)
  rw [byteSizeLong]
  omega

theorem parseFromString_serialize (dataAvailable : Bytes → Bool) (m : ConnectedUsers R)
    (h : m.byteSizeLong ≤ R.maxSize) : parseFromString dataAvailable m.serialize = some m := by
  have husers : ∀ user ∈ m.users, user.byteSizeLong ≤ R.maxSize := fun user hmem =>
    le_trans (byteSizeLong_le hmem) h
  have hunknown : UnknownField.byteSizeAll m.unknownFields ≤ R.maxSize :=
    le_trans (Nat.le_add_left _ _) h
  rw [parseFromString_eq]
  refine Schema.parseWhole_eq_some.mpr ?_
  rw [serialize, internalParse_writeUsers husers]
  refine (Schema.internalParse_unknownFields (S := schema R) hunknown _).trans ?_
  simp [schema, foldl_addUnknown, empty]

/-- **What is serialised has the size that is announced, and is read back**: every user with all
fields, set or not, and the fields that are not known. -/
theorem round_trip (dataAvailable : Bytes → Bool) (m : ConnectedUsers R)
    (h : m.byteSizeLong ≤ R.maxSize) :
    m.serialize.length = m.byteSizeLong ∧ parseFromString dataAvailable m.serialize = some m :=
  ⟨length_serialize m, parseFromString_serialize dataAvailable m h⟩

/-- A user without a port, and with a field that is not known. -/
def sampleUser : User wireFormat where
  username := some (bytes "bob")
  ip := some (bytes "::1")
  port := none
  joinedTimestamp := some 1700000000
  unknownFields := [⟨40, (300 : UInt64), rfl, by decide⟩]

/-- The sample user, twice. -/
def sample : ConnectedUsers wireFormat := ⟨[sampleUser, sampleUser], []⟩

theorem round_trip_sample : sample.serialize.length = sample.byteSizeLong ∧
    parseFromString (fun _ => true) sample.serialize = some sample :=
  round_trip _ sample (by decide)

/-- **One text after another is merged into its message**: the users follow each other. -/
theorem concatenation_is_merged {dataAvailable : Bytes → Bool} {a : Bytes} {m : ConnectedUsers R}
    (h : parseFromString dataAvailable a = some m) (b : Bytes) :
    parseFromString dataAvailable (a ++ b) =
      (parseFromString dataAvailable b).map (mergeFrom m) := by
  rw [parseFromString_eq] at h
  rw [parseFromString_eq, parseFromString_eq, Schema.parseFromString_append h]
  rfl

theorem concatenated_ports :
    parseFromString (R := wireFormat) (fun _ => true) ([10, 2, 24, 5] ++ [10, 2, 24, 6]) =
      (parseFromString (fun _ => true) [10, 2, 24, 6]).map
        (mergeFrom ⟨[User.empty.setPort 5], []⟩) :=
  concatenation_is_merged rfl [10, 2, 24, 6]

end ConnectedUsers

end Protobuf

end SimpleChat
