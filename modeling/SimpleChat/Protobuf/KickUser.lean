import SimpleChat.Protobuf.Runtime

/-!
# The request to kick a user

The generated class of the message `KickUser`, which the console sends and the server reads.

## Main definitions

* `KickUser`: the message
* `KickUser.serialize`, `KickUser.byteSizeLong`: its serialisation, and its size
* `KickUser.schema`: its parse loop

## Main results

* `KickUser.parseFromString_serialize`: what is serialised is read back
-/

namespace SimpleChat

namespace Protobuf

open Wire

/-- The fields of `KickUser`. -/
inductive KickUser.Field where
  | username
  deriving DecidableEq, Repr

/-- The switch of `KickUser::_InternalParse`. -/
def KickUser.switch (tag : UInt32) : Option KickUser.Field :=
  if tag >>> 3 = 1 then
    if tag.toUInt8 = 10 then some .username else none
  else none

structure KickUser (R : Runtime) where
  username : Option Bytes
  unknownFields : List (UnknownField R KickUser.switch)

namespace KickUser

variable {R : Runtime}

/-- The default instance. -/
def empty : KickUser R := ⟨none, []⟩

/-- `set_username`. -/
def setUsername (m : KickUser R) (username : Bytes) : KickUser R :=
  { m with username := some username }

def addUnknown (m : KickUser R) (u : UnknownField R switch) : KickUser R :=
  { m with unknownFields := m.unknownFields ++ [u] }

/-- The cases of the switch of `_InternalParse`. -/
def parseField : Field → KickUser R → Bytes → Option (KickUser R × Bytes)
  | .username => R.string.store setUsername

/-- `MergeImpl`. -/
def mergeFrom (m source : KickUser R) : KickUser R where
  username := source.username <|> m.username
  unknownFields := m.unknownFields ++ source.unknownFields

/-- `_InternalSerialize`. -/
def serialize (m : KickUser R) : Bytes :=
  R.writeField 10 R.string m.username ++ UnknownField.serializeAll m.unknownFields

/-- `ByteSizeLong`. -/
def byteSizeLong (m : KickUser R) : ℕ :=
  fieldSize R.string m.username + UnknownField.byteSizeAll m.unknownFields

def schema (R : Runtime) : Schema R Field (KickUser R) where
  switch := switch
  empty := empty
  parseField := parseField
  addUnknown := addUnknown
  mergeFrom := mergeFrom
  parseField_word {f m input m' rest} h := by
    cases f with
    | username => exact Codec.store_word h
  mergeFrom_empty m := by simp [mergeFrom, empty]
  parseField_mergeFrom f base m input := by
    cases f with
    | username => exact Codec.store_map (fun _ _ => by simp [mergeFrom, setUsername]) m input
  addUnknown_mergeFrom base m u := by simp [mergeFrom, addUnknown]

/-- `ParseFromString`. -/
def parseFromString (input : Bytes) : Option (KickUser R) := (schema R).parseFromString input

theorem length_serialize (m : KickUser R) : m.serialize.length = m.byteSizeLong := by
  rw [serialize, List.length_append, R.length_writeField (by decide),
    UnknownField.length_serializeAll, byteSizeLong]

theorem foldl_addUnknown (us : List (UnknownField R switch)) (m : KickUser R) :
    us.foldl addUnknown m = { m with unknownFields := m.unknownFields ++ us } := by
  induction us generalizing m with
  | nil => simp
  | cons u us ih => simp [ih, addUnknown]

/-- **What is serialised is read back**, with all unknown fields. -/
theorem parseFromString_serialize (m : KickUser R) (h : m.byteSizeLong ≤ R.maxSize) :
    parseFromString m.serialize = some m := by
  rw [byteSizeLong] at h
  have hunknown : UnknownField.byteSizeAll m.unknownFields ≤ R.maxSize := by omega
  refine Schema.parseWhole_eq_some.mpr ?_
  rw [serialize, Schema.internalParse_writeField (f := Field.username) rfl rfl
    (R.string_writable_of_fieldSize (by omega))]
  refine (Schema.internalParse_unknownFields (S := schema R) hunknown _).trans ?_
  obtain ⟨username, unknownFields⟩ := m
  cases username <;> simp [schema, foldl_addUnknown, empty, setUsername]

end KickUser

end Protobuf

end SimpleChat
