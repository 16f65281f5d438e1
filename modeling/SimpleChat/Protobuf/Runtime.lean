import SimpleChat.Common.Basic
import SimpleChat.Wire.Records
import SimpleChat.Wire.Varint

/-!
# Generated message classes

The code that `protoc` generates for a message reads tag by tag: the fields that it knows, and the
unknown ones, which it keeps. How tags, numbers, sizes and unknown fields are encoded is left to the
protobuf library, which is a parameter here.

## Main definitions

* `Runtime`: what the generated code calls of the library
* `UnknownField`: a field that a message does not know
* `Schema`: what differs from one generated class to another
* `Schema.internalParse`, `Schema.parseFromString`: the parse loop, and the parse of a whole text

## Main results

* `Schema.internalParse_known`, `Schema.internalParse_unknownFields`: the loop reads what is written
* `Schema.parseFromString_append`: a text after another is merged into the message of the other
-/

namespace SimpleChat

namespace Protobuf

open Wire

/-- What the generated code calls of the library. -/
structure Runtime where
  /-- `ReadTag`, and the tags as they are written. -/
  tag : Codec UInt8 UInt32
  /-- `ReadSize`, and the sizes as they are written. -/
  size : Codec UInt8 ℕ
  /-- `ReadVarint32`. -/
  varint32 : Codec UInt8 UInt32
  /-- `ReadVarint64`. -/
  varint64 : Codec UInt8 UInt64
  /-- The values of unknown fields with a tag. -/
  Payload : UInt32 → Type
  /-- `UnknownFieldParse`, and `InternalSerializeUnknownFieldsToArray`. -/
  payload : ∀ t, Codec UInt8 (Payload t)
  /-- The sizes up to which the library reads and writes. -/
  maxSize : ℕ
  tag_writable : ∀ t, tag.Writable t
  /-- A tag below 128 is a byte, as `ExpectTag` has it. -/
  tag_write_of_lt : ∀ t, t < 128 → tag.write t = [t.toUInt8]
  size_writable : ∀ n ≤ maxSize, size.Writable n
  varint32_writable : ∀ n, varint32.Writable n
  varint64_writable : ∀ n, varint64.Writable n
  payload_writable : ∀ t p, (payload t).size p ≤ maxSize → (payload t).Writable p

/-- `InlineGreedyStringParser`, and the strings as they are written. -/
def Runtime.string (R : Runtime) : Codec UInt8 Bytes := Codec.delimited R.size

theorem Runtime.string_writable (R : Runtime) {text : Bytes} (h : text.length ≤ R.maxSize) :
    R.string.Writable text :=
  Codec.delimited_writable.mpr (R.size_writable _ h)

/-- An optional field, if its has-bit is set. -/
def Runtime.writeField (R : Runtime) {α : Type} (tag : UInt32) (c : Codec UInt8 α)
    (field : Option α) : Bytes :=
  field.elim [] fun a => R.tag.write tag ++ c.write a

/-- The size of an optional field whose tag is one byte, if its has-bit is set. -/
def fieldSize {α : Type} (c : Codec UInt8 α) (field : Option α) : ℕ :=
  field.elim 0 fun a => 1 + c.size a

theorem Runtime.length_writeField (R : Runtime) {α : Type} {tag : UInt32} (h : tag < 128)
    (c : Codec UInt8 α) (field : Option α) :
    (R.writeField tag c field).length = fieldSize c field := by
  cases field with
  | none => rfl
  | some a => simp [writeField, fieldSize, Codec.size, R.tag_write_of_lt tag h, Nat.add_comm]

theorem Runtime.string_writable_of_fieldSize (R : Runtime) {field : Option Bytes}
    (h : fieldSize R.string field ≤ R.maxSize) : ∀ text ∈ field, R.string.Writable text := by
  rintro text rfl
  rw [fieldSize, Option.elim_some, string, Codec.size_delimited] at h
  exact R.string_writable (by omega)

/-- A tag that ends a message: the zero tag and the tags of the ends of groups. -/
def EndTag (t : UInt32) : Prop := t = 0 ∨ t &&& 7 = 4

instance decidableEndTag (t : UInt32) : Decidable (EndTag t) :=
  inferInstanceAs (Decidable (t = 0 ∨ t &&& 7 = 4))

/-- A field for whose tag the switch of a message has no case. -/
structure UnknownField (R : Runtime) {φ : Type} (switch : UInt32 → Option φ) where
  tag : UInt32
  payload : R.Payload tag
  unusual : switch tag = none
  not_end : ¬ EndTag tag

namespace UnknownField

variable {R : Runtime} {φ : Type} {switch : UInt32 → Option φ}

def serialize (u : UnknownField R switch) : Bytes :=
  R.tag.write u.tag ++ (R.payload u.tag).write u.payload

/-- `ComputeUnknownFieldsSize`, of one field. -/
def byteSize (u : UnknownField R switch) : ℕ :=
  R.tag.size u.tag + (R.payload u.tag).size u.payload

theorem length_serialize (u : UnknownField R switch) : u.serialize.length = u.byteSize :=
  List.length_append

/-- `InternalSerializeUnknownFieldsToArray`. -/
def serializeAll (us : List (UnknownField R switch)) : Bytes := us.flatMap serialize

/-- `ComputeUnknownFieldsSize`. -/
def byteSizeAll (us : List (UnknownField R switch)) : ℕ := (us.map byteSize).sum

theorem length_serializeAll (us : List (UnknownField R switch)) :
    (serializeAll us).length = byteSizeAll us := by
  simp [serializeAll, byteSizeAll, length_serialize]

end UnknownField

/-- What differs from one generated class to another. -/
structure Schema (R : Runtime) (φ M : Type) where
  /-- The switch of `_InternalParse`; `none` is `handle_unusual`. -/
  switch : UInt32 → Option φ
  /-- The default instance. -/
  empty : M
  /-- A case of the switch. -/
  parseField : φ → M → Bytes → Option (M × Bytes)
  addUnknown : M → UnknownField R switch → M
  /-- `MergeImpl`. -/
  mergeFrom : M → M → M
  parseField_word : ∀ {f m input m' rest}, parseField f m input = some (m', rest) →
    ∃ word, word ≠ [] ∧ input = word ++ rest ∧
      ∀ more, parseField f m (word ++ more) = some (m', more)
  mergeFrom_empty : ∀ m, mergeFrom m empty = m
  parseField_mergeFrom : ∀ f base m input,
    parseField f (mergeFrom base m) input =
      (parseField f m input).map fun x => (mergeFrom base x.1, x.2)
  addUnknown_mergeFrom : ∀ base m u,
    addUnknown (mergeFrom base m) u = mergeFrom base (addUnknown m u)

/-- `EndedAtLimit`: the message, if no tag ended it before the end of the input. -/
def endedAtLimit {M : Type} : Option (M × Option UInt32) → Option M
  | some (m, none) => some m
  | _ => none

theorem endedAtLimit_eq_some {M : Type} {r : Option (M × Option UInt32)} {m : M} :
    endedAtLimit r = some m ↔ r = some (m, none) := by
  rcases r with _ | ⟨m', _ | t⟩ <;> simp [endedAtLimit]

namespace Schema

variable {R : Runtime} {φ M : Type} (S : Schema R φ M)

/-- A field for which the switch has no case. -/
def handleUnusual (m : M) (tag : UInt32) (h : S.switch tag = none) (rest : Bytes) :
    Option (Turn UInt8 M UInt32) :=
  if hend : EndTag tag then some (.stop m tag)
  else ((R.payload tag).read rest).map fun p => .next (S.addUnknown m ⟨tag, p.1, h, hend⟩) p.2

/-- A turn of the loop of `_InternalParse` after the tag. -/
def fieldTurn (m : M) (tag : UInt32) (rest : Bytes) : Option (Turn UInt8 M UInt32) :=
  match h : S.switch tag with
  | some f => (S.parseField f m rest).map fun x => .next x.1 x.2
  | none => S.handleUnusual m tag h rest

/-- A turn of the loop of `_InternalParse`. A tag that cannot be read is the zero tag without
input, which fails. -/
def turn (m : M) (input : Bytes) : Option (Turn UInt8 M UInt32) :=
  (R.tag.read input).bind fun x => S.fieldTurn m x.1 x.2

variable {S}

theorem fieldTurn_of_some {f : φ} {tag : UInt32} (h : S.switch tag = some f) (m : M)
    (rest : Bytes) :
    S.fieldTurn m tag rest = (S.parseField f m rest).map fun x => .next x.1 x.2 := by
  unfold fieldTurn
  split
  · next g hg =>
    rw [h] at hg
    obtain rfl := Option.some.inj hg
    rfl
  · next hg =>
    rw [h] at hg
    cases hg

theorem fieldTurn_of_none {tag : UInt32} (h : S.switch tag = none) (m : M) (rest : Bytes) :
    S.fieldTurn m tag rest = S.handleUnusual m tag h rest := by
  unfold fieldTurn
  split
  · next f hf =>
    rw [h] at hf
    cases hf
  · rfl

theorem handleUnusual_word {m m' : M} {tag : UInt32} {h : S.switch tag = none}
    {input rest : Bytes} (hturn : S.handleUnusual m tag h input = some (.next m' rest)) :
    ∃ word, word ≠ [] ∧ input = word ++ rest ∧
      ∀ more, S.handleUnusual m tag h (word ++ more) = some (.next m' more) := by
  unfold handleUnusual at hturn ⊢
  split at hturn
  · cases hturn
  · next hend =>
    obtain ⟨⟨p, r⟩, hp, heq⟩ := Option.map_eq_some_iff.mp hturn
    obtain ⟨rfl, rfl⟩ := Turn.next.inj heq
    obtain ⟨word, hne, rfl, hword⟩ := (R.payload tag).read_word hp
    exact ⟨word, hne, rfl, fun more => by rw [dif_neg hend, hword, Option.map_some]⟩

theorem fieldTurn_word {m m' : M} {tag : UInt32} {input rest : Bytes}
    (hturn : S.fieldTurn m tag input = some (.next m' rest)) :
    ∃ word, word ≠ [] ∧ input = word ++ rest ∧
      ∀ more, S.fieldTurn m tag (word ++ more) = some (.next m' more) := by
  cases h : S.switch tag with
  | none =>
    simp only [fieldTurn_of_none h] at hturn ⊢
    exact handleUnusual_word hturn
  | some f =>
    simp only [fieldTurn_of_some h] at hturn ⊢
    obtain ⟨⟨m₁, r⟩, hf, heq⟩ := Option.map_eq_some_iff.mp hturn
    obtain ⟨rfl, rfl⟩ := Turn.next.inj heq
    obtain ⟨word, hne, rfl, hword⟩ := S.parseField_word hf
    exact ⟨word, hne, rfl, fun more => by rw [hword, Option.map_some]⟩

variable (S) in
/-- The loop of `_InternalParse`. -/
def reader : Reader UInt8 M UInt32 where
  turn := S.turn
  turn_word {m input m' rest} h := by
    obtain ⟨⟨tag, r⟩, htag, hturn⟩ := Option.bind_eq_some_iff.mp h
    obtain ⟨w, hw, rfl, hread⟩ := R.tag.read_word htag
    obtain ⟨w', -, heq, hword⟩ := fieldTurn_word hturn
    simp only at heq
    subst heq
    refine ⟨w ++ w', List.append_ne_nil_of_left_ne_nil hw _, (List.append_assoc _ _ _).symm, ?_⟩
    intro more
    rw [List.append_assoc, turn, hread, Option.bind_some]
    exact hword more

/-- `_InternalParse`: the message, and the tag that ended it before the end of the input. -/
def internalParse (S : Schema R φ M) (m : M) (input : Bytes) : Option (M × Option UInt32) :=
  S.reader.read m input

/-- The whole input, without an end tag in it. -/
def parseWhole (S : Schema R φ M) (m : M) (input : Bytes) : Option M :=
  endedAtLimit (S.internalParse m input)

/-- `ParseFromString`; `none` where it fails. -/
def parseFromString (S : Schema R φ M) (input : Bytes) : Option M := S.parseWhole S.empty input

/-! ## Reading what is written -/

theorem turn_write (m : M) (tag : UInt32) (rest : Bytes) :
    S.turn m (R.tag.write tag ++ rest) = S.fieldTurn m tag rest := by
  rw [turn, R.tag.read_write (R.tag_writable tag), Option.bind_some]

/-- A field for which the switch has a case. -/
theorem internalParse_known {f : φ} {tag : UInt32} {m m' : M} {word rest : Bytes}
    (h : S.switch tag = some f) (hf : S.parseField f m (word ++ rest) = some (m', rest)) :
    S.internalParse m (R.tag.write tag ++ word ++ rest) = S.internalParse m' rest := by
  refine Reader.read_of_next ?_
  change S.turn m _ = _
  rw [List.append_assoc, turn_write, fieldTurn_of_some h, hf, Option.map_some]

/-- An optional field whose value is stored. -/
theorem internalParse_writeField {α : Type} {f : φ} {tag : UInt32} {c : Codec UInt8 α}
    {set : M → α → M} (h : S.switch tag = some f) (hf : S.parseField f = c.store set)
    {field : Option α} (hfield : ∀ a ∈ field, c.Writable a) (m : M) (rest : Bytes) :
    S.internalParse m (R.writeField tag c field ++ rest) =
      S.internalParse (field.elim m (set m)) rest := by
  cases field with
  | none => rfl
  | some a =>
    refine internalParse_known h ?_
    rw [hf, Codec.store_write (hfield a rfl)]
    rfl

theorem internalParse_unknownField {u : UnknownField R S.switch} (h : u.byteSize ≤ R.maxSize)
    (m : M) (rest : Bytes) :
    S.internalParse m (u.serialize ++ rest) = S.internalParse (S.addUnknown m u) rest := by
  refine Reader.read_of_next ?_
  have hp := R.payload_writable u.tag u.payload (le_trans (Nat.le_add_left _ _) h)
  change S.turn m _ = _
  rw [UnknownField.serialize, List.append_assoc, turn_write, fieldTurn_of_none u.unusual,
    handleUnusual, dif_neg u.not_end, (R.payload u.tag).read_write hp, Option.map_some]

theorem internalParse_unknownFields {us : List (UnknownField R S.switch)}
    (h : UnknownField.byteSizeAll us ≤ R.maxSize) (m : M) :
    S.internalParse m (UnknownField.serializeAll us) = some (us.foldl S.addUnknown m, none) := by
  induction us generalizing m with
  | nil => rfl
  | cons u us ih =>
    simp only [UnknownField.byteSizeAll, List.map_cons, List.sum_cons] at h
    rw [UnknownField.serializeAll, List.flatMap_cons, internalParse_unknownField (by omega)]
    exact ih (by rw [UnknownField.byteSizeAll]; omega) (S.addUnknown m u)

/-! ## Merging -/

theorem turn_mergeFrom (base m : M) (input : Bytes) :
    S.turn (S.mergeFrom base m) input = (S.turn m input).map (·.map (S.mergeFrom base)) := by
  unfold turn
  cases htag : R.tag.read input with
  | none => rfl
  | some x =>
    rw [Option.bind_some, Option.bind_some]
    cases h : S.switch x.1 with
    | some f =>
      rw [fieldTurn_of_some h, fieldTurn_of_some h, S.parseField_mergeFrom]
      simp [Function.comp_def, Turn.map]
    | none =>
      rw [fieldTurn_of_none h, fieldTurn_of_none h]
      unfold handleUnusual
      split
      · rfl
      · simp [Function.comp_def, Turn.map, S.addUnknown_mergeFrom]

/-- Reading into a message is merging into it what is read. -/
theorem parseWhole_eq_mergeFrom (m : M) (input : Bytes) :
    S.parseWhole m input = (S.parseFromString input).map (S.mergeFrom m) := by
  have hread := Reader.read_map (r := S.reader) (turn_mergeFrom m) S.empty input
  rw [S.mergeFrom_empty] at hread
  rw [parseFromString, parseWhole, parseWhole, internalParse, internalParse, hread]
  rcases S.reader.read S.empty input with _ | ⟨m', _ | t⟩ <;> rfl

theorem parseWhole_eq_some {m m' : M} {input : Bytes} :
    S.parseWhole m input = some m' ↔ S.internalParse m input = some (m', none) :=
  endedAtLimit_eq_some

/-- **A text after another is merged into the message of the other.** -/
theorem parseFromString_append {a : Bytes} {m : M} (h : S.parseFromString a = some m)
    (b : Bytes) :
    S.parseFromString (a ++ b) = (S.parseFromString b).map (S.mergeFrom m) := by
  rw [← parseWhole_eq_mergeFrom]
  have hread := Reader.read_append (parseWhole_eq_some.mp h) b
  rw [parseFromString, parseWhole, parseWhole, internalParse, internalParse, hread]

end Schema

end Protobuf

end SimpleChat
