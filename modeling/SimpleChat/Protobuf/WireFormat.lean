import SimpleChat.Protobuf.Runtime

/-!
# The wire format

The encoding of the protobuf library, without groups: tags, sizes and numbers are varints, and the
wire type of a tag says how the value of an unknown field is encoded.

## Main definitions

* `WireType`, `wireType`: the wire types, and that of a tag
* `wireFormat`: the encoding
-/

namespace SimpleChat

namespace Protobuf

open Wire

/-- A wire type; `unsupported` are the groups, the wire types without a meaning and those of the
field number 0. -/
inductive WireType where
  | varint
  | fixed64
  | lengthDelimited
  | fixed32
  | unsupported
  deriving DecidableEq, Repr

/-- The wire type of a tag. -/
def wireType (t : UInt32) : WireType :=
  if t >>> 3 = 0 then .unsupported
  else if t &&& 7 = 0 then .varint
  else if t &&& 7 = 1 then .fixed64
  else if t &&& 7 = 2 then .lengthDelimited
  else if t &&& 7 = 5 then .fixed32
  else .unsupported

/-- `INT_MAX - kSlopBytes`. -/
def maxSize : ℕ := 2 ^ 31 - 1 - 16

/-- Sizes are numbers of at most five bytes, up to a bound. -/
def sizeCodec : Codec UInt8 ℕ := (varint 4).guard fun n => decide (n ≤ maxSize)

theorem sizeCodec_writable {n : ℕ} (h : n ≤ maxSize) : sizeCodec.Writable n := by
  refine ⟨?_, decide_eq_true h⟩
  calc n ≤ maxSize := h
    _ < 128 ^ (4 + 1) := by decide

namespace WireType

/-- The values of a wire type. -/
def Payload : WireType → Type
  | varint => UInt64
  | fixed64 => {text : Bytes // text.length = 8}
  | lengthDelimited => Bytes
  | fixed32 => {text : Bytes // text.length = 4}
  | unsupported => Empty

def codec : ∀ w : WireType, Codec UInt8 w.Payload
  | varint => varint64 9
  | fixed64 => Codec.fixed 8 (by decide)
  | lengthDelimited => Codec.delimited sizeCodec
  | fixed32 => Codec.fixed 4 (by decide)
  | unsupported => Codec.void

theorem codec_writable (w : WireType) (p : w.Payload) (h : w.codec.size p ≤ maxSize) :
    w.codec.Writable p := by
  cases w with
  | varint => exact varint64_writable (by decide) p
  | fixed64 => exact True.intro
  | lengthDelimited =>
    refine Codec.delimited_writable.mpr (sizeCodec_writable ?_)
    have hsize := Codec.size_delimited sizeCodec p
    exact le_trans (Nat.le_add_left _ _) (hsize ▸ h)
  | fixed32 => exact True.intro
  | unsupported => exact True.intro

end WireType

/-- The encoding of the library. -/
def wireFormat : Runtime where
  tag := varint32 4
  size := sizeCodec
  varint32 := varint32 9
  varint64 := varint64 9
  Payload t := (wireType t).Payload
  payload t := (wireType t).codec
  maxSize := maxSize
  tag_writable t := varint32_writable (by decide) t
  tag_write_of_lt t ht := by
    have hlt : t.toNat < 128 := ht
    exact writeVarint_of_lt 4 hlt
  size_writable _ h := sizeCodec_writable h
  varint32_writable n := varint32_writable (by decide) n
  varint64_writable n := varint64_writable (by decide) n
  payload_writable t p h := (wireType t).codec_writable p h

end Protobuf

end SimpleChat
