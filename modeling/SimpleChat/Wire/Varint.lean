import SimpleChat.Wire.Codec
import Mathlib.Tactic.Ring

/-!
# Numbers in groups of seven bits

A number is written in groups of seven bits, the lowest group first. Every byte but the last has
its high bit set. The reader accepts superfluous groups, up to a number of bytes.

## Main definitions

* `writeVarint more`, `readVarint more`: numbers in at most `more + 1` bytes
* `varint more`: the codec they make
-/

namespace Wire

/-- A number in at most `more + 1` bytes. -/
def writeVarint : ℕ → ℕ → List UInt8
  | 0, n => [n.toUInt8]
  | more + 1, n =>
    if n < 128 then [n.toUInt8] else (n % 128 + 128).toUInt8 :: writeVarint more (n / 128)

/-- The number at the beginning of the input, in at most `more + 1` bytes. -/
def readVarint : ℕ → List UInt8 → Option (ℕ × List UInt8)
  | _, [] => none
  | 0, b :: input => if b < 128 then some (b.toNat, input) else none
  | more + 1, b :: input =>
    if b < 128 then some (b.toNat, input)
    else (readVarint more input).map fun r => (b.toNat % 128 + 128 * r.1, r.2)

theorem toUInt8_lt_iff {n : ℕ} (h : n < 256) : n.toUInt8 < 128 ↔ n < 128 := by
  rw [UInt8.lt_iff_toNat_lt, Nat.toUInt8, UInt8.toNat_ofNat', Nat.mod_eq_of_lt h]
  rfl

theorem toNat_toUInt8 {n : ℕ} (h : n < 256) : n.toUInt8.toNat = n := by
  rw [Nat.toUInt8, UInt8.toNat_ofNat', Nat.mod_eq_of_lt h]

theorem writeVarint_of_lt {n : ℕ} (more : ℕ) (h : n < 128) : writeVarint more n = [n.toUInt8] := by
  cases more with
  | zero => rfl
  | succ more => rw [writeVarint, if_pos h]

theorem readVarint_last {b : UInt8} (more : ℕ) (h : b < 128) (rest : List UInt8) :
    readVarint more (b :: rest) = some (b.toNat, rest) := by
  cases more <;> rw [readVarint, if_pos h]

theorem readVarint_of_lt {n : ℕ} (more : ℕ) (h : n < 128) (rest : List UInt8) :
    readVarint more (n.toUInt8 :: rest) = some (n, rest) := by
  rw [readVarint_last more ((toUInt8_lt_iff (by omega)).mpr h), toNat_toUInt8 (by omega)]

theorem readVarint_writeVarint {more n : ℕ} (h : n < 128 ^ (more + 1)) (rest : List UInt8) :
    readVarint more (writeVarint more n ++ rest) = some (n, rest) := by
  induction more generalizing n with
  | zero =>
    rw [Nat.zero_add, pow_one] at h
    exact readVarint_of_lt 0 h rest
  | succ more ih =>
    by_cases hn : n < 128
    · rw [writeVarint_of_lt _ hn]
      exact readVarint_of_lt _ hn rest
    · have hgroup : n % 128 + 128 < 256 := by omega
      have hrest : n / 128 < 128 ^ (more + 1) := by
        rw [pow_succ] at h
        exact Nat.div_lt_of_lt_mul (by rwa [Nat.mul_comm])
      rw [writeVarint, if_neg hn, List.cons_append, readVarint,
        if_neg (by rw [toUInt8_lt_iff hgroup]; omega), ih hrest, Option.map_some,
        toNat_toUInt8 hgroup]
      congr 2
      omega

theorem readVarint_word {more n : ℕ} {input rest : List UInt8}
    (h : readVarint more input = some (n, rest)) :
    ∃ word, word ≠ [] ∧ input = word ++ rest ∧
      ∀ tail, readVarint more (word ++ tail) = some (n, tail) := by
  induction input generalizing more n with
  | nil => simp [readVarint] at h
  | cons b input ih =>
    by_cases hb : b < 128
    · rw [readVarint_last more hb] at h
      obtain ⟨rfl, rfl⟩ := Prod.mk.inj (Option.some.inj h)
      exact ⟨[b], List.cons_ne_nil _ _, rfl, readVarint_last more hb⟩
    · cases more with
      | zero => simp [readVarint, hb] at h
      | succ more =>
        rw [readVarint, if_neg hb] at h
        obtain ⟨⟨m, r⟩, hm, heq⟩ := Option.map_eq_some_iff.mp h
        obtain ⟨rfl, rfl⟩ := Prod.mk.inj heq
        obtain ⟨word, -, rfl, hword⟩ := ih hm
        refine ⟨b :: word, List.cons_ne_nil _ _, rfl, fun tail => ?_⟩
        rw [List.cons_append, readVarint, if_neg hb, hword, Option.map_some]

/-- The numbers of at most `more + 1` groups. -/
def varint (more : ℕ) : Codec UInt8 ℕ where
  Writable n := n < 128 ^ (more + 1)
  write := writeVarint more
  read := readVarint more
  read_write h rest := readVarint_writeVarint h rest
  read_word := readVarint_word

/-- 32-bit numbers; of a longer number, the reader keeps the lowest bits. -/
def varint32 (more : ℕ) : Codec UInt8 UInt32 :=
  (varint more).retract UInt32.ofNat UInt32.toNat fun _ => UInt32.ofNat_toNat

/-- 64-bit numbers. -/
def varint64 (more : ℕ) : Codec UInt8 UInt64 :=
  (varint more).retract UInt64.ofNat UInt64.toNat fun _ => UInt64.ofNat_toNat

theorem varint32_writable {more : ℕ} (h : 4 ≤ more) (n : UInt32) : (varint32 more).Writable n :=
  calc n.toNat < 2 ^ 32 := n.toNat_lt
    _ ≤ 128 ^ (4 + 1) := by decide
    _ ≤ 128 ^ (more + 1) := Nat.pow_le_pow_right (by decide) (by omega)

theorem varint64_writable {more : ℕ} (h : 9 ≤ more) (n : UInt64) : (varint64 more).Writable n :=
  calc n.toNat < 2 ^ 64 := n.toNat_lt
    _ ≤ 128 ^ (9 + 1) := by decide
    _ ≤ 128 ^ (more + 1) := Nat.pow_le_pow_right (by decide) (by omega)

end Wire
