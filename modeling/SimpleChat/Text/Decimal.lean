import Mathlib.Algebra.Order.Group.Unbundled.Int
import Mathlib.Data.List.Basic
import Mathlib.Data.List.Induction
import Mathlib.Tactic.IntervalCases

/-!
# Decimal numbers

Numbers in decimal notation, without leading zeros, as bytes: how they are written, and how they
are read up to a separator.

## Main definitions

* `cut sep`: the text before the first separator and the text after it
* `decimal`, `decimalInt`: a number, and an integer with its sign, in decimal notation
* `value`: the positional value of digits
* `readDecimal`: the number of a text that is one, without leading zeros
* `readField sep`: the number before the first separator, and the text after it

## Main results

* `readDecimal_eq_some`: the texts that are read as a number are the notations of the numbers
* `readField_eq_some`: the same before a separator
* `decimalInt_append_inj`: numbers before a separator can be told apart
* `append_cons_inj_last`, `terminated_injective`: so can texts around their last separator, and texts
  that a separator ends
-/

namespace Text

/-! ## Cutting at a separator -/

section Cut

variable {α : Type*} [DecidableEq α]

/-- The text before the first separator, and the text after it. -/
def cut (sep : α) : List α → Option (List α × List α)
  | [] => none
  | b :: bs => if b = sep then some ([], bs) else (cut sep bs).map fun p => (b :: p.1, p.2)

theorem cut_eq_some {sep : α} {bs xs rest : List α} :
    cut sep bs = some (xs, rest) ↔ sep ∉ xs ∧ bs = xs ++ sep :: rest := by
  induction bs generalizing xs rest with
  | nil => simp [cut]
  | cons b bs ih =>
    rw [cut]
    by_cases hb : b = sep
    · subst hb
      cases xs <;> simp +contextual [eq_comm]
    · cases xs with
      | nil => simp [hb]
      | cons x xs =>
        simp only [hb, if_false, Option.map_eq_some_iff, Prod.exists, Prod.mk.injEq, ih]
        constructor
        · rintro ⟨ys, r, ⟨hys, rfl⟩, heq, rfl⟩
          obtain ⟨rfl, rfl⟩ := List.cons.inj heq
          exact ⟨List.not_mem_cons_of_ne_of_not_mem (Ne.symm hb) hys, rfl⟩
        · rintro ⟨hxs, heq⟩
          obtain ⟨rfl, rfl⟩ := List.cons.inj heq
          exact ⟨xs, rest, ⟨fun h => hxs (List.mem_cons_of_mem _ h), rfl⟩, rfl, rfl⟩

/-- What stands before the first separator is determined, and so is what stands after it. -/
theorem append_cons_inj {sep : α} {xs ys rest rest' : List α} (hxs : sep ∉ xs)
    (hys : sep ∉ ys) (h : xs ++ sep :: rest = ys ++ sep :: rest') : xs = ys ∧ rest = rest' := by
  have hx : cut sep (xs ++ sep :: rest) = some (xs, rest) := cut_eq_some.mpr ⟨hxs, rfl⟩
  have hy := cut_eq_some.mpr ⟨hys, h⟩
  exact Prod.mk.inj (Option.some.inj (hx.symm.trans hy))

/-- What stands after the last separator is determined, and so is what stands before it. -/
theorem append_cons_inj_last {sep : α} {xs ys rest rest' : List α} (hrest : sep ∉ rest)
    (hrest' : sep ∉ rest') (h : xs ++ sep :: rest = ys ++ sep :: rest') : xs = ys ∧ rest = rest' := by
  have hrev := congrArg List.reverse h
  simp only [List.reverse_append, List.reverse_cons, List.append_assoc, List.cons_append,
    List.nil_append] at hrev
  obtain ⟨hr, hx⟩ := append_cons_inj (by simpa using hrest) (by simpa using hrest') hrev
  exact ⟨List.reverse_inj.mp hx, List.reverse_inj.mp hr⟩

/-- Texts without the separator, each with a separator after it, can be told apart. -/
theorem terminated_injective {sep : α} {xs ys : List (List α)} (hxs : ∀ x ∈ xs, sep ∉ x)
    (hys : ∀ y ∈ ys, sep ∉ y) (h : xs.flatMap (· ++ [sep]) = ys.flatMap (· ++ [sep])) :
    xs = ys := by
  induction xs generalizing ys with
  | nil =>
    cases ys with
    | nil => rfl
    | cons y ys => simp at h
  | cons x xs ih =>
    cases ys with
    | nil => simp at h
    | cons y ys =>
      obtain ⟨hx, hxs⟩ := List.forall_mem_cons.mp hxs
      obtain ⟨hy, hys⟩ := List.forall_mem_cons.mp hys
      simp only [List.flatMap_cons, List.append_assoc, List.singleton_append] at h
      obtain ⟨hhead, hrest⟩ := append_cons_inj hx hy h
      rw [hhead, ih hxs hys hrest]

end Cut

/-! ## Writing -/

/-- The byte of a digit. -/
def digit (d : ℕ) : UInt8 := (48 + d).toUInt8

/-- A number in decimal notation. -/
def decimal (n : ℕ) : List UInt8 := (Nat.toDigits 10 n).map fun c => c.toNat.toUInt8

/-- An integer in decimal notation. -/
def decimalInt (z : ℤ) : List UInt8 :=
  if z < 0 then 45 :: decimal z.natAbs else decimal z.natAbs

/-- The byte is a decimal digit. -/
def IsDigit (b : UInt8) : Prop := 48 ≤ b ∧ b ≤ 57

instance decidableIsDigit (b : UInt8) : Decidable (IsDigit b) :=
  inferInstanceAs (Decidable (48 ≤ b ∧ b ≤ 57))

theorem isDigit_iff {b : UInt8} : IsDigit b ↔ ∃ d < 10, b = digit d := by
  constructor
  · rintro ⟨hlo, hhi⟩
    have hlo' : 48 ≤ b.toNat := hlo
    have hhi' : b.toNat ≤ 57 := hhi
    refine ⟨b.toNat - 48, by omega, ?_⟩
    apply UInt8.toNat_inj.mp
    simp [digit]
    omega
  · rintro ⟨d, hd, rfl⟩
    interval_cases d <;> decide

theorem digit_toNat {d : ℕ} (hd : d < 10) : (digit d).toNat = 48 + d := by
  interval_cases d <;> rfl

theorem decimal_of_lt {d : ℕ} (hd : d < 10) : decimal d = [digit d] := by
  rw [decimal, Nat.toDigits_of_lt_base hd]
  interval_cases d <;> rfl

theorem decimal_concat {n d : ℕ} (hn : 0 < n) (hd : d < 10) :
    decimal (10 * n + d) = decimal n ++ [digit d] := by
  rw [decimal, ← Nat.toDigits_append_toDigits (by decide) hn hd, List.map_append]
  exact congrArg _ (decimal_of_lt hd)

/-- Numbers are built from one digit by adding digits at the end. -/
theorem decimal_induction {P : ℕ → Prop} (hone : ∀ d < 10, P d)
    (hconcat : ∀ n d, 0 < n → d < 10 → P n → P (10 * n + d)) (n : ℕ) : P n := by
  induction n using Nat.strongRecOn with
  | ind n ih =>
    by_cases hn : n < 10
    · exact hone n hn
    · have hprev := ih (n / 10) (by omega)
      have hp := hconcat (n / 10) (n % 10) (by omega) (by omega) hprev
      rwa [show 10 * (n / 10) + n % 10 = n by omega] at hp

theorem isDigit_of_mem_decimal {n : ℕ} {b : UInt8} (hb : b ∈ decimal n) : IsDigit b := by
  induction n using decimal_induction with
  | hone d hd =>
    rw [decimal_of_lt hd, List.mem_singleton] at hb
    exact isDigit_iff.mpr ⟨d, hd, hb⟩
  | hconcat n d hn hd ih =>
    rw [decimal_concat hn hd] at hb
    rcases List.mem_append.mp hb with hb | hb
    · exact ih hb
    · exact isDigit_iff.mpr ⟨d, hd, List.mem_singleton.mp hb⟩

theorem decimal_ne_nil (n : ℕ) : decimal n ≠ [] := by
  induction n using decimal_induction with
  | hone d hd => simp [decimal_of_lt hd]
  | hconcat n d hn hd ih => simp [decimal_concat hn hd]

/-- A number without leading zeros: only zero begins with one. -/
theorem head_decimal {n : ℕ} (h : (decimal n).head? = some (digit 0)) : n = 0 := by
  induction n using decimal_induction with
  | hone d hd =>
    rw [decimal_of_lt hd] at h
    have heq := congrArg UInt8.toNat (Option.some.inj h)
    rw [digit_toNat hd, digit_toNat (by decide)] at heq
    omega
  | hconcat n d hn hd ih =>
    rw [decimal_concat hn hd, List.head?_append_of_ne_nil _ (decimal_ne_nil n)] at h
    have hzero := ih h
    omega

/-! ## Reading -/

/-- The positional value of digits. -/
def value (bs : List UInt8) : ℕ := bs.foldl (fun acc b => 10 * acc + (b.toNat - 48)) 0

/-- The number that a text of digits without leading zeros denotes. -/
def readDecimal (bs : List UInt8) : Option ℕ :=
  if ¬ bs.isEmpty ∧ bs.all (fun b => decide (IsDigit b)) ∧
      (bs.head? = some (digit 0) → bs.length = 1) then
    some (value bs)
  else none

theorem value_concat (bs : List UInt8) {d : ℕ} (hd : d < 10) :
    value (bs ++ [digit d]) = 10 * value bs + d := by
  rw [value, List.foldl_append]
  simp only [List.foldl_cons, List.foldl_nil, digit_toNat hd, value]
  omega

theorem value_decimal (n : ℕ) : value (decimal n) = n := by
  induction n using decimal_induction with
  | hone d hd =>
    rw [decimal_of_lt hd]
    simpa [value] using value_concat [] hd
  | hconcat n d hn hd ih => rw [decimal_concat hn hd, value_concat _ hd, ih]

theorem decimal_injective : Function.Injective decimal := by
  intro m n h
  rw [← value_decimal m, h, value_decimal]

/-- Digits without leading zeros are the notation of their value. -/
theorem decimal_value {bs : List UInt8} (hne : bs ≠ []) (hdigit : ∀ b ∈ bs, IsDigit b)
    (hlead : bs.head? = some (digit 0) → bs.length = 1) : decimal (value bs) = bs := by
  induction bs using List.reverseRecOn with
  | nil => exact absurd rfl hne
  | append_singleton bs b ih =>
    obtain ⟨d, hd, rfl⟩ := isDigit_iff.mp (hdigit b (by simp))
    rw [value_concat _ hd]
    by_cases hbs : bs = []
    · subst hbs
      simpa [value] using decimal_of_lt hd
    · have hhead : bs.head? ≠ some (digit 0) := by
        intro hzero
        have hlen := hlead (by rw [List.head?_append_of_ne_nil _ hbs, hzero])
        rw [List.length_append, List.length_singleton] at hlen
        exact hbs (List.eq_nil_of_length_eq_zero (by omega))
      have hdec := ih hbs (fun x hx => hdigit x (List.mem_append_left _ hx))
        fun hzero => absurd hzero hhead
      have hpos : 0 < value bs := by
        apply Nat.pos_of_ne_zero
        intro hzero
        rw [hzero, decimal_of_lt (by decide)] at hdec
        exact hhead (by rw [← hdec]; rfl)
      rw [decimal_concat hpos hd, hdec]

/-- The texts that are read as a number are the decimal notations. -/
theorem readDecimal_eq_some {bs : List UInt8} {n : ℕ} :
    readDecimal bs = some n ↔ bs = decimal n := by
  rw [readDecimal]
  constructor
  · intro h
    split at h
    · next hbs =>
      obtain ⟨hne, hdigit, hlead⟩ := hbs
      rw [List.all_eq_true] at hdigit
      rw [← Option.some.inj h, decimal_value (by simpa using hne)
        (fun b hb => of_decide_eq_true (hdigit b hb)) hlead]
    · cases h
  · rintro rfl
    rw [if_pos, value_decimal]
    refine ⟨by simpa using decimal_ne_nil n, ?_, fun hzero => ?_⟩
    · rw [List.all_eq_true]
      exact fun b hb => decide_eq_true (isDigit_of_mem_decimal hb)
    · rw [head_decimal hzero]
      rfl

/-- The number before the first separator, and the text after it. -/
def readField (sep : UInt8) (bs : List UInt8) : Option (ℕ × List UInt8) :=
  (cut sep bs).bind fun p => (readDecimal p.1).map fun n => (n, p.2)

theorem not_mem_decimal {sep : UInt8} (hsep : ¬ IsDigit sep) (n : ℕ) : sep ∉ decimal n :=
  fun h => hsep (isDigit_of_mem_decimal h)

theorem readField_eq_some {sep : UInt8} (hsep : ¬ IsDigit sep) {bs rest : List UInt8} {n : ℕ} :
    readField sep bs = some (n, rest) ↔ bs = decimal n ++ sep :: rest := by
  rw [readField, Option.bind_eq_some_iff]
  constructor
  · rintro ⟨⟨ds, r⟩, hcut, hread⟩
    obtain ⟨m, hm, heq⟩ := Option.map_eq_some_iff.mp hread
    obtain ⟨rfl, rfl⟩ := Prod.mk.inj heq
    obtain rfl : ds = decimal m := readDecimal_eq_some.mp hm
    exact (cut_eq_some.mp hcut).2
  · intro h
    refine ⟨(decimal n, rest), cut_eq_some.mpr ⟨not_mem_decimal hsep n, h⟩, ?_⟩
    rw [readDecimal_eq_some.mpr rfl, Option.map_some]

/-! ## Integers before a separator -/

theorem not_mem_decimalInt {sep : UInt8} (hsep : ¬ IsDigit sep) (hminus : sep ≠ 45) (z : ℤ) :
    sep ∉ decimalInt z := by
  rw [decimalInt]
  split
  · rw [List.mem_cons, not_or]
    exact ⟨hminus, not_mem_decimal hsep _⟩
  · exact not_mem_decimal hsep _

/-- Integers before a separator can be told apart, even where the separator is the minus sign. -/
theorem decimalInt_append_inj {sep : UInt8} (hsep : ¬ IsDigit sep) {y z : ℤ}
    {rest rest' : List UInt8} (h : decimalInt y ++ sep :: rest = decimalInt z ++ sep :: rest') :
    y = z ∧ rest = rest' := by
  have hfield : ∀ {m n : ℕ}, decimal m ++ sep :: rest = decimal n ++ sep :: rest' →
      m = n ∧ rest = rest' := by
    intro m n hmn
    obtain ⟨hdec, hrest⟩ := append_cons_inj (not_mem_decimal hsep m) (not_mem_decimal hsep n) hmn
    exact ⟨decimal_injective hdec, hrest⟩
  -- the sign is seen from the first byte, which is a digit if there is none
  have hsign : ∀ (n : ℕ) (bs bs' : List UInt8), decimal n ++ bs ≠ 45 :: bs' := by
    intro n bs bs' heq
    obtain ⟨b, ds, hds⟩ := List.exists_cons_of_ne_nil (decimal_ne_nil n)
    have hb : IsDigit b := isDigit_of_mem_decimal (n := n) (by simp [hds])
    rw [hds, List.cons_append] at heq
    rw [(List.cons.inj heq).1] at hb
    revert hb
    decide
  unfold decimalInt at h
  split at h <;> split at h
  · obtain ⟨habs, hrest⟩ := hfield (List.cons.inj h).2
    exact ⟨by omega, hrest⟩
  · exact absurd h.symm (hsign _ _ _)
  · exact absurd h (hsign _ _ _)
  · obtain ⟨habs, hrest⟩ := hfield h
    exact ⟨by omega, hrest⟩

end Text
