import Mathlib.Data.List.Basic

/-!
# Codecs

A codec writes values as words over an alphabet, such that a reader finds where a word ends. Not
every word that is read has to be one that is written: a value may have more than one word.

## Main definitions

* `Codec σ α`: values `α` as words over `σ`
* `Codec.retract`, `Codec.guard`, `Codec.sized`: the codecs of values that others represent, of
  some of the values of another, and of another after its size
* `Codec.void`, `Codec.fixed`, `Codec.delimited`: no values, texts of one length, and texts after
  their length

## Main results

* `Codec.read_append`: what is read does not depend on what follows
* `Codec.length_rest_lt`: reading consumes some of the input
-/

namespace Wire

variable {σ α β : Type*}

/-- Values and the words for them. -/
structure Codec (σ α : Type*) where
  /-- The values that are read back as they were written. -/
  Writable : α → Prop
  write : α → List σ
  /-- The value of the first word of the input, and the input after it. -/
  read : List σ → Option (α × List σ)
  read_write : ∀ {a}, Writable a → ∀ rest, read (write a ++ rest) = some (a, rest)
  /-- What is read is a word, and it is read like that before any other input. -/
  read_word : ∀ {input a rest}, read input = some (a, rest) →
    ∃ word, word ≠ [] ∧ input = word ++ rest ∧ ∀ more, read (word ++ more) = some (a, more)

namespace Codec

variable (c : Codec σ α)

/-- The size of a value: the number of symbols it is written with. -/
def size (a : α) : ℕ := (c.write a).length

variable {c}

theorem read_append {input rest : List σ} {a : α} (h : c.read input = some (a, rest))
    (more : List σ) : c.read (input ++ more) = some (a, rest ++ more) := by
  obtain ⟨word, -, rfl, hword⟩ := c.read_word h
  rw [List.append_assoc]
  exact hword _

theorem length_rest_lt {input rest : List σ} {a : α} (h : c.read input = some (a, rest)) :
    rest.length < input.length := by
  obtain ⟨word, hne, rfl, -⟩ := c.read_word h
  have := List.length_pos_of_ne_nil hne
  rw [List.length_append]
  omega

theorem read_nil : c.read [] = none := by
  cases h : c.read [] with
  | none => rfl
  | some r => exact absurd (length_rest_lt h) (by simp)

/-! ## Building codecs -/

/-- Values that others represent. -/
def retract (c : Codec σ α) (f : α → β) (g : β → α) (hfg : ∀ b, f (g b) = b) : Codec σ β where
  Writable b := c.Writable (g b)
  write b := c.write (g b)
  read input := (c.read input).map fun r => (f r.1, r.2)
  read_write {b} hb rest := by rw [c.read_write hb, Option.map_some, hfg]
  read_word {input b rest} h := by
    obtain ⟨⟨a, rest⟩, ha, heq⟩ := Option.map_eq_some_iff.mp h
    obtain ⟨rfl, rfl⟩ := Prod.mk.inj heq
    obtain ⟨word, hne, rfl, hword⟩ := c.read_word ha
    exact ⟨word, hne, rfl, fun more => by rw [hword, Option.map_some]⟩

/-- The values for which a test succeeds. -/
def guard (c : Codec σ α) (p : α → Bool) : Codec σ α where
  Writable a := c.Writable a ∧ p a = true
  write := c.write
  read input := (c.read input).filter fun r => p r.1
  read_write {a} ha rest := by rw [c.read_write ha.1, Option.filter_some, if_pos ha.2]
  read_word {input a rest} h := by
    obtain ⟨ha, hp⟩ := Option.filter_eq_some_iff.mp h
    obtain ⟨word, hne, rfl, hword⟩ := c.read_word ha
    exact ⟨word, hne, rfl, fun more => by rw [hword, Option.filter_some, if_pos hp]⟩

/-- No values. -/
def void : Codec σ Empty where
  Writable _ := True
  write a := a.elim
  read _ := none
  read_write {a} := a.elim
  read_word h := by cases h

/-- Texts of one length. -/
def fixed (n : ℕ) (hn : n ≠ 0) : Codec σ {text : List σ // text.length = n} where
  Writable _ := True
  write a := a.1
  read input :=
    if h : n ≤ input.length then
      some (⟨input.take n, List.length_take_of_le h⟩, input.drop n)
    else none
  read_write {a} _ rest := by
    obtain ⟨text, rfl⟩ := a
    simp
  read_word {input a rest} h := by
    split at h
    · next hle =>
      obtain ⟨rfl, rfl⟩ := Prod.mk.inj (Option.some.inj h)
      have hlen : (input.take n).length = n := List.length_take_of_le hle
      refine ⟨input.take n, ?_, (List.take_append_drop n input).symm, fun more => ?_⟩
      · exact List.ne_nil_of_length_eq_add_one (n := n - 1) (by omega)
      · simp [hlen]
    · cases h

/-- Words of another reader, each after its size. The reader is given the word alone. -/
def sized (size : Codec σ ℕ) (write : α → List σ) (read : List σ → Option α)
    (Writable : α → Prop) (hread : ∀ a, Writable a → read (write a) = some a) : Codec σ α where
  Writable a := Writable a ∧ size.Writable (write a).length
  write a := size.write (write a).length ++ write a
  read input :=
    match size.read input with
    | none => none
    | some (n, rest) =>
      if n ≤ rest.length then (read (rest.take n)).map fun a => (a, rest.drop n) else none
  read_write {a} ha rest := by
    rw [List.append_assoc, size.read_write ha.2]
    simp [hread a ha.1]
  read_word {input a rest} h := by
    split at h
    · cases h
    · next n tail hsize =>
      split at h
      · next hle =>
        obtain ⟨b, hb, heq⟩ := Option.map_eq_some_iff.mp h
        obtain ⟨rfl, rfl⟩ := Prod.mk.inj heq
        obtain ⟨word, hne, rfl, hword⟩ := size.read_word hsize
        have hlen : (tail.take n).length = n := List.length_take_of_le hle
        refine ⟨word ++ tail.take n, List.append_ne_nil_of_left_ne_nil hne _, ?_, fun more => ?_⟩
        · rw [List.append_assoc, List.take_append_drop]
        · rw [List.append_assoc, hword]
          simp [hlen, hb]
      · cases h

/-- Texts of any length, each after its length. -/
def delimited (size : Codec σ ℕ) : Codec σ (List σ) :=
  sized size id some (fun _ => True) fun _ _ => rfl

theorem delimited_writable {size : Codec σ ℕ} {text : List σ} :
    (delimited size).Writable text ↔ size.Writable text.length :=
  iff_of_eq (true_and _)

theorem size_delimited (size : Codec σ ℕ) (text : List σ) :
    (delimited size).size text = size.size text.length + text.length :=
  List.length_append

end Codec

end Wire
