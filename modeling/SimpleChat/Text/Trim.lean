import Mathlib.Data.List.DropRight

/-!
# Trimming

The symbols of a kind are removed from the end of a text, and then from its beginning.

## Main definitions

* `trim p`: a text without the symbols with `p` at its ends
* `Trimmed p`: neither end of a text has `p`

## Main results

* `trimmed_trim`: the result of a trimming is trimmed
* `trim_padded_iff`: a padded text is trimmed to itself exactly if its own ends are trimmed
-/

namespace Text

variable {α : Type*} {p q : α → Bool} {w : List α}

/-- The text without the symbols with `p` at its end and at its beginning. -/
def trim (p : α → Bool) (w : List α) : List α := (w.rdropWhile p).dropWhile p

/-- The first and the last symbol do not have `p`. -/
def Trimmed (p : α → Bool) (w : List α) : Prop :=
  (∀ x ∈ w.head?, p x = false) ∧ ∀ x ∈ w.getLast?, p x = false

instance decidableTrimmed (p : α → Bool) (w : List α) : Decidable (Trimmed p w) :=
  inferInstanceAs (Decidable ((∀ x ∈ w.head?, p x = false) ∧ ∀ x ∈ w.getLast?, p x = false))

theorem Trimmed.mono (h : Trimmed p w) (hpq : ∀ x ∈ w, q x = true → p x = true) :
    Trimmed q w := by
  constructor
  · intro x hx
    have hp := h.1 x hx
    by_contra hq
    rw [hpq x (List.mem_of_mem_head? hx) (by simpa using hq)] at hp
    cases hp
  · intro x hx
    have hp := h.2 x hx
    by_contra hq
    rw [hpq x (List.mem_of_mem_getLast? hx) (by simpa using hq)] at hp
    cases hp

/-- Neither end of a trimmed text is left to remove. -/
theorem trimmed_trim (p : α → Bool) (w : List α) : Trimmed p (trim p w) := by
  constructor
  · intro x hx
    have hne : (w.rdropWhile p).dropWhile p ≠ [] := by
      rintro hnil
      rw [trim, hnil] at hx
      cases hx
    have hhead := List.head_dropWhile_not p hne
    rw [trim, List.head?_eq_some_head hne] at hx
    obtain rfl := Option.some.inj hx
    exact hhead
  · intro x hx
    have hsuffix : trim p w <:+ w.rdropWhile p := List.dropWhile_suffix p
    have hne : trim p w ≠ [] := by
      rintro hnil
      rw [hnil] at hx
      cases hx
    have hne' : w.rdropWhile p ≠ [] := fun hnil => hne (List.suffix_nil.mp (hnil ▸ hsuffix))
    rw [List.getLast?_eq_some_getLast hne] at hx
    obtain rfl := Option.some.inj hx
    rw [hsuffix.getLast hne]
    simpa using List.rdropWhile_last_not p w hne'

theorem rdropWhile_append_of_all {b : List α} (hb : ∀ x ∈ b, p x = true) (w : List α) :
    (w ++ b).rdropWhile p = w.rdropWhile p := by
  induction b using List.reverseRecOn with
  | nil => rw [List.append_nil]
  | append_singleton b x ih =>
    rw [← List.append_assoc, List.rdropWhile_concat_pos _ _ _ (hb x (by simp))]
    exact ih fun y hy => hb y (List.mem_append_left _ hy)

/-- **Padding is removed, and nothing else, exactly if the padded text is trimmed.** -/
theorem trim_padded_iff {a b : List α} (ha : ∀ x ∈ a, p x = true) (hb : ∀ x ∈ b, p x = true) :
    trim p (a ++ w ++ b) = w ↔ Trimmed p w := by
  constructor
  · intro h
    rw [← h]
    exact trimmed_trim p _
  · rintro ⟨hhead, hlast⟩
    rw [trim, rdropWhile_append_of_all hb]
    rcases List.eq_nil_or_concat w with rfl | ⟨v, x, rfl⟩
    · rw [List.append_nil, List.rdropWhile_eq_nil_iff.mpr ha]
      rfl
    · have hx : p x = false := hlast x (by simp)
      rw [List.concat_eq_append, ← List.append_assoc,
        List.rdropWhile_concat_neg _ _ _ (by simp [hx]), List.append_assoc,
        List.dropWhile_append_of_pos ha]
      cases v with
      | nil => simp [hx]
      | cons y v =>
        have hy : p y = false := hhead y (by simp)
        simp [hy]

end Text
