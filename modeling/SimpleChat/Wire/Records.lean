import SimpleChat.Wire.Codec

/-!
# Reading records

A reader of records takes one record of the input after the other and updates its state, until the
input is used up, a record stops it or one is malformed.

## Main definitions

* `Turn`, `readRecords`: what one record leads to, and the loop over the records
* `Reader`, `Reader.read`: a reader of records that are words, and its run on an input
* `Codec.store`: a value is read into a state

## Main results

* `Reader.readRecords_eq_read`: more turns than the input has symbols make no difference
* `Reader.read_of_next`, `Reader.read_of_stop`, `Reader.read_of_none`: the run by its first record
* `Reader.readRecords_eq_read_of_turns`: several records may be taken at once
* `Reader.read_append`: after an input that is used up comes what follows it
* `Reader.read_map`: an update of the state that commutes with the turns commutes with the run
-/

namespace Wire

variable {σ μ τ : Type*}

/-- What a record of the input leads to: a new state and the input after the record, or an end. -/
inductive Turn (σ μ τ : Type*) where
  | next (m : μ) (rest : List σ)
  | stop (m : μ) (reason : τ)

/-- The state of a turn is updated. -/
def Turn.map (f : μ → μ) : Turn σ μ τ → Turn σ μ τ
  | next m rest => next (f m) rest
  | stop m reason => stop (f m) reason

/-- At most `fuel` records: the state after them, and what stopped the reader before the end of the
input, if anything did. -/
def readRecords (turn : μ → List σ → Option (Turn σ μ τ)) :
    ℕ → μ → List σ → Option (μ × Option τ)
  | _, m, [] => some (m, none)
  | 0, _, _ :: _ => none
  | fuel + 1, m, b :: input =>
    match turn m (b :: input) with
    | none => none
    | some (.stop m' reason) => some (m', some reason)
    | some (.next m' rest) => readRecords turn fuel m' rest

/-- A reader whose records are words. -/
structure Reader (σ μ τ : Type*) where
  turn : μ → List σ → Option (Turn σ μ τ)
  turn_word : ∀ {m input m' rest}, turn m input = some (.next m' rest) →
    ∃ word, word ≠ [] ∧ input = word ++ rest ∧
      ∀ more, turn m (word ++ more) = some (.next m' more)

namespace Reader

variable {r : Reader σ μ τ}

/-- The whole input. -/
def read (r : Reader σ μ τ) (m : μ) (input : List σ) : Option (μ × Option τ) :=
  readRecords r.turn input.length m input

theorem length_rest_lt {m m' : μ} {input rest : List σ}
    (h : r.turn m input = some (.next m' rest)) : rest.length < input.length := by
  obtain ⟨word, hne, rfl, -⟩ := r.turn_word h
  have := List.length_pos_of_ne_nil hne
  rw [List.length_append]
  omega

theorem readRecords_eq_read {k : ℕ} {m : μ} {input : List σ} (h : input.length ≤ k) :
    readRecords r.turn k m input = r.read m input := by
  rw [read]
  -- both sides take the same turns while there is input
  generalize hn : input.length = n at h
  have hn' : input.length ≤ n := Nat.le_of_eq hn
  clear hn
  induction n generalizing k m input with
  | zero =>
    obtain rfl := List.eq_nil_of_length_eq_zero (Nat.le_zero.mp hn')
    cases k <;> rfl
  | succ n ih =>
    obtain ⟨k, rfl⟩ : ∃ j, k = j + 1 := ⟨k - 1, by omega⟩
    cases input with
    | nil => rfl
    | cons b input =>
      cases ht : r.turn m (b :: input) with
      | none => simp [readRecords, ht]
      | some turn =>
        cases turn with
        | stop m' reason => simp [readRecords, ht]
        | next m' rest =>
          have hlt := length_rest_lt ht
          simp only [List.length_cons] at hlt hn'
          simpa [readRecords, ht] using ih (by omega) (by omega)

@[simp] theorem read_nil (m : μ) : r.read m [] = some (m, none) := rfl

theorem read_of_next {m m' : μ} {input rest : List σ}
    (h : r.turn m input = some (.next m' rest)) : r.read m input = r.read m' rest := by
  have hlt := length_rest_lt h
  cases input with
  | nil => simp at hlt
  | cons b input =>
    rw [read, List.length_cons, readRecords, h]
    exact readRecords_eq_read (Nat.le_of_lt_succ hlt)

theorem read_of_stop {m m' : μ} {b : σ} {input : List σ} {reason : τ}
    (h : r.turn m (b :: input) = some (.stop m' reason)) :
    r.read m (b :: input) = some (m', some reason) := by
  rw [read, List.length_cons, readRecords, h]

theorem read_of_none {m : μ} {b : σ} {input : List σ} (h : r.turn m (b :: input) = none) :
    r.read m (b :: input) = none := by
  rw [read, List.length_cons, readRecords, h]

/-- A property of the states and inputs to which each record leads back, from the end of the
input. -/
theorem read_induction {P : μ → List σ → Prop} (hnil : ∀ m, P m [])
    (hstop : ∀ m b input, (∀ m' rest, r.turn m (b :: input) ≠ some (.next m' rest)) →
      P m (b :: input))
    (hnext : ∀ m input m' rest, r.turn m input = some (.next m' rest) → P m' rest → P m input)
    (m : μ) (input : List σ) : P m input := by
  induction hn : input.length using Nat.strongRecOn generalizing m input with
  | ind n ih =>
    cases input with
    | nil => exact hnil m
    | cons b input =>
      by_cases h : ∃ m' rest, r.turn m (b :: input) = some (.next m' rest)
      · obtain ⟨m', rest, h⟩ := h
        exact hnext _ _ _ _ h (ih rest.length (hn ▸ length_rest_lt h) m' rest rfl)
      · simp only [not_exists] at h
        exact hstop m b input h

/-- A loop whose turns may take several records at once reads the same. -/
theorem readRecords_eq_read_of_turns {turn : μ → List σ → Option (Turn σ μ τ)}
    (hnone : ∀ m b input, turn m (b :: input) = none → r.read m (b :: input) = none)
    (hstop : ∀ m b input m' reason, turn m (b :: input) = some (.stop m' reason) →
      r.read m (b :: input) = some (m', some reason))
    (hnext : ∀ m b input m' rest, turn m (b :: input) = some (.next m' rest) →
      rest.length ≤ input.length ∧ r.read m (b :: input) = r.read m' rest)
    {k : ℕ} {m : μ} {input : List σ} (h : input.length ≤ k) :
    readRecords turn k m input = r.read m input := by
  induction k generalizing m input with
  | zero =>
    obtain rfl := List.eq_nil_of_length_eq_zero (Nat.le_zero.mp h)
    rfl
  | succ k ih =>
    cases input with
    | nil => rfl
    | cons b input =>
      rw [List.length_cons] at h
      rw [readRecords]
      cases ht : turn m (b :: input) with
      | none => rw [hnone m b input ht]
      | some t =>
        cases t with
        | stop m' reason => rw [hstop m b input m' reason ht]
        | next m' rest =>
          obtain ⟨hle, heq⟩ := hnext m b input m' rest ht
          rw [heq]
          exact ih (by omega)

/-- **What follows an input that is used up is read from the state it leads to.** -/
theorem read_append {m m' : μ} {input : List σ} (h : r.read m input = some (m', none))
    (more : List σ) : r.read m (input ++ more) = r.read m' more := by
  induction m, input using read_induction (r := r) with
  | hnil m =>
    obtain ⟨rfl, -⟩ := Prod.mk.inj (Option.some.inj h)
    rfl
  | hstop m b input hstop =>
    cases ht : r.turn m (b :: input) with
    | none => rw [read_of_none ht] at h; cases h
    | some turn =>
      cases turn with
      | stop m₁ reason => rw [read_of_stop ht] at h; cases h
      | next m₁ rest => exact absurd ht (hstop m₁ rest)
  | hnext m input m₁ rest ht ih =>
    obtain ⟨word, -, rfl, hword⟩ := r.turn_word ht
    rw [read_of_next ht] at h
    rw [List.append_assoc, read_of_next (hword _)]
    exact ih h

/-- An update that commutes with the turns commutes with the run. -/
theorem read_map {f : μ → μ} (hf : ∀ m input, r.turn (f m) input = (r.turn m input).map (·.map f))
    (m : μ) (input : List σ) :
    r.read (f m) input = (r.read m input).map fun x => (f x.1, x.2) := by
  induction m, input using read_induction (r := r) with
  | hnil m => rfl
  | hstop m b input hstop =>
    have hfm := hf m (b :: input)
    cases ht : r.turn m (b :: input) with
    | none =>
      rw [ht] at hfm
      rw [read_of_none ht, read_of_none hfm, Option.map_none]
    | some turn =>
      rw [ht] at hfm
      cases turn with
      | stop m₁ reason => rw [read_of_stop ht, read_of_stop hfm, Option.map_some]
      | next m₁ rest => exact absurd ht (hstop m₁ rest)
  | hnext m input m₁ rest ht ih =>
    have hfm := hf m input
    rw [ht] at hfm
    rw [read_of_next ht, read_of_next hfm, ih]

end Reader

/-! ## Values in a state -/

namespace Codec

variable {α : Type*}

/-- The value that is read is stored in a state. -/
def store (c : Codec σ α) (set : μ → α → μ) (m : μ) (input : List σ) : Option (μ × List σ) :=
  (c.read input).map fun r => (set m r.1, r.2)

variable {c : Codec σ α} {set : μ → α → μ}

theorem store_write {a : α} (h : c.Writable a) (m : μ) (rest : List σ) :
    c.store set m (c.write a ++ rest) = some (set m a, rest) := by
  rw [store, c.read_write h, Option.map_some]

theorem store_word {m m' : μ} {input rest : List σ} (h : c.store set m input = some (m', rest)) :
    ∃ word, word ≠ [] ∧ input = word ++ rest ∧
      ∀ more, c.store set m (word ++ more) = some (m', more) := by
  obtain ⟨⟨a, r⟩, ha, heq⟩ := Option.map_eq_some_iff.mp h
  obtain ⟨rfl, rfl⟩ := Prod.mk.inj heq
  obtain ⟨word, hne, rfl, hword⟩ := c.read_word ha
  exact ⟨word, hne, rfl, fun more => by rw [store, hword, Option.map_some]⟩

theorem store_map {f : μ → μ} (hf : ∀ m a, set (f m) a = f (set m a)) (m : μ) (input : List σ) :
    c.store set (f m) input = (c.store set m input).map fun x => (f x.1, x.2) := by
  simp [store, hf, Function.comp_def]

end Codec

end Wire
