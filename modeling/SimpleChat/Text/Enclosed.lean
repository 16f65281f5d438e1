import Mathlib.Algebra.GroupWithZero.Nat
import Mathlib.Data.List.Basic

/-!
# Separated lists with a closing delimiter

The text `x₁,x₂,…,xₙ)`: how a loop writes it, how long it is, and how a parser reads it.

## Main definitions

* `enclosed sep close xs`: the items with a separator after each but the last, which is closed
* `readEnclosed item sep close`: a parser of the items of such a list of tokens

## Main results

* `dropLast_foldl_append`: the loop that writes a separator after every item, and takes the last
  one back
* `readEnclosed_eq_some`: the parser accepts the enclosed lists, and returns their items
-/

namespace Text

variable {α β τ : Type*}

/-- The items, with `sep` between them and `close` at the end. -/
def enclosed (sep close : α) : List (List α) → List α
  | [] => [close]
  | [x] => x ++ [close]
  | x :: y :: xs => x ++ sep :: enclosed sep close (y :: xs)

/-- A loop that writes `sep` after every item; the last one is then replaced by `close`. -/
theorem dropLast_foldl_append (sep close : α) {xs : List (List α)} (hxs : xs ≠ [])
    (acc : List α) :
    (xs.foldl (fun acc x => acc ++ (x ++ [sep])) acc).dropLast ++ [close] =
      acc ++ enclosed sep close xs := by
  induction xs generalizing acc with
  | nil => exact absurd rfl hxs
  | cons x xs ih =>
    cases xs with
    | nil => simp [enclosed, ← List.append_assoc]
    | cons y ys =>
      rw [List.foldl_cons, ih (List.cons_ne_nil _ _)]
      simp [enclosed]

/-- The weight of an enclosed list whose delimiters weigh one. -/
theorem sum_enclosed {weight : α → ℕ} {sep close : α} (hsep : weight sep = 1)
    (hclose : weight close = 1) {xs : List (List α)} (hxs : xs ≠ []) :
    ((enclosed sep close xs).map weight).sum =
      (xs.map fun x => (x.map weight).sum + 1).sum := by
  induction xs with
  | nil => exact absurd rfl hxs
  | cons x xs ih =>
    cases xs with
    | nil => simp [enclosed, hclose]
    | cons y ys =>
      have htail := ih (List.cons_ne_nil _ _)
      simp only [enclosed, List.map_append, List.sum_append, List.map_cons, List.sum_cons, hsep]
        at htail ⊢
      omega

theorem length_enclosed (sep close : α) {xs : List (List α)} (hxs : xs ≠ []) :
    (enclosed sep close xs).length = (xs.map fun x => x.length + 1).sum := by
  have hsum := @sum_enclosed α (fun _ => 1) sep close rfl rfl xs hxs
  simpa using hsum

theorem mem_enclosed {sep close a : α} {xs : List (List α)} (h : a ∈ enclosed sep close xs) :
    a = sep ∨ a = close ∨ ∃ x ∈ xs, a ∈ x := by
  induction xs with
  | nil => exact .inr (.inl (by simpa [enclosed] using h))
  | cons x xs ih =>
    cases xs with
    | nil =>
      rcases List.mem_append.mp h with h | h
      · exact .inr (.inr ⟨x, List.mem_cons_self .., h⟩)
      · exact .inr (.inl (List.mem_singleton.mp h))
    | cons y ys =>
      rcases List.mem_append.mp h with h | h
      · exact .inr (.inr ⟨x, List.mem_cons_self .., h⟩)
      · rcases List.mem_cons.mp h with h | h
        · exact .inl h
        · rcases ih h with h | h | ⟨z, hz, h⟩
          · exact .inl h
          · exact .inr (.inl h)
          · exact .inr (.inr ⟨z, List.mem_cons_of_mem _ hz, h⟩)

theorem mem_enclosed_of_mem {sep close a : α} {xs : List (List α)} {x : List α} (hx : x ∈ xs)
    (ha : a ∈ x) : a ∈ enclosed sep close xs := by
  induction xs with
  | nil => cases hx
  | cons y xs ih =>
    cases xs with
    | nil =>
      obtain rfl := List.mem_singleton.mp hx
      exact List.mem_append_left _ ha
    | cons z zs =>
      rcases List.mem_cons.mp hx with rfl | hx
      · exact List.mem_append_left _ ha
      · exact List.mem_append_right _ (List.mem_cons_of_mem _ (ih hx))

section Read

variable [DecidableEq τ]

/-- The items of an enclosed list of tokens, each read by `item`, and the tokens after it. -/
def readEnclosed (item : τ → Option α) (sep close : τ) : List τ → Option (List α × List τ)
  | t :: d :: ts =>
    match item t with
    | none => none
    | some a =>
      if d = sep then (readEnclosed item sep close ts).map fun r => (a :: r.1, r.2)
      else if d = close then some ([a], ts)
      else none
  | _ => none

variable {item : τ → Option α} {sep close : τ} {tok : α → τ} {ok : α → Prop}

theorem readEnclosed_enclosed (hne : sep ≠ close) (hitem : ∀ a, ok a → item (tok a) = some a)
    {as : List α} (has : as ≠ []) (hok : ∀ a ∈ as, ok a) (rest : List τ) :
    readEnclosed item sep close (enclosed sep close (as.map fun a => [tok a]) ++ rest) =
      some (as, rest) := by
  induction as with
  | nil => exact absurd rfl has
  | cons a as ih =>
    have ha := hitem a (hok a (List.mem_cons_self ..))
    cases as with
    | nil => simp [enclosed, readEnclosed, ha, hne.symm]
    | cons b bs =>
      have htail := ih (List.cons_ne_nil _ _) fun x hx => hok x (List.mem_cons_of_mem _ hx)
      simp only [List.map_cons] at htail
      simp [enclosed, readEnclosed, ha, htail]

theorem enclosed_of_readEnclosed (hitem : ∀ t a, item t = some a → t = tok a ∧ ok a)
    {ts rest : List τ} {as : List α} (h : readEnclosed item sep close ts = some (as, rest)) :
    as ≠ [] ∧ (∀ a ∈ as, ok a) ∧
      ts = enclosed sep close (as.map fun a => [tok a]) ++ rest := by
  induction ts using readEnclosed.induct item sep close generalizing as with
  | case1 t d ts hnone => simp [readEnclosed, hnone] at h
  | case2 t ts a ha ih =>
    simp only [readEnclosed, ha, if_true, Option.map_eq_some_iff] at h
    obtain ⟨⟨bs, r⟩, hr, heq⟩ := h
    obtain ⟨rfl, rfl⟩ := Prod.mk.inj heq
    obtain ⟨hbs, hok, rfl⟩ := ih hr
    obtain ⟨rfl, hoka⟩ := hitem t a ha
    refine ⟨List.cons_ne_nil _ _, by simpa using ⟨hoka, hok⟩, ?_⟩
    cases bs with
    | nil => exact absurd rfl hbs
    | cons b bs => simp [enclosed]
  | case3 t ts a ha hne =>
    simp only [readEnclosed, ha, if_neg hne, if_true] at h
    obtain ⟨rfl, rfl⟩ := Prod.mk.inj (Option.some.inj h)
    obtain ⟨rfl, hoka⟩ := hitem t a ha
    exact ⟨List.cons_ne_nil _ _, by simpa using hoka, by simp [enclosed]⟩
  | case4 t d ts a ha hsep hclose => simp [readEnclosed, ha, hsep, hclose] at h
  | case5 ts hshort =>
    rw [readEnclosed] at h
    · cases h
    · exact hshort

/-- The parser accepts exactly the lists of at least one item, and returns the items. -/
theorem readEnclosed_eq_some (hne : sep ≠ close)
    (hitem : ∀ t a, item t = some a ↔ t = tok a ∧ ok a) {ts rest : List τ} {as : List α} :
    readEnclosed item sep close ts = some (as, rest) ↔
      as ≠ [] ∧ (∀ a ∈ as, ok a) ∧
        ts = enclosed sep close (as.map fun a => [tok a]) ++ rest := by
  constructor
  · exact enclosed_of_readEnclosed fun t a => (hitem t a).mp
  · rintro ⟨has, hok, rfl⟩
    exact readEnclosed_enclosed hne (fun a ha => (hitem _ a).mpr ⟨rfl, ha⟩) has hok rest

end Read

end Text
