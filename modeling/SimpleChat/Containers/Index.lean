import SimpleChat.Containers.OrderedMap
import Mathlib.Logic.Function.Basic

/-!
# A relation stored as a map of sets

An index stores a relation between elements and keys as a map from keys to sets of elements. The
entry of a key is created when it is looked up, and dropped when its last element is erased; a
failed erase leaves the created entry.

## Main definitions

* `Index κ ι`: the map; `Index.Listed`: the relation it stores
* `Index.insert`, `Index.erase`: storing and removing one pair
* `Index.NoEmpty`: no entry is an empty set

## Main results

* `Index.listed_insert`, `Index.listed_erase`, `Index.listed_foldl_erase`: the stored relation
  changes by the pairs named
* `Index.noEmpty_insert`, `Index.noEmpty_erase`, `Index.noEmpty_foldl_erase`: when an empty entry is
  left
-/

namespace Containers

open Std

variable {κ ι : Type} [DecidableEq κ] [Ord ι] [TransOrd ι] [LawfulEqOrd ι]

/-- A map from keys to sets of elements. -/
structure Index (κ ι : Type) [Ord ι] where
  sets : κ → Option (ExtTreeSet ι compare)

namespace Index

/-- The element is stored in the set of the key. -/
def Listed (m : Index κ ι) (i : ι) (k : κ) : Prop := ∃ s, m.sets k = some s ∧ i ∈ s

instance : EmptyCollection (Index κ ι) := ⟨⟨fun _ => none⟩⟩

/-- `m[k].insert(i)`. -/
def insert (m : Index κ ι) (i : ι) (k : κ) : Index κ ι :=
  ⟨Function.update m.sets k (some (((m.sets k).getD ∅).insert i))⟩

/-- `if (m[k].erase(i)) if (m[k].empty()) m.erase(k)`. -/
def erase (m : Index κ ι) (i : ι) (k : κ) : Index κ ι :=
  let s := (m.sets k).getD ∅
  if i ∈ s then
    if (s.erase i).isEmpty then ⟨Function.update m.sets k none⟩
    else ⟨Function.update m.sets k (some (s.erase i))⟩
  else ⟨Function.update m.sets k (some s)⟩

omit [DecidableEq κ] [LawfulEqOrd ι] in
@[simp] theorem not_listed_empty (i : ι) (k : κ) : ¬ (∅ : Index κ ι).Listed i k := by
  rintro ⟨s, hs, -⟩
  cases hs

omit [DecidableEq κ] [LawfulEqOrd ι] in
theorem listed_iff_getD (m : Index κ ι) (i : ι) (k : κ) :
    m.Listed i k ↔ i ∈ (m.sets k).getD ∅ := by
  cases h : m.sets k <;> simp [Listed, h]

theorem listed_insert (m : Index κ ι) (i j : ι) (k l : κ) :
    (m.insert i k).Listed j l ↔ j = i ∧ l = k ∨ m.Listed j l := by
  by_cases hl : l = k
  · subst hl
    rw [listed_iff_getD, listed_iff_getD]
    simp [insert, @eq_comm _ j i]
  · simp [Listed, insert, hl]

theorem listed_erase (m : Index κ ι) (i j : ι) (k l : κ) :
    (m.erase i k).Listed j l ↔ ¬ (j = i ∧ l = k) ∧ m.Listed j l := by
  by_cases hl : l = k
  · subst hl
    rw [listed_iff_getD, listed_iff_getD]
    simp only [erase]
    split
    · split
      · -- the last element was erased, and the entry with it
        rename_i hempty
        have hnot : ∀ x, x ∉ ((m.sets l).getD ∅).erase i := by
          intro x hx
          rw [ExtTreeSet.isEmpty_iff.mp hempty] at hx
          exact ExtTreeSet.not_mem_empty hx
        have hj := hnot j
        rw [ExtTreeSet.mem_erase] at hj
        simpa [@eq_comm _ j i] using hj
      · simp [@eq_comm _ j i]
    · -- nothing was erased, but the entry may be new and empty
      rename_i hi
      refine ⟨fun hj => ⟨?_, by simpa using hj⟩, fun hj => by simpa using hj.2⟩
      rintro ⟨rfl, -⟩
      exact hi (by simpa using hj)
  · simp only [erase]
    split
    · split <;> simp [Listed, hl]
    · simp [Listed, hl]

/-- Erasing one element at several keys. -/
theorem listed_foldl_erase (ks : List κ) (m : Index κ ι) (i j : ι) (l : κ) :
    (ks.foldl (fun m k => m.erase i k) m).Listed j l ↔ ¬ (j = i ∧ l ∈ ks) ∧ m.Listed j l := by
  induction ks generalizing m with
  | nil => simp
  | cons k ks ih =>
    rw [List.foldl_cons, ih, listed_erase]
    simp only [List.mem_cons]
    tauto

/-! ## Empty entries -/

/-- Every entry stores some element. -/
def NoEmpty (m : Index κ ι) : Prop := ∀ k s, m.sets k = some s → ∃ i, i ∈ s

omit [DecidableEq κ] [LawfulEqOrd ι] in
theorem noEmpty_empty : (∅ : Index κ ι).NoEmpty := by
  intro k s hs
  cases hs

theorem noEmpty_insert {m : Index κ ι} (h : m.NoEmpty) (i : ι) (k : κ) : (m.insert i k).NoEmpty := by
  intro l s hs
  by_cases hl : l = k
  · subst hl
    obtain rfl : ((m.sets l).getD ∅).insert i = s := by simpa [insert] using hs
    exact ⟨i, by simp⟩
  · exact h l s (by simpa [insert, hl] using hs)

omit [LawfulEqOrd ι]

theorem sets_erase_of_ne (m : Index κ ι) (i : ι) {k l : κ} (h : l ≠ k) :
    (m.erase i k).sets l = m.sets l := by
  unfold erase
  dsimp only
  split
  · split <;> simp [h]
  · simp [h]

/-- The entry of the key after an erase: there was none, or it is not left empty. -/
theorem sets_erase_self (m : Index κ ι) (i : ι) (k : κ) :
    m.sets k = none ∧ (m.erase i k).sets k = some ∅ ∨
      ∃ s, m.sets k = some s ∧
        ((∃ j, j ∈ s) → ∀ s', (m.erase i k).sets k = some s' → ∃ j, j ∈ s') := by
  cases hk : m.sets k with
  | none => exact .inl ⟨rfl, by simp [erase, hk]⟩
  | some s =>
    refine .inr ⟨s, rfl, fun hne s' hs' => ?_⟩
    simp only [erase, hk, Option.getD_some] at hs'
    split at hs'
    · split at hs'
      · simp at hs'
      · rename_i hnot
        obtain rfl : s.erase i = s' := by simpa using hs'
        by_contra hnone
        push Not at hnone
        exact hnot (ExtTreeSet.isEmpty_iff.mpr (ExtTreeSet.eq_empty_iff_forall_not_mem.mpr hnone))
    · obtain rfl : s = s' := by simpa using hs'
      exact hne

/-- Erasing leaves an empty entry exactly if it looks up a key without an entry. -/
theorem noEmpty_erase {m : Index κ ι} (h : m.NoEmpty) (i : ι) (k : κ) :
    (m.erase i k).NoEmpty ↔ ∃ s, m.sets k = some s := by
  rcases m.sets_erase_self i k with ⟨hnone, hempty⟩ | ⟨s, hs, hleft⟩
  · refine iff_of_false (fun hno => ?_) (by simp [hnone])
    obtain ⟨j, hj⟩ := hno k ∅ hempty
    exact ExtTreeSet.not_mem_empty hj
  · refine iff_of_true (fun l s' hs' => ?_) ⟨s, hs⟩
    by_cases hl : l = k
    · subst hl
      exact hleft (h l s hs) s' hs'
    · exact h l s' (by rwa [sets_erase_of_ne m i hl] at hs')

theorem sets_foldl_erase_of_not_mem {ks : List κ} {k : κ} (hk : k ∉ ks) (m : Index κ ι) (i : ι) :
    (ks.foldl (fun m k => m.erase i k) m).sets k = m.sets k := by
  induction ks generalizing m with
  | nil => rfl
  | cons l ks ih =>
    obtain ⟨hne, hk⟩ := not_or.mp (mt List.mem_cons.mpr hk)
    rw [List.foldl_cons, ih hk, sets_erase_of_ne m i hne]

/-- Erasing at several keys leaves an empty entry exactly if one of them has no entry. -/
theorem noEmpty_foldl_erase {ks : List κ} (hks : ks.Nodup) {m : Index κ ι} (h : m.NoEmpty) (i : ι) :
    (ks.foldl (fun m k => m.erase i k) m).NoEmpty ↔ ∀ k ∈ ks, ∃ s, m.sets k = some s := by
  induction ks generalizing m with
  | nil => simpa using h
  | cons k ks ih =>
    obtain ⟨hk, hks⟩ := List.nodup_cons.mp hks
    rw [List.foldl_cons, List.forall_mem_cons]
    rcases m.sets_erase_self i k with ⟨hnone, hempty⟩ | ⟨s, hs, -⟩
    · -- the empty entry stays, for no other key is this one
      refine iff_of_false (fun hno => ?_) (by simp [hnone])
      obtain ⟨j, hj⟩ := hno k ∅ ((sets_foldl_erase_of_not_mem hk _ i).trans hempty)
      exact ExtTreeSet.not_mem_empty hj
    · rw [ih hks ((noEmpty_erase h i k).mpr ⟨s, hs⟩), and_iff_right ⟨s, hs⟩]
      refine forall₂_congr fun l hl => ?_
      have hlk : l ≠ k := by
        rintro rfl
        exact hk hl
      rw [sets_erase_of_ne m i hlk]

end Index

end Containers
