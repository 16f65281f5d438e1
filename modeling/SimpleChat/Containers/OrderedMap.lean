import Mathlib.Data.Finset.Insert
import Mathlib.Order.Defs.LinearOrder

/-!
# Ordered maps

The ordered containers of the C++ standard library. A `std::map` with distinct keys under its
comparator is an extensional tree map. A `std::map` or `std::set` whose comparator looks at one
component of its keys only is a `KeyedMap`: the map holds, for each value of that component, the
key that was inserted first, with its whole record.

## Main definitions

* `subscript m k`: `m[k]`, which inserts a default value when `k` is missing
* `KeyedMap key β`: a map ordered by `key`, whose stored keys carry the component they are
  stored under
* `KeyedMap.insert`, `KeyedMap.assign`, `KeyedMap.erase`: `insert`, `m[k] = v` and `erase`

## Main results

* `find?_toList_eq_some`: a search in key order finds the least key
* `subscript_of_getElem?`, `erase_subscript`: when and how the default entry is seen
* `KeyedMap.find?_alter`: every operation changes one component only
* `KeyedMap.alter_comm`: operations at different components commute
-/

namespace Containers

open Std

/-- The order of the keys is the comparator of a tree map. -/
instance transOrd_of_linearOrder {κ : Type} [LinearOrder κ] : TransOrd κ := inferInstance

/-- A `std::map` over keys that the comparator tells apart. -/
abbrev OrderedMap (κ β : Type) [Ord κ] := ExtTreeMap κ β compare

section Lookup

variable {κ β : Type} [Ord κ] [TransOrd κ]

theorem mem_of_getElem? {m : OrderedMap κ β} {k : κ} {v : β} (h : m[k]? = some v) : k ∈ m := by
  simp [ExtTreeMap.mem_iff_isSome_getElem?, h]

theorem exists_getElem?_of_mem {m : OrderedMap κ β} {k : κ} (h : k ∈ m) :
    ∃ v, m[k]? = some v :=
  Option.isSome_iff_exists.mp (ExtTreeMap.mem_iff_isSome_getElem?.mp h)

end Lookup

section Erase

variable {κ β : Type} [Ord κ] [TransOrd κ] [LawfulEqOrd κ]

theorem erase_of_not_mem {m : OrderedMap κ β} {k : κ} (h : k ∉ m) : m.erase k = m := by
  apply ExtTreeMap.ext_getElem?
  intro a
  by_cases ha : k = a
  · subst ha
    simp [ExtTreeMap.getElem?_eq_none h]
  · simp [ExtTreeMap.getElem?_erase, ha]

theorem erase_comm (m : OrderedMap κ β) (k k' : κ) : (m.erase k).erase k' = (m.erase k').erase k := by
  apply ExtTreeMap.ext_getElem?
  intro a
  simp only [ExtTreeMap.getElem?_erase]
  split <;> split <;> rfl

/-- Inserting at one key and erasing another commute. -/
theorem erase_insertIfNew_of_ne (m : OrderedMap κ β) {k k' : κ} (v : β) (h : k ≠ k') :
    (m.insertIfNew k v).erase k' = (m.erase k').insertIfNew k v := by
  have hmem : k ∈ m.erase k' ↔ k ∈ m := by
    rw [ExtTreeMap.mem_erase]
    simp [Ne.symm h]
  apply ExtTreeMap.ext_getElem?
  intro a
  by_cases ha : k' = a
  · subst ha
    simp [h]
  · have hne : compare k' a ≠ .eq := fun heq => ha (LawfulEqCmp.eq_of_compare heq)
    simp only [ExtTreeMap.getElem?_erase, ExtTreeMap.getElem?_insertIfNew, hmem, hne, if_false]

/-- Erasing undoes an insertion at the same key. -/
theorem erase_insertIfNew (m : OrderedMap κ β) (k : κ) (v : β) :
    (m.insertIfNew k v).erase k = m.erase k := by
  apply ExtTreeMap.ext_getElem?
  intro a
  by_cases ha : k = a
  · simp [ha]
  · simp [ExtTreeMap.getElem?_erase, ExtTreeMap.getElem?_insertIfNew, ha]

end Erase

section Search

variable {κ β : Type} [LinearOrder κ] {m : OrderedMap κ β} {p : β → Bool}

theorem least_of_find? {e : κ × β} (h : (m.toList.find? fun e => p e.2) = some e) :
    m[e.1]? = some e.2 ∧ p e.2 = true ∧ ∀ k v, m[k]? = some v → p v = true → e.1 ≤ k := by
  obtain ⟨hp, as, bs, hsplit, has⟩ := List.find?_eq_some_iff_append.mp h
  have hsorted := m.ordered_keys_toList
  rw [hsplit] at hsorted
  -- the keys after the one found are greater, and the values before it were not searched for
  have hafter := (List.pairwise_cons.mp (List.pairwise_append.mp hsorted).2.1).1
  refine ⟨ExtTreeMap.mem_toList_iff_getElem?_eq_some.mp (by simp [hsplit]), hp, ?_⟩
  intro k v hkv hpv
  have hmem : (k, v) ∈ as ++ e :: bs := by
    rw [← hsplit]
    exact ExtTreeMap.mem_toList_iff_getElem?_eq_some.mpr hkv
  rcases List.mem_append.mp hmem with hmem | hmem
  · have hnot := has _ hmem
    simp [hpv] at hnot
  · rcases List.mem_cons.mp hmem with rfl | hmem
    · exact le_rfl
    · exact (compare_lt_iff_lt.mp (hafter _ hmem)).le

/-- A search in key order finds the least key whose value is searched for. -/
theorem find?_toList_eq_some {k : κ} :
    (m.toList.find? fun e => p e.2).map Prod.fst = some k ↔
      (∃ v, m[k]? = some v ∧ p v = true) ∧
        ∀ k' v, m[k']? = some v → p v = true → k ≤ k' := by
  constructor
  · intro h
    obtain ⟨e, he, rfl⟩ := Option.map_eq_some_iff.mp h
    obtain ⟨hget, hp, hleast⟩ := least_of_find? he
    exact ⟨⟨e.2, hget, hp⟩, hleast⟩
  · rintro ⟨⟨v, hkv, hpv⟩, hleast⟩
    have hsome : (m.toList.find? fun e => p e.2).isSome = true :=
      List.find?_isSome.mpr ⟨(k, v), ExtTreeMap.mem_toList_iff_getElem?_eq_some.mpr hkv, hpv⟩
    obtain ⟨e, he⟩ := Option.isSome_iff_exists.mp hsome
    obtain ⟨hget, hp, hmin⟩ := least_of_find? he
    rw [he, Option.map_some, (hmin k v hkv hpv).antisymm (hleast e.1 e.2 hget hp)]

end Search

section Subscript

variable {κ β : Type} [Ord κ] [TransOrd κ] [LawfulEqOrd κ] [Inhabited β]

/-- `m[k]`: the value at `k`, and the map, in which a default value is inserted at `k` when there
is none. -/
def subscript (m : OrderedMap κ β) (k : κ) : β × OrderedMap κ β :=
  (m.getD k default, m.insertIfNew k default)

theorem subscript_of_getElem? {m : OrderedMap κ β} {k : κ} {v : β} (h : m[k]? = some v) :
    subscript m k = (v, m) := by
  have hk : k ∈ m := mem_of_getElem? h
  have hm : m.insertIfNew k default = m := by
    apply ExtTreeMap.ext_getElem?
    intro a
    simp [ExtTreeMap.getElem?_insertIfNew, hk]
  simp [subscript, hm, ExtTreeMap.getD_eq_getD_getElem?, h]

/-- Erasing the key that was looked up removes a default entry, too. -/
theorem erase_subscript (m : OrderedMap κ β) (k : κ) : (subscript m k).2.erase k = m.erase k :=
  erase_insertIfNew m k default

/-- A lookup does not see what was erased at another key. -/
theorem subscript_erase_of_ne (m : OrderedMap κ β) {k k' : κ} (h : k ≠ k') :
    (subscript (m.erase k') k).1 = (subscript m k).1 := by
  simp [subscript, ExtTreeMap.getD_erase, Ne.symm h]

end Subscript

section Keyed

variable {α κ : Type} [Ord κ] [TransOrd κ] [LawfulEqOrd κ]

/-- A map ordered by the component `key` of its keys: each stored key is stored under its own
component. -/
structure KeyedMap (key : α → κ) (β : Type) where
  entries : OrderedMap κ (α × β)
  keyed : ∀ k e, entries[k]? = some e → key e.1 = k

namespace KeyedMap

variable {key : α → κ} {β : Type}

/-- The stored key and value at a component. -/
def find? (m : KeyedMap key β) (k : κ) : Option (α × β) := m.entries[k]?

/-- The stored keys and values in the order of their components. -/
def toList (m : KeyedMap key β) : List (α × β) := m.entries.toList.map Prod.snd

omit [LawfulEqOrd κ] in
theorem key_of_find? {m : KeyedMap key β} {k : κ} {e : α × β} (h : m.find? k = some e) :
    key e.1 = k := m.keyed k e h

theorem ext_find? {m m' : KeyedMap key β} (h : ∀ k, m.find? k = m'.find? k) : m = m' := by
  have he : m.entries = m'.entries := ExtTreeMap.ext_getElem? h
  cases m
  cases m'
  simpa using he

theorem mem_toList {m : KeyedMap key β} {e : α × β} :
    e ∈ m.toList ↔ m.find? (key e.1) = some e := by
  rw [toList, List.mem_map]
  constructor
  · rintro ⟨⟨k, e'⟩, h, rfl⟩
    have hf : m.find? k = some e' := ExtTreeMap.mem_toList_iff_getElem?_eq_some.mp h
    rwa [key_of_find? hf]
  · exact fun h => ⟨(_, e), ExtTreeMap.mem_toList_iff_getElem?_eq_some.mpr h, rfl⟩

/-- The stored keys come in the order of their components, each component once. -/
theorem pairwise_toList (m : KeyedMap key β) :
    m.toList.Pairwise fun e e' => compare (key e.1) (key e'.1) = .lt := by
  rw [toList, List.pairwise_map]
  refine ExtTreeMap.ordered_keys_toList.imp_of_mem ?_
  intro x y hx hy hlt
  rw [m.keyed _ _ (ExtTreeMap.mem_toList_iff_getElem?_eq_some.mp hx),
    m.keyed _ _ (ExtTreeMap.mem_toList_iff_getElem?_eq_some.mp hy)]
  exact hlt

instance : EmptyCollection (KeyedMap key β) := ⟨⟨∅, by simp⟩⟩

omit [LawfulEqOrd κ] in
@[simp] theorem find?_empty (k : κ) : (∅ : KeyedMap key β).find? k = none :=
  ExtTreeMap.getElem?_empty

/-- A change of the entry at the component `k` that keeps the entry there. -/
structure Change (key : α → κ) (β : Type) (k : κ) where
  apply : Option (α × β) → Option (α × β)
  keyed : ∀ o e, (∀ e' ∈ o, key e'.1 = k) → apply o = some e → key e.1 = k

/-- The map with the entry at one component changed. -/
def alter (m : KeyedMap key β) {k : κ} (c : Change key β k) : KeyedMap key β where
  entries := m.entries.alter k c.apply
  keyed := by
    intro k' e he
    rw [ExtTreeMap.getElem?_alter] at he
    by_cases hk : k = k'
    · subst hk
      rw [if_pos (by simp)] at he
      exact c.keyed _ e (fun e' he' => m.keyed k e' he') he
    · rw [if_neg (by simpa using hk)] at he
      exact m.keyed k' e he

theorem find?_alter [DecidableEq κ] (m : KeyedMap key β) {k : κ} (c : Change key β k) (k' : κ) :
    (m.alter c).find? k' = if k = k' then c.apply (m.find? k) else m.find? k' := by
  simp only [find?, alter, ExtTreeMap.getElem?_alter, LawfulEqCmp.compare_eq_iff_eq]

/-- Changes at different components commute. -/
theorem alter_comm [DecidableEq κ] (m : KeyedMap key β) {k k' : κ} (c : Change key β k)
    (c' : Change key β k') (hk : k ≠ k') : (m.alter c).alter c' = (m.alter c').alter c := by
  apply ext_find?
  intro a
  by_cases ha : k = a
  · subst ha
    simp [find?_alter, hk.symm]
  · by_cases ha' : k' = a
    · subst ha'
      simp [find?_alter, hk]
    · simp [find?_alter, ha, ha']

/-- `insert`: the entry at the component of `a` stays when there is one. -/
def insertChange (a : α) (b : β) : Change key β (key a) where
  apply o := some (o.getD (a, b))
  keyed := by
    rintro (_ | e') e ho he <;> cases he
    · rfl
    · exact ho e' rfl

/-- `m[a] = b`: the value is replaced, a stored key stays. -/
def assignChange (a : α) (b : β) : Change key β (key a) where
  apply o := some ((o.map Prod.fst).getD a, b)
  keyed := by
    rintro (_ | e') e ho he <;> cases he
    · rfl
    · exact ho e' rfl

/-- `erase`. -/
def eraseChange (a : α) : Change key β (key a) where
  apply _ := none
  keyed := by simp

def insert (m : KeyedMap key β) (a : α) (b : β) : KeyedMap key β := m.alter (insertChange a b)

def assign (m : KeyedMap key β) (a : α) (b : β) : KeyedMap key β := m.alter (assignChange a b)

def erase (m : KeyedMap key β) (a : α) : KeyedMap key β := m.alter (eraseChange a)

variable [DecidableEq κ] (m : KeyedMap key β) (a : α) (b : β) (k : κ)

theorem find?_insert :
    (m.insert a b).find? k = if key a = k then some ((m.find? (key a)).getD (a, b))
      else m.find? k :=
  m.find?_alter _ k

theorem find?_assign :
    (m.assign a b).find? k =
      if key a = k then some (((m.find? (key a)).map Prod.fst).getD a, b) else m.find? k :=
  m.find?_alter _ k

theorem find?_erase : (m.erase a).find? k = if key a = k then none else m.find? k :=
  m.find?_alter _ k

end KeyedMap

end Keyed

end Containers
