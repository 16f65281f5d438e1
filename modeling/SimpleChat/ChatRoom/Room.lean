import SimpleChat.Transition.Run
import Mathlib.Data.Set.Insert

/-!
# Chat rooms

What a chat is for: members with distinct names join and leave, and what a member says is heard by
all, in one order.

## Main definitions

* `Room`: the members of a room, and what was said in it
* `Room.step`: how they change

## Main results

* `Room.mem_members_of_run`: the members are those who joined and did not leave since
* `Room.history_of_run`: the history of a room is what was said in it, in order
-/

/-- The members of a room, and what was said in it, by whom. -/
structure Room (μ τ : Type*) where
  members : Set μ
  history : List (μ × τ)

namespace Room

open Transition

variable {μ τ ν : Type*}

/-- What can happen in a room. -/
inductive Act (μ τ : Type*) where
  | join (m : μ)
  | leave (m : μ)
  | say (m : μ) (text : τ)

/-- What is said, and by whom. -/
def Act.said : Act μ τ → Option (μ × τ)
  | say m text => some (m, text)
  | _ => none

def empty : Room μ τ := ⟨∅, []⟩

open Classical in
/-- Someone whose name is free joins, a member leaves, or a member says something. -/
noncomputable def step (name : μ → ν) (r : Room μ τ) : Act μ τ → Option (Room μ τ)
  | .join m =>
    if ∀ x ∈ r.members, name x ≠ name m then some { r with members := insert m r.members } else none
  | .leave m => if m ∈ r.members then some { r with members := r.members \ {m} } else none
  | .say m text => if m ∈ r.members then some { r with history := r.history ++ [(m, text)] } else none

variable {name : μ → ν} {r r' : Room μ τ}

/-- What a step does. -/
inductive StepCases (name : μ → ν) (r : Room μ τ) : Act μ τ → Room μ τ → Prop
  | join (m : μ) (h : ∀ x ∈ r.members, name x ≠ name m) :
      StepCases name r (.join m) { r with members := insert m r.members }
  | leave (m : μ) (h : m ∈ r.members) :
      StepCases name r (.leave m) { r with members := r.members \ {m} }
  | say (m : μ) (text : τ) (h : m ∈ r.members) :
      StepCases name r (.say m text) { r with history := r.history ++ [(m, text)] }

theorem step_cases {a : Act μ τ} (h : r.step name a = some r') : StepCases name r a r' := by
  cases a with
  | join m =>
    obtain ⟨hfree, h⟩ := Option.ite_none_right_eq_some.mp h
    obtain rfl := Option.some.inj h
    exact .join m hfree
  | leave m =>
    obtain ⟨hmem, h⟩ := Option.ite_none_right_eq_some.mp h
    obtain rfl := Option.some.inj h
    exact .leave m hmem
  | say m text =>
    obtain ⟨hmem, h⟩ := Option.ite_none_right_eq_some.mp h
    obtain rfl := Option.some.inj h
    exact .say m text hmem

theorem step_join {m : μ} (h : ∀ x ∈ r.members, name x ≠ name m) :
    r.step name (.join m) = some { r with members := insert m r.members } := if_pos h

theorem step_join_eq_none {m x : μ} (hx : x ∈ r.members) (h : name x = name m) :
    r.step name (.join m) = none := if_neg fun hall => hall x hx h

theorem step_leave {m : μ} (h : m ∈ r.members) :
    r.step name (.leave m) = some { r with members := r.members \ {m} } := if_pos h

theorem step_say {m : μ} {text : τ} (h : m ∈ r.members) :
    r.step name (.say m text) = some { r with history := r.history ++ [(m, text)] } := if_pos h

/-- The last act of a list lets `m` in, or it spares `m`, who was let in before. -/
theorem exists_concat_split {as : List (Act μ τ)} {m : μ} (a : Act μ τ) :
    (∃ p q, as ++ [a] = p ++ .join m :: q ∧ .leave m ∉ q) ↔
      a = .join m ∨ (∃ p q, as = p ++ .join m :: q ∧ .leave m ∉ q) ∧ a ≠ .leave m := by
  constructor
  · rintro ⟨p, q, heq, hq⟩
    rcases List.eq_nil_or_concat q with rfl | ⟨q, b, rfl⟩
    · exact .inl (List.singleton_inj.mp (List.append_inj_right' heq rfl))
    · rw [List.concat_eq_append, ← List.cons_append, ← List.append_assoc] at heq
      obtain ⟨has, hab⟩ := List.append_inj' heq rfl
      obtain rfl := List.singleton_inj.mp hab
      rw [List.concat_eq_append, List.mem_append, List.mem_singleton, not_or] at hq
      exact .inr ⟨⟨p, q, has, hq.1⟩, Ne.symm hq.2⟩
  · rintro (rfl | ⟨⟨p, q, rfl, hq⟩, ha⟩)
    · exact ⟨as, [], rfl, by simp⟩
    · refine ⟨p, q ++ [a], by simp, ?_⟩
      rw [List.mem_append, List.mem_singleton, not_or]
      exact ⟨hq, Ne.symm ha⟩

/-- The members of a room that was empty are those who joined and did not leave since. -/
theorem mem_members_of_run {as : List (Act μ τ)} (h : run (step name) empty as = some r) (m : μ) :
    m ∈ r.members ↔ ∃ p q, as = p ++ .join m :: q ∧ .leave m ∉ q := by
  refine run_history_induction (P := fun as r => m ∈ r.members ↔
    ∃ p q, as = p ++ .join m :: q ∧ .leave m ∉ q) (by simp [empty]) ?_ h
  intro as t a u _ ih hstep
  -- either the last act lets `m` in, or it has to spare `m`, who was in
  rw [exists_concat_split a, ← ih]
  cases step_cases hstep with
  | join x hfree =>
    show m ∈ insert x t.members ↔ _
    rw [Set.mem_insert_iff, @eq_comm _ m]
    simp
  | leave x hx =>
    show m ∈ t.members \ {x} ↔ _
    rw [Set.mem_sdiff, Set.mem_singleton_iff, @eq_comm _ m]
    simp [and_comm]
  | say x text hx =>
    show m ∈ t.members ↔ _
    simp

/-- The history of a room is what was said in it, in order. -/
theorem history_of_run {as : List (Act μ τ)} (h : run (step name) r as = some r') :
    r'.history = r.history ++ as.filterMap Act.said := by
  refine run_history_induction (P := fun p u => u.history = r.history ++ p.filterMap Act.said)
    (by simp) ?_ h
  intro p u a v _ ih hstep
  rw [List.filterMap_append, ← List.append_assoc, ← ih]
  cases step_cases hstep <;> simp [Act.said]

end Room
