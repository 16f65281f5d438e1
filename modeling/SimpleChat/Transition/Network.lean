import SimpleChat.Transition.Run
import Mathlib.Logic.Function.Basic

/-!
# A sender and receivers behind channels

A sender takes steps that put messages into channels. Each channel keeps its messages in order, and
delivers the first of them at any time. So a run is a run of the sender and, at the same time, a run
of the receiver over the arrivals, and on each channel the arrivals are an initial part of what was
sent.

## Main definitions

* `Network`, `Network.step`: the sender, the channels and the receiver
* `Network.sends`, `Network.arrivals`: the steps of the sender, and the messages that arrived
* `Network.sent`: the messages that the sender puts into a channel

## Main results

* `Network.run_sender`, `Network.run_receiver`: the two parts of a run
* `Network.arrived_append_inFlight`: nothing is lost, doubled or overtaken on a channel
-/

namespace Transition

/-- A sender, the messages in each channel and a receiver. -/
structure Network (σ κ μ ρ : Type*) where
  sender : σ
  inFlight : κ → List μ
  receiver : ρ

namespace Network

variable {σ α κ μ ρ : Type*}

/-- The steps of a network. -/
inductive Label (α κ : Type*) where
  | send (a : α)
  | arrive (k : κ)

variable [DecidableEq κ] (next : σ → α → Option σ) (out : κ → σ → α → List μ)
  (recv : ρ → κ × μ → Option ρ)

/-- The sender and the receiver, with empty channels. -/
def init (s : σ) (r : ρ) : Network σ κ μ ρ := ⟨s, fun _ => [], r⟩

def step (n : Network σ κ μ ρ) : Label α κ → Option (Network σ κ μ ρ)
  | .send a => (next n.sender a).map fun s =>
      ⟨s, fun k => n.inFlight k ++ out k n.sender a, n.receiver⟩
  | .arrive k =>
    match n.inFlight k with
    | [] => none
    | m :: ms => (recv n.receiver (k, m)).map fun r =>
        ⟨n.sender, Function.update n.inFlight k ms, r⟩

/-- The message that arrives in a step. -/
def arrival (n : Network σ κ μ ρ) : Label α κ → Option (κ × μ)
  | .send _ => none
  | .arrive k => (n.inFlight k).head?.map fun m => (k, m)

/-- The steps of the sender. -/
def sends (as : List (Label α κ)) : List α :=
  as.filterMap fun
    | .send a => some a
    | .arrive _ => none

/-- The messages that arrive in a run, each with its channel. -/
def arrivals (n : Network σ κ μ ρ) (as : List (Label α κ)) : List (κ × μ) :=
  (trace (step next out recv) arrival n as).filterMap Prod.snd

/-- The messages that the sender puts into a channel. -/
def sent (k : κ) (s : σ) (as : List α) : List μ := (trace next (out k) s as).flatMap Prod.snd

variable {next out recv}

/-- What a step does to the network. -/
inductive StepCases (next : σ → α → Option σ) (out : κ → σ → α → List μ)
    (recv : ρ → κ × μ → Option ρ) (n : Network σ κ μ ρ) : Label α κ → Network σ κ μ ρ → Prop
  | send (a : α) (s : σ) (h : next n.sender a = some s) :
      StepCases next out recv n (.send a)
        ⟨s, fun k => n.inFlight k ++ out k n.sender a, n.receiver⟩
  | arrive (k : κ) (m : μ) (ms : List μ) (r : ρ) (hm : n.inFlight k = m :: ms)
      (h : recv n.receiver (k, m) = some r) :
      StepCases next out recv n (.arrive k) ⟨n.sender, Function.update n.inFlight k ms, r⟩

theorem step_cases {n n' : Network σ κ μ ρ} {a : Label α κ}
    (h : n.step next out recv a = some n') : StepCases next out recv n a n' := by
  cases a with
  | send a =>
    obtain ⟨s, hs, rfl⟩ := Option.map_eq_some_iff.mp h
    exact .send a s hs
  | arrive k =>
    rw [step] at h
    split at h
    · cases h
    · next m ms hm =>
      obtain ⟨r, hr, rfl⟩ := Option.map_eq_some_iff.mp h
      exact .arrive k m ms r hm hr

variable {s : σ} {r : ρ} {as : List (Label α κ)} {n : Network σ κ μ ρ}

theorem arrivals_concat {n₀ : Network σ κ μ ρ} (hrun : run (step next out recv) n₀ as = some n)
    (a : Label α κ) : arrivals next out recv n₀ (as ++ [a]) =
      arrivals next out recv n₀ as ++ (n.arrival a).toList := by
  rw [arrivals, trace_concat hrun, List.filterMap_append]
  cases n.arrival a <;> simp [arrivals]

/-- The sender runs by itself. -/
theorem run_sender (hrun : run (step next out recv) (init s r) as = some n) :
    run next s (sends as) = some n.sender := by
  refine run_history_induction (P := fun p n => run next s (sends p) = some n.sender) rfl ?_ hrun
  intro p n a n' hp ih hstep
  rw [sends, List.filterMap_append, run_append_eq_some]
  cases step_cases hstep with
  | send a t ht => exact ⟨n.sender, ih, by simpa using ht⟩
  | arrive k m ms r hm hr => exact ⟨n.sender, ih, rfl⟩

/-- The receiver takes the messages as they arrive. -/
theorem run_receiver (hrun : run (step next out recv) (init s r) as = some n) :
    run recv r (arrivals next out recv (init s r) as) = some n.receiver := by
  refine run_history_induction (P := fun p n =>
    run recv r (arrivals next out recv (init s r) p) = some n.receiver) rfl ?_ hrun
  intro p n a n' hp ih hstep
  rw [arrivals_concat hp, run_append_eq_some]
  cases step_cases hstep with
  | send a t ht => exact ⟨n.receiver, ih, rfl⟩
  | arrive k m ms r hm hr => exact ⟨n.receiver, ih, by simpa [arrival, hm] using hr⟩

/-- **Nothing is lost, doubled or overtaken on a channel**: what arrived and what is in flight is what
was sent. -/
theorem arrived_append_inFlight (hrun : run (step next out recv) (init s r) as = some n) (k : κ) :
    (((arrivals next out recv (init s r) as).filter fun x => x.1 = k).map Prod.snd) ++ n.inFlight k =
      sent next out k s (sends as) := by
  refine run_history_induction (P := fun p n =>
    (((arrivals next out recv (init s r) p).filter fun x => x.1 = k).map Prod.snd) ++ n.inFlight k =
      sent next out k s (sends p)) rfl ?_ hrun
  intro p n a n' hp ih hstep
  rw [arrivals_concat hp, List.filter_append, List.map_append]
  cases step_cases hstep with
  | send a t ht =>
    have hsent : sent next out k s (sends (p ++ [.send a])) =
        sent next out k s (sends p) ++ out k n.sender a := by
      have hsends : sends (p ++ [Label.send a]) = sends p ++ [a] := by simp [sends]
      rw [hsends, sent, trace_concat (run_sender hp), List.flatMap_append]
      simp [sent]
    rw [hsent, ← ih]
    simp [arrival]
  | arrive x m ms r hm hr =>
    have hsends : sends (p ++ [Label.arrive x]) = (sends p : List α) := by simp [sends]
    rw [hsends, ← ih]
    by_cases hx : x = k
    · subst hx
      simp [arrival, hm]
    · have hk : k ≠ x := Ne.symm hx
      simp [arrival, hm, hx, Function.update_of_ne hk]

end Network

end Transition
