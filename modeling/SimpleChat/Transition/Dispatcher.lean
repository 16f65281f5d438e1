import Mathlib.Data.List.Basic

/-!
# Asynchronous handling of events

Events wait in a queue. A dispatcher takes them in order, and starts threads that handle each of
them in sections. The threads run in any order, so a section may run before sections that belong
to earlier events.

## Main definitions

* `Dispatcher`, `send`, `pop`, `take`: the queue and the threads, and their steps
* `pending`: the sections still to run, in the order in which their events were sent
* `work`: the number of steps still to be taken
* `flush`: the effect of pending sections that run in that order

## Main results

* `pending_send`, `pending_pop`, `pending_take`: what each step does to the pending sections
* `work_send`, `work_pop`, `work_take`: what each step does to the number of steps
* `exists_next`: while there is work, there is a step that overtakes no section
* `flush_early`: a section that commutes with the pending ones before it may run before them
* `flush_eq_of_filter_eq`: if sections of different keys commute, only the order of the sections of
  each key matters
-/

namespace Transition

variable {ε ω σ : Type*}

/-- A list around one of its elements, and the same list with the element replaced. -/
theorem exists_split_of_getElem? {α : Type*} {l : List α} {i : ℕ} {a : α} (h : l[i]? = some a) :
    ∃ as bs, l = as ++ a :: bs ∧ (∀ a', l.set i a' = as ++ a' :: bs) ∧ l.take i = as := by
  obtain ⟨hlt, hget⟩ := List.getElem?_eq_some_iff.mp h
  refine ⟨l.take i, l.drop (i + 1), ?_, fun a' => ?_, rfl⟩
  · rw [← hget, ← List.drop_eq_getElem_cons hlt, List.take_append_drop]
  · simp [List.set_eq_take_append_cons_drop, hlt]

/-- The queue of events, and of every thread the sections it has still to run. -/
structure Dispatcher (ε ω : Type*) where
  queue : List ε
  threads : List (List ω)

namespace Dispatcher

variable (callbacks : ε → List (List ω))

def empty : Dispatcher ε ω := ⟨[], []⟩

/-- An event enters the queue. -/
def send (d : Dispatcher ε ω) (e : ε) : Dispatcher ε ω := { d with queue := d.queue ++ [e] }

/-- The first event of the queue leaves it, and a thread is started for each of its callbacks. -/
def pop (d : Dispatcher ε ω) : Option (Dispatcher ε ω) :=
  match d.queue with
  | [] => none
  | e :: queue => some ⟨queue, d.threads ++ callbacks e⟩

/-- The next section of a thread, and the dispatcher after it. -/
def take (d : Dispatcher ε ω) (i : ℕ) : Option (ω × Dispatcher ε ω) :=
  match d.threads[i]? with
  | some (w :: ws) => some (w, { d with threads := d.threads.set i ws })
  | _ => none

/-- The sections of threads that were started before a thread. -/
def earlier (d : Dispatcher ε ω) (i : ℕ) : List ω := (d.threads.take i).flatten

/-- The sections still to run, in the order of their events. -/
def pending (d : Dispatcher ε ω) : List ω :=
  d.threads.flatten ++ d.queue.flatMap fun e => (callbacks e).flatten

variable {callbacks}

theorem pending_send (d : Dispatcher ε ω) (e : ε) :
    (d.send e).pending callbacks = d.pending callbacks ++ (callbacks e).flatten := by
  simp [send, pending]

theorem pending_pop {d d' : Dispatcher ε ω} (h : d.pop callbacks = some d') :
    d'.pending callbacks = d.pending callbacks := by
  unfold pop at h
  split at h
  · cases h
  · next e queue hq =>
    obtain rfl := Option.some.inj h
    simp [pending, hq]

variable (callbacks) in
/-- A thread runs its section before those of the threads started earlier. -/
theorem pending_take {d d' : Dispatcher ε ω} {i : ℕ} {w : ω} (h : d.take i = some (w, d')) :
    ∃ later, d.pending callbacks = d.earlier i ++ w :: later ∧
      d'.pending callbacks = d.earlier i ++ later := by
  unfold take at h
  split at h
  · next x ws hi =>
    obtain ⟨rfl, rfl⟩ := Prod.mk.inj (Option.some.inj h)
    obtain ⟨as, bs, hsplit, hset, hbefore⟩ := exists_split_of_getElem? hi
    have hearlier : d.earlier i = as.flatten := by rw [earlier, hbefore]
    rw [hearlier]
    refine ⟨ws ++ bs.flatten ++ d.queue.flatMap fun e => (callbacks e).flatten, ?_, ?_⟩
    · simp [pending, hsplit]
    · simp [pending, hset]
  · cases h

/-! ## Work -/

variable (callbacks) in
/-- The number of steps still to be taken: one for each event of the queue and for each section. -/
def work (d : Dispatcher ε ω) : ℕ := d.queue.length + (d.pending callbacks).length

@[simp] theorem work_empty : (empty : Dispatcher ε ω).work callbacks = 0 := rfl

theorem work_send (d : Dispatcher ε ω) (e : ε) :
    (d.send e).work callbacks = d.work callbacks + (1 + (callbacks e).flatten.length) := by
  rw [work, pending_send, List.length_append, work, send, List.length_append, List.length_singleton]
  omega

theorem work_pop {d d' : Dispatcher ε ω} (h : d.pop callbacks = some d') :
    d'.work callbacks + 1 = d.work callbacks := by
  rw [work, work, pending_pop h]
  unfold pop at h
  split at h
  · cases h
  · next e queue hq =>
    obtain rfl := Option.some.inj h
    rw [hq, List.length_cons, Nat.add_right_comm]

theorem work_take {d d' : Dispatcher ε ω} {i : ℕ} {w : ω} (h : d.take i = some (w, d')) :
    d'.work callbacks + 1 = d.work callbacks := by
  obtain ⟨later, hbefore, hafter⟩ := pending_take callbacks h
  have hqueue : d'.queue = d.queue := by
    unfold take at h
    split at h
    · obtain ⟨-, rfl⟩ := Prod.mk.inj (Option.some.inj h)
      rfl
    · cases h
  rw [work, work, hbefore, hafter, hqueue]
  simp only [List.length_append, List.length_cons]
  omega

theorem work_eq_zero {d : Dispatcher ε ω} :
    d.work callbacks = 0 ↔ d.queue = [] ∧ d.pending callbacks = [] := by
  rw [work, Nat.add_eq_zero_iff, List.length_eq_zero_iff, List.length_eq_zero_iff]

/-- Threads that have sections to run, and the first of them. -/
theorem exists_first_thread {threads : List (List ω)} (h : threads.flatten ≠ []) :
    ∃ i w ws, threads[i]? = some (w :: ws) ∧ (threads.take i).flatten = [] := by
  induction threads with
  | nil => exact absurd rfl h
  | cons thread threads ih =>
    cases thread with
    | nil =>
      obtain ⟨i, w, ws, hi, htake⟩ := ih (by simpa using h)
      exact ⟨i + 1, w, ws, by simpa using hi, by simpa using htake⟩
    | cons w ws => exact ⟨0, w, ws, rfl, rfl⟩

variable (callbacks) in
/-- While there is work, an event can be taken from the queue, or a thread can run a section that
overtakes none. -/
theorem exists_next {d : Dispatcher ε ω} (h : d.work callbacks ≠ 0) :
    (∃ d', d.pop callbacks = some d') ∨
      ∃ i w d', d.take i = some (w, d') ∧ d.earlier i = [] := by
  cases hq : d.queue with
  | cons e queue =>
    left
    exact ⟨⟨queue, d.threads ++ callbacks e⟩, by simp [pop, hq]⟩
  | nil =>
    right
    have hthreads : d.threads.flatten ≠ [] := by
      intro hnil
      exact h (work_eq_zero.mpr ⟨hq, by simp [pending, hnil, hq]⟩)
    obtain ⟨i, w, ws, hi, htake⟩ := exists_first_thread hthreads
    exact ⟨i, w, _, by rw [take, hi], htake⟩

end Dispatcher

/-! ## Running pending sections -/

variable (op : ω → σ → σ)

/-- The effect of sections that run in order. -/
def flush (ws : List ω) (c : σ) : σ := ws.foldl (fun c w => op w c) c

@[simp] theorem flush_cons (w : ω) (ws : List ω) (c : σ) :
    flush op (w :: ws) c = flush op ws (op w c) := rfl

theorem flush_append (as bs : List ω) (c : σ) :
    flush op (as ++ bs) c = flush op bs (flush op as c) :=
  List.foldl_append

variable {op}

/-- A section that commutes with others may run before them instead of after them. -/
theorem flush_comm {w : ω} {as : List ω} (h : ∀ a ∈ as, ∀ c, op w (op a c) = op a (op w c))
    (c : σ) : op w (flush op as c) = flush op as (op w c) := by
  induction as generalizing c with
  | nil => rfl
  | cons a as ih =>
    rw [flush_cons, ih fun b hb => h b (List.mem_cons_of_mem _ hb), h a (List.mem_cons_self ..),
      flush_cons]

theorem flush_early {w : ω} {as : List ω} (h : ∀ a ∈ as, ∀ c, op w (op a c) = op a (op w c))
    (bs : List ω) (c : σ) : flush op (as ++ w :: bs) c = flush op (as ++ bs) (op w c) := by
  rw [flush_append, flush_cons, flush_comm h, flush_append]

/-- If sections of different keys commute, two orders of sections that agree on the sections of each
key have the same effect. -/
theorem flush_eq_of_filter_eq {κ : Type*} [DecidableEq κ] (key : ω → κ)
    (hcomm : ∀ a b, key a ≠ key b → ∀ c, op a (op b c) = op b (op a c)) {as bs : List ω}
    (h : ∀ k, (as.filter fun w => key w = k) = bs.filter fun w => key w = k) (c : σ) :
    flush op as c = flush op bs c := by
  induction as generalizing bs c with
  | nil =>
    have hbs : bs = [] := by
      refine List.eq_nil_iff_forall_not_mem.mpr fun b hb => ?_
      have hmem : b ∈ bs.filter fun w => key w = key b := List.mem_filter.mpr ⟨hb, by simp⟩
      rw [← h] at hmem
      cases hmem
    rw [hbs]
  | cons a as ih =>
    -- the first section of its key in the other order is the same one
    have ha := (h (key a)).symm
    rw [List.filter_cons_of_pos (by simp), List.filter_eq_cons_iff] at ha
    obtain ⟨early, late, rfl, hearly, -, -⟩ := ha
    have hother : ∀ b ∈ early, key a ≠ key b := fun b hb heq =>
      hearly b hb (by simp [heq])
    rw [flush_cons, flush_early fun b hb => hcomm a b (hother b hb)]
    apply ih
    intro k
    have hk := h k
    rw [List.filter_append, List.filter_cons, List.filter_cons] at hk
    rw [List.filter_append]
    by_cases hak : key a = k
    · subst hak
      have hnone : (early.filter fun w => key w = key a) = [] :=
        List.filter_eq_nil_iff.mpr fun b hb => by simpa using (hother b hb).symm
      simpa [hnone] using hk
    · simpa [hak] using hk

/-- Sections without effect. -/
theorem flush_of_id {ws : List ω} (h : ∀ w ∈ ws, ∀ c, op w c = c) (c : σ) :
    flush op ws c = c := by
  induction ws with
  | nil => rfl
  | cons w ws ih =>
    rw [flush_cons, h w (List.mem_cons_self ..), ih fun x hx => h x (List.mem_cons_of_mem _ hx)]

end Transition
