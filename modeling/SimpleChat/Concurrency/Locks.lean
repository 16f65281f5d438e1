import Mathlib.Data.Set.Finite.Lemmas
import Mathlib.Data.Set.Finite.List
import SimpleChat.Transition.Run

/-!
# Threads, locks and joins

Threads acquire and release reader-writer locks, change shared data, start threads and join them,
one operation a step. If every thread acquires locks in the order of a rank, and joins only threads
started after it while it holds no lock, some thread can always take a step: the lock of the highest
rank that is waited for would be held by a thread that waits for a higher one, and the last thread
that is not done cannot wait in a join.

## Main definitions

* `Code`, `Code.alone`: what a thread has still to do, and what it does when nobody interrupts it
* `Process`, `Process.step`: the threads with the locks they hold, and their steps
* `Code.Ordered rank self n held`: the discipline of a thread that holds `held`

## Main results

* `Process.step_cases`: every step is one of `StepCases`
* `alone_of_run`: a thread that nobody interrupts does what its code does alone
* `disciplined_step`: a step keeps the discipline of all threads
* `exists_step`: in a disciplined process that has not aborted, some thread can take a step unless
  all are done
-/

namespace Concurrency

/-- How a lock is held: by one writer, or by any number of readers. -/
inductive Mode where
  | shared
  | exclusive
  deriving DecidableEq, Repr

/-- What a thread has still to do, over locks `L` and shared data `δ`. A step on the data decides how
the thread continues; the number of a started thread is given to the one that started it. -/
inductive Code (L δ : Type) where
  | done
  | acquire (lock : L) (mode : Mode) (next : Code L δ)
  | release (lock : L) (mode : Mode) (next : Code L δ)
  | act (f : δ → δ) (next : δ → Code L δ)
  | spawn (child : Code L δ) (next : ℕ → Code L δ)
  | join (thread : ℕ) (next : Code L δ)
  | abort

namespace Code

variable {L δ : Type}

def isDone : Code L δ → Bool
  | done => true
  | _ => false

/-- The lock that the next step acquires. -/
def wants : Code L δ → Option (L × Mode)
  | acquire l m _ => some (l, m)
  | _ => none

variable [DecidableEq L]

/-- The discipline of the thread `self`, while the threads below `n` exist and it holds `held`: it
acquires locks in the order of their ranks, and holds none when it ends or waits for a thread, which
was started after it. -/
def Ordered (rank : L → ℕ) : ℕ → ℕ → List (L × Mode) → Code L δ → Prop
  | _, _, held, done => held = []
  | self, n, held, acquire l m next =>
    (∀ h ∈ held, rank h.1 < rank l) ∧ Ordered rank self n ((l, m) :: held) next
  | self, n, held, release l m next => Ordered rank self n (held.erase (l, m)) next
  | self, n, held, act _ next => ∀ d, Ordered rank self n held (next d)
  | self, n, held, spawn child next => ∀ j, n ≤ j →
      Ordered rank j (j + 1) [] child ∧ Ordered rank self (j + 1) held (next j)
  | self, n, held, join j next => (self < j ∧ j < n) ∧ held = [] ∧ Ordered rank self n [] next
  | _, _, _, abort => True

omit [DecidableEq L] in
/-- What the code makes of the data when nobody interrupts it, and the threads that it starts, if it
does not abort. The next thread gets the number `n`. -/
def alone : ℕ → Code L δ → δ → Option (δ × List (Code L δ))
  | _, done, d => some (d, [])
  | n, acquire _ _ next, d => next.alone n d
  | n, release _ _ next, d => next.alone n d
  | n, act f next, d => (next d).alone n (f d)
  | n, spawn child next, d => ((next n).alone (n + 1) d).map fun r => (r.1, child :: r.2)
  | n, join _ next, d => next.alone n d
  | _, abort, _ => none

/-- The lock that was acquired last is released. -/
theorem Ordered.release {rank : L → ℕ} {self n : ℕ} {held : List (L × Mode)} {next : Code L δ}
    (h : next.Ordered rank self n held) (l : L) (m : Mode) :
    (release l m next).Ordered rank self n ((l, m) :: held) := by
  rwa [Ordered, List.erase_cons_head]

end Code

/-- A thread with the locks it holds. -/
structure Thread (L δ : Type) where
  code : Code L δ
  held : List (L × Mode)

/-- The shared data, the threads in the order of their start, and whether the process has aborted. -/
structure Process (L δ : Type) where
  data : δ
  threads : List (Thread L δ)
  aborted : Bool

namespace Process

variable {L δ : Type}

/-- A process about to run its threads. -/
def start (d : δ) (codes : List (Code L δ)) : Process L δ := ⟨d, codes.map fun c => ⟨c, []⟩, false⟩

/-- A writer needs a lock that nobody holds. A reader needs one that no writer holds; where the policy
says so, it also lets a waiting writer go first. -/
def Free (policy : Process L δ → L → Bool) (p : Process L δ) (l : L) : Mode → Prop
  | .exclusive => ∀ t ∈ p.threads, ∀ h ∈ t.held, h.1 ≠ l
  | .shared => (∀ t ∈ p.threads, (l, Mode.exclusive) ∉ t.held) ∧
      (policy p l = true → ∀ t ∈ p.threads, t.code.wants ≠ some (l, .exclusive))

variable [DecidableEq L]

instance (policy : Process L δ → L → Bool) (p : Process L δ) (l : L) :
    (m : Mode) → Decidable (p.Free policy l m)
  | .exclusive => inferInstanceAs (Decidable (∀ t ∈ p.threads, ∀ h ∈ t.held, h.1 ≠ l))
  | .shared => inferInstanceAs (Decidable ((∀ t ∈ p.threads, (l, Mode.exclusive) ∉ t.held) ∧
      (policy p l = true → ∀ t ∈ p.threads, t.code.wants ≠ some (l, .exclusive))))

/-- The next step of a thread, if it can take one. -/
def step (policy : Process L δ → L → Bool) (p : Process L δ) (i : ℕ) : Option (Process L δ) :=
  if p.aborted then none else
  match p.threads[i]? with
  | none => none
  | some ⟨code, held⟩ =>
    match code with
    | .done => none
    | .acquire l m next =>
      if p.Free policy l m then
        some { p with threads := p.threads.set i ⟨next, (l, m) :: held⟩ }
      else none
    | .release l m next => some { p with threads := p.threads.set i ⟨next, held.erase (l, m)⟩ }
    | .act f next =>
      some { p with data := f p.data, threads := p.threads.set i ⟨next p.data, held⟩ }
    | .spawn child next =>
      some { p with
        threads := p.threads.set i ⟨next p.threads.length, held⟩ ++ [⟨child, []⟩] }
    | .join j next =>
      if (p.threads[j]?).any fun t : Thread L δ => t.code.isDone then
        some { p with threads := p.threads.set i ⟨next, held⟩ }
      else none
    | .abort => some { p with aborted := true }

/-- What a step of a thread does. -/
inductive StepCases (policy : Process L δ → L → Bool) (p : Process L δ) (i : ℕ)
    (held : List (L × Mode)) : Code L δ → Process L δ → Prop
  | acquire (l : L) (m : Mode) (next : Code L δ) (hfree : p.Free policy l m) :
      StepCases policy p i held (.acquire l m next)
        { p with threads := p.threads.set i ⟨next, (l, m) :: held⟩ }
  | release (l : L) (m : Mode) (next : Code L δ) :
      StepCases policy p i held (.release l m next)
        { p with threads := p.threads.set i ⟨next, held.erase (l, m)⟩ }
  | act (f : δ → δ) (next : δ → Code L δ) :
      StepCases policy p i held (.act f next)
        { p with data := f p.data, threads := p.threads.set i ⟨next p.data, held⟩ }
  | spawn (child : Code L δ) (next : ℕ → Code L δ) :
      StepCases policy p i held (.spawn child next)
        { p with threads := p.threads.set i ⟨next p.threads.length, held⟩ ++ [⟨child, []⟩] }
  | join (j : ℕ) (next : Code L δ)
      (hdone : (p.threads[j]?).any (fun t : Thread L δ => t.code.isDone) = true) :
      StepCases policy p i held (.join j next)
        { p with threads := p.threads.set i ⟨next, held⟩ }
  | abort : StepCases policy p i held .abort { p with aborted := true }

/-- Every thread keeps the discipline. -/
def Disciplined (rank : L → ℕ) (p : Process L δ) : Prop :=
  ∀ (i : ℕ) (t : Thread L δ), p.threads[i]? = some t →
    ∃ n ≤ p.threads.length, t.code.Ordered rank i n t.held

variable {rank : L → ℕ} {policy : Process L δ → L → Bool} {p q : Process L δ}

theorem step_cases {i : ℕ} (h : p.step policy i = some q) :
    p.aborted = false ∧
      ∃ code held, p.threads[i]? = some ⟨code, held⟩ ∧ StepCases policy p i held code q := by
  unfold step at h
  split at h
  · cases h
  · next hlive =>
    refine ⟨by simpa using hlive, ?_⟩
    split at h
    · cases h
    · next code held hi =>
      refine ⟨code, held, hi, ?_⟩
      cases code with
      | done => cases h
      | acquire l m next =>
        obtain ⟨hfree, h⟩ := Option.ite_none_right_eq_some.mp h
        obtain rfl := Option.some.inj h
        exact .acquire l m next hfree
      | release l m next =>
        obtain rfl := Option.some.inj h
        exact .release l m next
      | act f next =>
        obtain rfl := Option.some.inj h
        exact .act f next
      | spawn child next =>
        obtain rfl := Option.some.inj h
        exact .spawn child next
      | join j next =>
        obtain ⟨hdone, h⟩ := Option.ite_none_right_eq_some.mp h
        obtain rfl := Option.some.inj h
        exact .join j next hdone
      | abort =>
        obtain rfl := Option.some.inj h
        exact .abort

theorem disciplined_start {d : δ} {codes : List (Code L δ)}
    (h : ∀ c ∈ codes, ∀ i, c.Ordered rank i (i + 1) []) : (start d codes).Disciplined rank := by
  intro i t ht
  rw [start, List.getElem?_map, Option.map_eq_some_iff] at ht
  obtain ⟨c, hc, rfl⟩ := ht
  refine ⟨i + 1, ?_, h c (List.mem_of_getElem? hc) i⟩
  obtain ⟨hlt, -⟩ := List.getElem?_eq_some_iff.mp hc
  simpa [start] using Nat.succ_le_of_lt hlt

/-- One thread goes on, and others are started: the discipline is kept if these keep it. -/
theorem Disciplined.set (hp : p.Disciplined rank) {i : ℕ} {t' : Thread L δ} {d : δ} {b : Bool}
    (new : List (Thread L δ))
    (ht' : ∃ n ≤ p.threads.length + new.length, t'.code.Ordered rank i n t'.held)
    (hnew : ∀ (j : ℕ) (t : Thread L δ), new[j]? = some t → ∃ n ≤ p.threads.length + new.length,
      t.code.Ordered rank (p.threads.length + j) n t.held) :
    Disciplined rank ⟨d, p.threads.set i t' ++ new, b⟩ := by
  intro j t hj
  show ∃ n ≤ (p.threads.set i t' ++ new).length, _
  rw [List.length_append, List.length_set]
  rcases Nat.lt_or_ge j p.threads.length with hlt | hge
  · rw [List.getElem?_append_left (by simpa using hlt)] at hj
    by_cases hij : i = j
    · subst hij
      rw [List.getElem?_set_self hlt] at hj
      exact Option.some.inj hj ▸ ht'
    · rw [List.getElem?_set_ne hij] at hj
      obtain ⟨n, hn, hord⟩ := hp j t hj
      exact ⟨n, hn.trans (Nat.le_add_right _ _), hord⟩
  · rw [List.getElem?_append_right (by simpa using hge), List.length_set] at hj
    obtain ⟨n, hn, hord⟩ := hnew _ t hj
    rw [Nat.add_sub_cancel' hge] at hord
    exact ⟨n, hn, hord⟩

theorem Disciplined.set_alone (hp : p.Disciplined rank) {i : ℕ} {t' : Thread L δ} {d : δ}
    {b : Bool} (ht' : ∃ n ≤ p.threads.length, t'.code.Ordered rank i n t'.held) :
    Disciplined rank ⟨d, p.threads.set i t', b⟩ := by
  simpa using hp.set (d := d) (b := b) [] (by simpa using ht') (by simp)

/-- A step keeps the discipline. -/
theorem disciplined_step (hp : p.Disciplined rank) {i : ℕ} (h : p.step policy i = some q) :
    q.Disciplined rank := by
  obtain ⟨-, code, held, hi, hcases⟩ := step_cases h
  obtain ⟨n, hn, hord⟩ := hp i _ hi
  cases hcases with
  | acquire l m next hfree => exact hp.set_alone ⟨n, hn, hord.2⟩
  | release l m next => exact hp.set_alone ⟨n, hn, hord⟩
  | act f next => exact hp.set_alone ⟨n, hn, hord p.data⟩
  | spawn child next =>
    obtain ⟨hchild, hnext⟩ := hord p.threads.length hn
    refine hp.set _ ⟨p.threads.length + 1, le_rfl, hnext⟩ fun j t hj => ?_
    obtain ⟨rfl, rfl⟩ : j = 0 ∧ t = ⟨child, []⟩ := by
      cases j with
      | zero => simpa [eq_comm] using hj
      | succ j => simp at hj
    exact ⟨p.threads.length + 1, le_rfl, hchild⟩
  | join j next hdone =>
    obtain ⟨-, rfl, hord⟩ := hord
    exact hp.set_alone ⟨n, hn, hord⟩
  | abort => exact hp

theorem disciplined_of_run {is : List ℕ} (hp : p.Disciplined rank)
    (h : Transition.run (step policy) p is = some q) : q.Disciplined rank :=
  Transition.run_induction hp (fun _ _ _ ht h => disciplined_step ht h) h

/-- A thread that waits for another one holds no lock. -/
theorem Disciplined.held_of_join (hp : p.Disciplined rank) {i j : ℕ} {next : Code L δ}
    {held : List (L × Mode)} (hi : p.threads[i]? = some ⟨.join j next, held⟩) : held = [] := by
  obtain ⟨n, -, -, hheld, -⟩ := hp i _ hi
  exact hheld

theorem Disciplined.held_of_done (hp : p.Disciplined rank) {i : ℕ} {t : Thread L δ}
    (hi : p.threads[i]? = some t) (hdone : t.code.isDone = true) : t.held = [] := by
  obtain ⟨n, -, hord⟩ := hp i t hi
  obtain ⟨code, held⟩ := t
  cases code with
  | done => exact hord
  | _ => cases hdone

/-! ## Uninterrupted threads -/

/-- A step of a thread does the first part of what its code does alone. -/
theorem alone_step {i : ℕ} {t : Thread L δ} (h : p.step policy i = some q) (hq : q.aborted = false)
    (hi : p.threads[i]? = some t) :
    ∃ (u : Thread L δ) (new : List (Thread L δ)), q.threads = p.threads.set i u ++ new ∧
      t.code.alone p.threads.length p.data =
        (u.code.alone q.threads.length q.data).map fun r => (r.1, new.map Thread.code ++ r.2) := by
  obtain ⟨-, code, held, hi', hcases⟩ := step_cases h
  obtain rfl : t = ⟨code, held⟩ := Option.some.inj (hi.symm.trans hi')
  cases hcases with
  | spawn child next => exact ⟨_, [⟨child, []⟩], rfl, by simp [Code.alone]⟩
  | abort => cases hq
  | _ => exact ⟨_, [], (List.append_nil _).symm, by simp [Code.alone]⟩

/-- A thread that nobody interrupts has done the first part of what its code does alone. -/
theorem alone_of_run {i m : ℕ} {t u : Thread L δ}
    (h : Transition.run (step policy) p (List.replicate m i) = some q) (hq : q.aborted = false)
    (hi : p.threads[i]? = some t) (hu : q.threads[i]? = some u) :
    ∃ new : List (Thread L δ), q.threads = p.threads.set i u ++ new ∧
      t.code.alone p.threads.length p.data =
        (u.code.alone q.threads.length q.data).map fun r => (r.1, new.map Thread.code ++ r.2) := by
  induction m generalizing p t with
  | zero =>
    obtain rfl := Option.some.inj h
    obtain rfl : t = u := Option.some.inj (hi.symm.trans hu)
    obtain ⟨hlt, rfl⟩ := List.getElem?_eq_some_iff.mp hi
    exact ⟨[], by simp, by simp⟩
  | succ m ih =>
    obtain ⟨w, hw, hrest⟩ := Option.bind_eq_some_iff.mp h
    have hlive : w.aborted = false :=
      Transition.run_backward (P := fun r => r.aborted = false)
        (fun _ _ _ hstep _ => (step_cases hstep).1) hrest hq
    obtain ⟨v, started, hthreads, halone⟩ := alone_step hw hlive hi
    obtain ⟨hlt, -⟩ := List.getElem?_eq_some_iff.mp hi
    have hv : w.threads[i]? = some v := by
      rw [hthreads, List.getElem?_append_left (by simpa using hlt), List.getElem?_set_self hlt]
    obtain ⟨later, hlater, hcode⟩ := ih hrest hv
    refine ⟨started ++ later, ?_, ?_⟩
    · rw [hlater, hthreads, List.set_append_left _ _ (by simpa using hlt), List.set_set,
        List.append_assoc]
    · rw [halone, hcode, Option.map_map]
      simp [Function.comp_def]

/-! ## Waiting threads -/

/-- The thread has still something to do. -/
def Unfinished (p : Process L δ) (i : ℕ) : Prop :=
  ∃ t : Thread L δ, p.threads[i]? = some t ∧ t.code.isDone = false

/-- Some thread is about to acquire the lock. -/
def Wanted (p : Process L δ) (l : L) : Prop :=
  ∃ t ∈ p.threads, ∃ m, t.code.wants = some (l, m)

/-- No thread can take a step, though the process has not aborted. -/
structure Stuck (policy : Process L δ → L → Bool) (p : Process L δ) : Prop where
  live : p.aborted = false
  step : ∀ i, p.step policy i = none

omit [DecidableEq L] in
theorem wants_eq_some {c : Code L δ} {l : L} {m : Mode} :
    c.wants = some (l, m) ↔ ∃ next, c = .acquire l m next := by
  cases c <;> simp [Code.wants]

/-- A thread acquires locks of higher ranks than those that it holds. -/
theorem Disciplined.rank_lt (hp : p.Disciplined rank) {t : Thread L δ} (ht : t ∈ p.threads) {l : L}
    {m : Mode} (hwants : t.code.wants = some (l, m)) {h : L × Mode} (hh : h ∈ t.held) :
    rank h.1 < rank l := by
  obtain ⟨i, hi⟩ := List.mem_iff_getElem?.mp ht
  obtain ⟨n, -, hord⟩ := hp i t hi
  obtain ⟨next, hcode⟩ := wants_eq_some.mp hwants
  rw [hcode] at hord
  exact hord.1 h hh

theorem Stuck.not_free (hs : p.Stuck policy) {t : Thread L δ} (ht : t ∈ p.threads) {l : L} {m : Mode}
    (hwants : t.code.wants = some (l, m)) : ¬ p.Free policy l m := by
  intro hfree
  obtain ⟨i, hi⟩ := List.mem_iff_getElem?.mp ht
  obtain ⟨code, held⟩ := t
  obtain ⟨next, rfl⟩ := wants_eq_some.mp hwants
  have hstep := hs.step i
  simp [Process.step, hs.live, hi, hfree] at hstep

/-- A lock that is waited for is held, also if the waiting reader only lets a writer go first. -/
theorem Stuck.exists_holder (hs : p.Stuck policy) {l : L} (hl : p.Wanted l) :
    ∃ t ∈ p.threads, ∃ m, (l, m) ∈ t.held := by
  have hexclusive : ¬ p.Free policy l .exclusive → ∃ t ∈ p.threads, ∃ m, (l, m) ∈ t.held := by
    intro hnot
    simp only [Free] at hnot
    push Not at hnot
    obtain ⟨t, ht, ⟨l', m⟩, hheld, rfl⟩ := hnot
    exact ⟨t, ht, m, hheld⟩
  obtain ⟨t, ht, m, hwants⟩ := hl
  cases m with
  | exclusive => exact hexclusive (hs.not_free ht hwants)
  | shared =>
    by_contra hnone
    push Not at hnone
    refine hs.not_free ht hwants ⟨fun t ht => hnone t ht .exclusive, fun _ w hw hwrites => ?_⟩
    -- a waiting writer waits for somebody who holds the lock
    obtain ⟨t, ht, m, hheld⟩ := hexclusive (hs.not_free hw hwrites)
    exact hnone t ht m hheld

/-- A thread that is not done and waits for no lock waits for a thread that was started after it. -/
theorem Stuck.waits (hp : p.Disciplined rank) (hs : p.Stuck policy) {i : ℕ} {t : Thread L δ}
    (hi : p.threads[i]? = some t) (hdone : t.code.isDone = false) (hwants : t.code.wants = none) :
    t.held = [] ∧ ∃ j, i < j ∧ p.Unfinished j := by
  obtain ⟨n, hn, hord⟩ := hp i t hi
  obtain ⟨code, held⟩ := t
  have hstep := hs.step i
  cases code with
  | done => cases hdone
  | acquire l m next => cases hwants
  | join j next =>
    obtain ⟨⟨hij, hjn⟩, hheld, -⟩ := hord
    refine ⟨hheld, j, hij, p.threads[j], List.getElem?_eq_getElem (hjn.trans_le hn), ?_⟩
    by_contra hjoin
    simp [Process.step, hs.live, hi, List.getElem?_eq_getElem (hjn.trans_le hn), hjoin] at hstep
  | release l m next => simp [Process.step, hs.live, hi] at hstep
  | act f next => simp [Process.step, hs.live, hi] at hstep
  | spawn child next => simp [Process.step, hs.live, hi] at hstep
  | abort => simp [Process.step, hs.live, hi] at hstep

/-- Who holds a lock waits for one of a higher rank. -/
theorem Stuck.wanted_above (hp : p.Disciplined rank) (hs : p.Stuck policy) {l : L}
    (hl : p.Wanted l) : ∃ l', p.Wanted l' ∧ rank l < rank l' := by
  obtain ⟨t, ht, m, hheld⟩ := hs.exists_holder hl
  cases hwants : t.code.wants with
  | some w => exact ⟨w.1, ⟨t, ht, w.2, hwants⟩, hp.rank_lt ht hwants hheld⟩
  | none =>
    obtain ⟨i, hi⟩ := List.mem_iff_getElem?.mp ht
    have hnil : t.held = [] := by
      cases hdone : t.code.isDone with
      | false => exact (hs.waits hp hi hdone hwants).1
      | true => exact hp.held_of_done hi hdone
    rw [hnil] at hheld
    cases hheld

/-- Nobody waits for a lock: there would be one of the highest rank. -/
theorem Stuck.not_wanted (hp : p.Disciplined rank) (hs : p.Stuck policy) (l : L) : ¬ p.Wanted l := by
  intro hl
  have hfinite : {l | p.Wanted l}.Finite := by
    refine (p.threads.filterMap fun t => t.code.wants.map Prod.fst).finite_toSet.subset ?_
    rintro l ⟨t, ht, m, hwants⟩
    exact List.mem_filterMap.mpr ⟨t, ht, by rw [hwants]; rfl⟩
  obtain ⟨top, htop, hmax⟩ := Set.exists_max_image _ rank hfinite ⟨l, hl⟩
  obtain ⟨l', hl', hlt⟩ := hs.wanted_above hp htop
  exact absurd (hmax l' hl') (by omega)

/-- **Some thread can take a step**, unless all are done. -/
theorem exists_step (hp : p.Disciplined rank) (hlive : p.aborted = false) {i : ℕ}
    (hi : p.Unfinished i) : ∃ j, (p.step policy j).isSome = true := by
  by_contra hnone
  have hs : p.Stuck policy := ⟨hlive, fun j => by simpa using fun h => hnone ⟨j, h⟩⟩
  have hfinite : {i | p.Unfinished i}.Finite := by
    refine (Set.finite_lt_nat p.threads.length).subset ?_
    rintro i ⟨t, ht, -⟩
    exact (List.getElem?_eq_some_iff.mp ht).1
  -- the last thread that is not done waits for a later one that is not done
  obtain ⟨last, ⟨t, ht, hdone⟩, hmax⟩ := Set.exists_max_image _ id hfinite ⟨i, hi⟩
  have hwants : t.code.wants = none := by
    refine Option.eq_none_iff_forall_ne_some.mpr fun w hw => ?_
    exact hs.not_wanted hp w.1 ⟨t, List.mem_of_getElem? ht, w.2, hw⟩
  obtain ⟨-, j, hlt, hj⟩ := hs.waits hp ht hdone hwants
  exact absurd (hmax j hj) (not_le.mpr hlt)

end Process

end Concurrency
