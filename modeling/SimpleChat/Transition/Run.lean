import Mathlib.Data.List.Induction
import Mathlib.Order.Monotone.Basic

/-!
# Runs of a partial step function

A system is a partial step function `next : σ → α → Option σ`: `next s a` is the state after the
step labelled `a`, undefined where `a` is not enabled. A run is a list of labels, each enabled
where it is taken.

## Main definitions

* `run next s as`: the state after the run `as` from `s`
* `Reachable next s`: the states some run from `s` ends in
* `Along next P s as`: `P` holds in every state the run visits
* `Meets next C s as`: every step of the run is taken in a state that meets `C` for its label
* `trace next out s as`: the labels of the run, each with what its step puts out

## Main results

* `run_induction`, `Reachable.invariant`: what every step preserves holds after every run
* `run_history_induction`: the same for predicates of the state and the labels so far
* `exists_cursor`: a position that no step moves back is monotone along a run
* `along_iff_meets`: a property of the visited states exactly from a condition on the steps
* `along_of_take`, `meets_of_take`: a run is checked prefix by prefix
* `run_filter`, `trace_filter`: steps that a projection does not see can be left out of a run
-/

namespace Transition

variable {σ α : Type*}

/-- The state after taking the labels of a list in order. -/
def run (next : σ → α → Option σ) : σ → List α → Option σ
  | s, [] => some s
  | s, a :: as => (next s a).bind fun t => run next t as

/-- The states that some run from `s` ends in. -/
def Reachable (next : σ → α → Option σ) (s t : σ) : Prop :=
  ∃ as, run next s as = some t

/-- `P` holds in every state that the run `as` from `s` visits, its ends included. -/
def Along (next : σ → α → Option σ) (P : σ → Prop) (s : σ) (as : List α) : Prop :=
  ∀ p t, p <+: as → run next s p = some t → P t

/-- Every step of the run `as` from `s` is taken in a state that meets `C` for its label. -/
def Meets (next : σ → α → Option σ) (C : σ → α → Prop) (s : σ) (as : List α) : Prop :=
  ∀ p a t, p ++ [a] <+: as → run next s p = some t → C t a

/-- The labels of the run `as` from `s`, each with what its step puts out. -/
def trace {ω : Type*} (next : σ → α → Option σ) (out : σ → α → ω) : σ → List α → List (α × ω)
  | _, [] => []
  | s, a :: as => (a, out s a) :: ((next s a).elim [] fun t => trace next out t as)

variable {next : σ → α → Option σ} {s t : σ} {as : List α}

@[simp] theorem run_singleton (a : α) : run next s [a] = next s a := by
  simp [run]

theorem run_append (s : σ) (as bs : List α) :
    run next s (as ++ bs) = (run next s as).bind fun t => run next t bs := by
  induction as generalizing s with
  | nil => rfl
  | cons a as ih => simp only [List.cons_append, run, Option.bind_assoc, ih]

theorem run_append_eq_some {bs : List α} :
    run next s (as ++ bs) = some t ↔ ∃ u, run next s as = some u ∧ run next u bs = some t := by
  rw [run_append, Option.bind_eq_some_iff]

theorem run_concat_eq_some {a : α} :
    run next s (as ++ [a]) = some t ↔ ∃ u, run next s as = some u ∧ next u a = some t := by
  rw [run_append_eq_some]
  simp only [run_singleton]

theorem Reachable.refl (s : σ) : Reachable next s s := ⟨[], rfl⟩

theorem Reachable.concat {a : α} {u : σ} (h : Reachable next s t) (hn : next t a = some u) :
    Reachable next s u := by
  obtain ⟨as, has⟩ := h
  exact ⟨as ++ [a], run_concat_eq_some.mpr ⟨t, has, hn⟩⟩

theorem Reachable.run {u : σ} (h : Reachable next s t) (hrun : run next t as = some u) :
    Reachable next s u := by
  obtain ⟨bs, hbs⟩ := h
  exact ⟨bs ++ as, run_append_eq_some.mpr ⟨t, hbs, hrun⟩⟩

/-! ## Induction along a run -/

/-- A predicate of the labels so far and the state they lead to, kept by every step. -/
theorem run_history_induction {P : List α → σ → Prop} (h0 : P [] s)
    (hstep : ∀ p t a u, run next s p = some t → P p t → next t a = some u → P (p ++ [a]) u)
    (hrun : run next s as = some t) : P as t := by
  induction as using List.reverseRecOn generalizing t with
  | nil => exact Option.some.inj hrun ▸ h0
  | append_singleton p a ih =>
    obtain ⟨u, hu, ha⟩ := run_concat_eq_some.mp hrun
    exact hstep p u a t hu (ih hu) ha

/-- An invariant kept by every step holds after every run. -/
theorem run_induction {P : σ → Prop} (h0 : P s)
    (hstep : ∀ t a u, P t → next t a = some u → P u) (hrun : run next s as = some t) : P t :=
  run_history_induction (P := fun _ t => P t) h0 (fun _ t a u _ => hstep t a u) hrun

theorem Reachable.invariant {P : σ → Prop} (h : Reachable next s t) (h0 : P s)
    (hstep : ∀ t a u, P t → next t a = some u → P u) : P t := by
  obtain ⟨as, has⟩ := h
  exact run_induction h0 hstep has

/-- A position that every step keeps or moves on, as a monotone function of the steps taken. -/
theorem exists_cursor {κ : Type*} [Preorder κ] {R : List α → σ → κ → Prop} {k : κ} (h0 : R [] s k)
    (hstep : ∀ p t a u k, p ++ [a] <+: as → run next s p = some t → R p t k → next t a = some u →
      ∃ k', k ≤ k' ∧ R (p ++ [a]) u k')
    (hrun : run next s as = some t) :
    ∃ cursor : ℕ → κ, Monotone cursor ∧
      ∀ i u, run next s (as.take i) = some u → R (as.take i) u (cursor i) := by
  induction as using List.reverseRecOn generalizing t with
  | nil =>
    refine ⟨fun _ => k, monotone_const, fun i u hu => ?_⟩
    rw [List.take_nil] at hu ⊢
    obtain rfl := Option.some.inj hu
    exact h0
  | append_singleton p a ih =>
    obtain ⟨v, hv, ha⟩ := run_concat_eq_some.mp hrun
    obtain ⟨cursor, hmono, hcursor⟩ := ih
      (fun q t b u k hq => hstep q t b u k (hq.trans (List.prefix_append p [a]))) hv
    have hlast := hcursor p.length v
    rw [List.take_length] at hlast
    obtain ⟨k', hle, hk'⟩ := hstep p v a t _ (List.prefix_refl _) hv (hlast hv) ha
    -- the cursor goes on from where it was before the last step
    refine ⟨fun i => if i ≤ p.length then cursor i else k', fun i j hij => ?_, fun i u hu => ?_⟩
    · by_cases hj : j ≤ p.length
      · simp only [hij.trans hj, hj, if_true]
        exact hmono hij
      · by_cases hi : i ≤ p.length
        · simp only [hi, hj, if_true, if_false]
          exact (hmono hi).trans hle
        · simp only [hi, hj, if_false]
          exact le_rfl
    · by_cases hi : i ≤ p.length
      · rw [List.take_append_of_le_length hi] at hu ⊢
        simp only [hi, if_true]
        exact hcursor i u hu
      · have htake : (p ++ [a]).take i = p ++ [a] := List.take_of_length_le (by simp; omega)
        rw [htake] at hu ⊢
        obtain rfl := Option.some.inj (hrun.symm.trans hu)
        simp only [hi, if_false]
        exact hk'

theorem exists_of_mem_trace {ω : Type*} {out : σ → α → ω} {x : α × ω} (hx : x ∈ trace next out s as) :
    x.1 ∈ as ∧ ∃ t, x.2 = out t x.1 := by
  induction as generalizing s with
  | nil => cases hx
  | cons a as ih =>
    rcases List.mem_cons.mp hx with rfl | hx
    · exact ⟨List.mem_cons_self .., s, rfl⟩
    · cases hn : next s a with
      | none =>
        rw [hn] at hx
        cases hx
      | some t =>
        rw [hn] at hx
        obtain ⟨hmem, hout⟩ := ih hx
        exact ⟨List.mem_cons_of_mem a hmem, hout⟩

theorem prefix_trace {ω : Type*} (next : σ → α → Option σ) (out : σ → α → ω) {p as : List α}
    (h : p <+: as) (s : σ) : trace next out s p <+: trace next out s as := by
  induction p generalizing as s with
  | nil => exact List.nil_prefix
  | cons a p ih =>
    obtain ⟨rest, rfl⟩ := h
    refine List.cons_prefix_cons.mpr ⟨rfl, ?_⟩
    cases next s a with
    | none => exact List.nil_prefix
    | some t => exact ih (List.prefix_append p rest) t

theorem trace_concat {ω : Type*} {out : σ → α → ω} (hrun : run next s as = some t) (a : α) :
    trace next out s (as ++ [a]) = trace next out s as ++ [(a, out t a)] := by
  induction as generalizing s with
  | nil =>
    obtain rfl := Option.some.inj hrun
    cases h : next s a <;> simp [trace, h]
  | cons b as ih =>
    obtain ⟨u, hb, hrest⟩ := Option.bind_eq_some_iff.mp hrun
    simp [trace, hb, ih hrest]

/-! ## Properties along a run -/

theorem Along.of_prefix {P : σ → Prop} {p : List α} (h : Along next P s as) (hp : p <+: as) :
    Along next P s p := by
  intro q t hq ht
  exact h q t (hq.trans hp) ht

theorem Along.last {P : σ → Prop} (h : Along next P s as) (hrun : run next s as = some t) : P t :=
  h as t (List.prefix_refl as) hrun

theorem Meets.of_prefix {C : σ → α → Prop} {p : List α} (h : Meets next C s as) (hp : p <+: as) :
    Meets next C s p := by
  intro q a t hq ht
  exact h q a t (hq.trans hp) ht

theorem along_nil {P : σ → Prop} : Along next P s [] ↔ P s := by
  constructor
  · exact fun h => h [] s (List.prefix_refl _) rfl
  · rintro h p t hp ht
    obtain rfl := List.prefix_nil.mp hp
    exact Option.some.inj ht ▸ h

theorem along_concat {P : σ → Prop} {a : α} :
    Along next P s (as ++ [a]) ↔
      Along next P s as ∧ ∀ t, run next s (as ++ [a]) = some t → P t := by
  constructor
  · exact fun h => ⟨h.of_prefix (List.prefix_append _ _), fun t => h.last⟩
  · rintro ⟨h, hl⟩ p t hp ht
    rcases List.prefix_concat_iff.mp hp with rfl | hp
    · exact hl t ht
    · exact h p t hp ht

theorem meets_concat {C : σ → α → Prop} {a : α} :
    Meets next C s (as ++ [a]) ↔ Meets next C s as ∧ ∀ t, run next s as = some t → C t a := by
  constructor
  · exact fun h => ⟨h.of_prefix (List.prefix_append _ _), fun t => h as a t (List.prefix_refl _)⟩
  · rintro ⟨h, hl⟩ p b t hp ht
    rcases List.prefix_concat_iff.mp hp with he | hp
    · obtain ⟨rfl, hb⟩ := List.append_inj' he rfl
      exact List.singleton_inj.mp hb ▸ hl t ht
    · exact h p b t hp ht

theorem meets_nil {C : σ → α → Prop} : Meets next C s [] := by
  intro p a t hp
  simp at hp

/-- A run meets a condition exactly if its first step and the rest of it do. -/
theorem meets_cons {C : σ → α → Prop} {a : α} (ha : next s a = some t) :
    Meets next C s (a :: as) ↔ C s a ∧ Meets next C t as := by
  constructor
  · intro h
    refine ⟨h [] a s (List.cons_prefix_cons.mpr ⟨rfl, List.nil_prefix⟩) rfl, fun p b u hp hu => ?_⟩
    exact h (a :: p) b u (List.cons_prefix_cons.mpr ⟨rfl, hp⟩) (by rw [run, ha]; exact hu)
  · rintro ⟨hC, h⟩ p b u hp hu
    cases p with
    | nil =>
      obtain ⟨rfl, -⟩ := List.cons_prefix_cons.mp hp
      exact Option.some.inj hu ▸ hC
    | cons c p =>
      obtain ⟨rfl, hp'⟩ := List.cons_prefix_cons.mp hp
      rw [run, ha] at hu
      exact h p b u hp' hu

theorem meets_append {C : σ → α → Prop} {bs : List α} (hrun : run next s as = some t) :
    Meets next C s (as ++ bs) ↔ Meets next C s as ∧ Meets next C t bs := by
  induction as generalizing s with
  | nil =>
    obtain rfl := Option.some.inj hrun
    exact (and_iff_right meets_nil).symm
  | cons a as ih =>
    obtain ⟨u, ha, hrest⟩ := Option.bind_eq_some_iff.mp hrun
    rw [List.cons_append, meets_cons ha, meets_cons ha, ih hrest, and_assoc]

/-- What holds along a run holds along what is left of it after its beginning. -/
theorem Along.of_append {P : σ → Prop} {bs : List α} (hrun : run next s as = some t)
    (h : Along next P s (as ++ bs)) : Along next P t bs := by
  intro p u hp hu
  exact h (as ++ p) u ((List.prefix_append_right_inj as).mpr hp) (run_append_eq_some.mpr ⟨t, hrun, hu⟩)

/-- What holds along a run and along a run that goes on from its end holds along both. -/
theorem Along.append {P : σ → Prop} {bs : List α} (hrun : run next s as = some t)
    (h : Along next P s as) (h' : Along next P t bs) : Along next P s (as ++ bs) := by
  induction bs using List.reverseRecOn with
  | nil => simpa using h
  | append_singleton q a ih =>
    obtain ⟨hq, hlast⟩ := along_concat.mp h'
    rw [← List.append_assoc, along_concat]
    refine ⟨ih hq, fun u hu => hlast u ?_⟩
    rwa [List.append_assoc, run_append, hrun] at hu

/-- If, from reachable states with `P`, exactly the steps that meet `C` keep `P`, then `P` holds
along a run exactly if all its steps meet `C`. -/
theorem along_iff_meets {P : σ → Prop} {C : σ → α → Prop} (h0 : P s)
    (hstep : ∀ t a u, Reachable next s t → P t → next t a = some u → (P u ↔ C t a))
    (hrun : run next s as = some t) : Along next P s as ↔ Meets next C s as := by
  induction as using List.reverseRecOn generalizing t with
  | nil =>
    refine iff_of_true (along_nil.mpr h0) ?_
    intro p a u hp
    simp at hp
  | append_singleton p a ih =>
    obtain ⟨u, hu, ha⟩ := run_concat_eq_some.mp hrun
    rw [along_concat, meets_concat, ← ih hu]
    -- both sides say the same of the shorter run; the step decides about the last state
    apply and_congr_right
    intro hp
    have hiff := hstep u a t ⟨p, hu⟩ (hp.last hu) ha
    rw [hrun, hu]
    simpa using hiff

/-- An invariant that the steps which meet `C` keep holds along a run of them. -/
theorem Meets.along {P : σ → Prop} {C : σ → α → Prop} (h : Meets next C s as) (h0 : P s)
    (hstep : ∀ t a u, P t → C t a → next t a = some u → P u) : Along next P s as := by
  intro p t hp ht
  refine run_history_induction (P := fun q t => q <+: as → P t) (fun _ => h0) ?_ ht hp
  intro q t a u hq ih ha hqa
  exact hstep t a u (ih ((List.prefix_append q [a]).trans hqa)) (h q a t hqa hq) ha

theorem along_of_take {P : σ → Prop} (h : ∀ k ≤ as.length, ∀ t ∈ run next s (as.take k), P t) :
    Along next P s as := by
  intro p t hp ht
  have htake := List.prefix_iff_eq_take.mp hp
  exact h p.length hp.length_le t (by rwa [← htake])

theorem meets_of_take {C : σ → α → Prop}
    (h : ∀ k < as.length, ∀ a ∈ as[k]?, ∀ t ∈ run next s (as.take k), C t a) :
    Meets next C s as := by
  intro p a t hp ht
  obtain ⟨rest, rfl⟩ := hp
  refine h p.length (by simp) a (by simp) t ?_
  rw [List.append_assoc, List.take_left]
  exact ht

/-! ## Projections -/

section Filter

variable {ω : Type*} {keep : α → Bool} {f : σ → σ} {P : σ → Prop} {out : σ → α → ω}

/-- A predicate that holds before a step if it holds after it holds before a run. -/
theorem run_backward (hback : ∀ s a t, next s a = some t → P t → P s)
    (hrun : run next s as = some t) (ht : P t) : P s := by
  induction as generalizing s with
  | nil => exact Option.some.inj hrun ▸ ht
  | cons a as ih =>
    obtain ⟨u, ha, hrest⟩ := Option.bind_eq_some_iff.mp hrun
    exact hback s a u ha (ih hrest)

/-- A projection follows a run without the steps it does not see, if the run ends in `P`. -/
theorem run_filter (hback : ∀ s a t, next s a = some t → P t → P s)
    (hhidden : ∀ s a t, next s a = some t → P t → keep a = false → f t = f s)
    (hkept : ∀ s a t, next s a = some t → P t → keep a = true → next (f s) a = some (f t))
    (hrun : run next s as = some t) (ht : P t) :
    run next (f s) (as.filter keep) = some (f t) := by
  induction as generalizing s with
  | nil => exact congrArg (some ∘ f) (Option.some.inj hrun)
  | cons a as ih =>
    obtain ⟨u, ha, hrest⟩ := Option.bind_eq_some_iff.mp hrun
    have hu : P u := run_backward hback hrest ht
    cases hk : keep a with
    | false =>
      rw [List.filter_cons_of_neg (by simp [hk]), ← hhidden s a u ha hu hk]
      exact ih hrest
    | true =>
      rw [List.filter_cons_of_pos hk, run, hkept s a u ha hu hk]
      exact ih hrest

/-- What the steps that are left put out is what they put out in the whole run, if the projection
sees what a step puts out. -/
theorem trace_filter (hback : ∀ s a t, next s a = some t → P t → P s)
    (hhidden : ∀ s a t, next s a = some t → P t → keep a = false → f t = f s)
    (hkept : ∀ s a t, next s a = some t → P t → keep a = true → next (f s) a = some (f t))
    (hout : ∀ s a, P s → keep a = true → out (f s) a = out s a)
    (hrun : run next s as = some t) (ht : P t) :
    trace next out (f s) (as.filter keep) = (trace next out s as).filter fun x => keep x.1 := by
  induction as generalizing s with
  | nil => rfl
  | cons a as ih =>
    obtain ⟨u, ha, hrest⟩ := Option.bind_eq_some_iff.mp hrun
    have hu : P u := run_backward hback hrest ht
    rw [trace, ha, Option.elim_some]
    cases hk : keep a with
    | false =>
      rw [List.filter_cons_of_neg (by simp [hk]), List.filter_cons_of_neg (by simp [hk]),
        ← hhidden s a u ha hu hk]
      exact ih hrest
    | true =>
      rw [List.filter_cons_of_pos hk, List.filter_cons_of_pos (by simpa using hk), trace,
        hkept s a u ha hu hk, hout s a (hback s a u ha hu) hk, Option.elim_some, ih hrest]

end Filter

end Transition
