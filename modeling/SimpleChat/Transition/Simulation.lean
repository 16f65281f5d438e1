import SimpleChat.Transition.Run

/-!
# Simulation up to an observation

A system is observed by what its steps show, a list of steps of another system. If the other system
can follow each step that meets a condition, and none that does not, then what a run shows is a run
of the other system exactly if every step of the run meets the condition.

## Main definitions

* `observed out s as`: what the run `as` from `s` shows

## Main results

* `exists_run_observed`: what a run of good steps shows is a run of the other system
* `run_observed_iff`: and what any other run shows is none
-/

namespace Transition

variable {σ α τ β : Type*} {next : σ → α → Option σ} {next' : τ → β → Option τ}

/-- What a run shows. -/
def observed (next : σ → α → Option σ) (out : σ → α → List β) (s : σ) (as : List α) : List β :=
  (trace next out s as).flatMap Prod.snd

theorem observed_concat {out : σ → α → List β} {s t : σ} {as : List α}
    (hrun : run next s as = some t) (a : α) :
    observed next out s (as ++ [a]) = observed next out s as ++ out t a := by
  rw [observed, trace_concat hrun, List.flatMap_append]
  simp [observed]

/-- What a part of the observation shows. -/
theorem observed_filterMap {γ : Type*} (f : β → Option γ) (out : σ → α → List β) (s : σ)
    (as : List α) : (observed next out s as).filterMap f =
      observed next (fun s a => (out s a).filterMap f) s as := by
  induction as generalizing s with
  | nil => rfl
  | cons a as ih =>
    rw [observed, observed, trace, trace, List.flatMap_cons, List.flatMap_cons, List.filterMap_append]
    cases ha : next s a with
    | none => rfl
    | some t => exact congrArg _ (ih t)

section Simulation

variable {out : σ → α → List β} {R : σ → τ → Prop} {C : σ → α → Prop}

/-- If the other system follows each step that meets `C`, it follows each run of them. -/
theorem exists_run_observed
    (hstep : ∀ s t a s', R s t → C s a → next s a = some s' →
      ∃ t', run next' t (out s a) = some t' ∧ R s' t')
    {s s' : σ} {t : τ} {as : List α} (h0 : R s t) (hrun : run next s as = some s')
    (hC : Meets next C s as) :
    ∃ t', run next' t (observed next out s as) = some t' ∧ R s' t' := by
  refine run_history_induction (P := fun p u => p <+: as →
    ∃ t', run next' t (observed next out s p) = some t' ∧ R u t') ?_ ?_ hrun (List.prefix_refl as)
  · exact fun _ => ⟨t, rfl, h0⟩
  · intro p u a v hp ih ha hpre
    obtain ⟨t₁, hrun₁, hR⟩ := ih ((List.prefix_append p [a]).trans hpre)
    obtain ⟨t₂, hrun₂, hR'⟩ := hstep u t₁ a v hR (hC p a u hpre hp) ha
    rw [observed_concat hp]
    exact ⟨t₂, run_append_eq_some.mpr ⟨t₁, hrun₁, hrun₂⟩, hR'⟩

/-- What a run shows is a run of the other system exactly if every step meets `C`, provided that the
other system can follow exactly these steps. -/
theorem run_observed_iff
    (hstep : ∀ s t a s', R s t → C s a → next s a = some s' →
      ∃ t', run next' t (out s a) = some t' ∧ R s' t')
    (hstuck : ∀ s t a s', R s t → ¬ C s a → next s a = some s' → run next' t (out s a) = none)
    {s s' : σ} {t : τ} {as : List α} (h0 : R s t) (hrun : run next s as = some s') :
    (∃ t', run next' t (observed next out s as) = some t') ↔ Meets next C s as := by
  constructor
  · refine run_history_induction (P := fun p _ =>
      (∃ t', run next' t (observed next out s p) = some t') → Meets next C s p)
      (fun _ => meets_nil) ?_ hrun
    rintro p u a v hp ih ha ⟨t₂, ht₂⟩
    rw [observed_concat hp, run_append_eq_some] at ht₂
    obtain ⟨t₁, ht₁, ht₂⟩ := ht₂
    have hmeets := ih ⟨t₁, ht₁⟩
    obtain ⟨t₁', ht₁', hR⟩ := exists_run_observed hstep h0 hp hmeets
    rw [ht₁] at ht₁'
    obtain rfl := Option.some.inj ht₁'
    refine meets_concat.mpr ⟨hmeets, fun w hw => ?_⟩
    rw [hp] at hw
    obtain rfl := Option.some.inj hw
    by_contra hnot
    rw [hstuck u t₁ a v hR hnot ha] at ht₂
    cases ht₂
  · intro hC
    obtain ⟨t', ht', -⟩ := exists_run_observed hstep h0 hrun hC
    exact ⟨t', ht'⟩

end Simulation

end Transition
