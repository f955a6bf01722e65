import LuzServing.Machine

/-!
# Runs that are simulated

Where a step function says what another one is for, both are given the same labels. A run of
the first is then a run of the second with the same outputs, if each of its steps is
(`Execution.simulate`). Runs may be those whose steps all meet a guard.
-/

namespace LuzServing

universe u v w x

section

variable {σ : Type u} {τ : Type v} {α : Type w} {β : Type x}

/-- A run: its labels, their outputs and the state at the end. Every step meets the guard. -/
inductive Execution (step : σ → α → Option (σ × β)) (guard : σ → α → Prop) :
    σ → List α → List β → σ → Prop where
  /-- no step -/
  | nil (s : σ) : Execution step guard s [] [] s
  /-- a step, and the run from there -/
  | cons {s s₁ s' : σ} {a : α} {as : List α} {b : β} {bs : List β} :
      guard s a → step s a = some (s₁, b) → Execution step guard s₁ as bs s' →
      Execution step guard s (a :: as) (b :: bs) s'

/-- The second step function does what the first does, as far as `R` sees it. -/
def Simulates (step : σ → α → Option (σ × β)) (guard : σ → α → Prop)
    (spec : τ → α → Option (τ × β)) (R : σ → τ → Prop) : Prop :=
  ∀ s t a s' b, R s t → guard s a → step s a = some (s', b) →
    ∃ t', spec t a = some (t', b) ∧ R s' t'

variable {step : σ → α → Option (σ × β)} {guard : σ → α → Prop} {spec : τ → α → Option (τ × β)}
  {R : σ → τ → Prop} {s s' : σ} {t : τ} {as : List α} {bs : List β}

/-- **The simulation rule**: an execution that starts related is matched step by step by the
specification. -/
theorem Execution.simulate (h : Simulates step guard spec R) (hR : R s t)
    (hrun : Execution step guard s as bs s') :
    ∃ t', runList spec t as = some (t', bs) ∧ R s' t' := by
  induction hrun generalizing t with
  | nil s => exact ⟨t, rfl, hR⟩
  | cons hguard hstep _ ih =>
    obtain ⟨t₁, hspec, hR₁⟩ := h _ _ _ _ _ hR hguard hstep
    obtain ⟨t', hrun', hR'⟩ := ih hR₁
    exact ⟨t', runList_cons_eq_some.mpr ⟨t₁, _, _, hspec, hrun', rfl⟩, hR'⟩

/-- Executing a list of labels is a run, if an invariant has the guard hold throughout. -/
theorem Execution.of_runList {I : σ → Prop} (hI : I s)
    (hguard : ∀ s, ∀ a ∈ as, I s → guard s a)
    (hstep : ∀ s, ∀ a ∈ as, ∀ s' b, I s → step s a = some (s', b) → I s')
    (hrun : runList step s as = some (s', bs)) : Execution step guard s as bs s' := by
  induction as generalizing s bs with
  | nil =>
    obtain ⟨rfl, rfl⟩ := Prod.mk.inj (Option.some.inj hrun)
    exact .nil s
  | cons a as ih =>
    obtain ⟨s₁, b, bs₁, hs₁, hrest, rfl⟩ := runList_cons_eq_some.mp hrun
    have hI₁ : I s₁ := hstep s a (List.mem_cons_self ..) s₁ b hI hs₁
    refine .cons (hguard s a (List.mem_cons_self ..) hI) hs₁ (ih hI₁ ?_ ?_ hrest)
    · exact fun s a ha => hguard s a (List.mem_cons_of_mem _ ha)
    · exact fun s a ha => hstep s a (List.mem_cons_of_mem _ ha)

end

end LuzServing
