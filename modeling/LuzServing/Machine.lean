import Mathlib.Tactic

/-!
# Machines: labelled transition systems and their invariants

Every component of the serving stack is verified over its whole runs: a store
over any order of calls, a thread pool over any interleaving, a window over any
schedule of chunks. This file is the part they share: a machine, the states its
runs reach, the invariant rule (`Machine.Invariant.reach`), the machine whose
steps all meet a guard (`Machine.guarded`), and the lists of labels that a
partial step function executes (`runList`).
-/

namespace LuzServing

universe u v w

/-- A labelled transition system: the initial states and the labelled steps. -/
structure Machine (σ : Type u) (α : Type v) where
  /-- the states a run may start in -/
  init : σ → Prop
  /-- one step, with its label -/
  step : σ → α → σ → Prop

namespace Machine

variable {σ : Type u} {α : Type v} (M : Machine σ α)

/-- The states that a run of the machine reaches. -/
inductive Reach : σ → Prop where
  /-- a run may stop before its first step -/
  | init {s : σ} : M.init s → Reach s
  /-- a run goes on with one more step -/
  | step {s s' : σ} {a : α} : Reach s → M.step s a s' → Reach s'

/-- An inductive invariant: it holds at the start and every step keeps it. -/
structure Invariant (I : σ → Prop) : Prop where
  /-- the initial states satisfy it -/
  init : ∀ s, M.init s → I s
  /-- every step keeps it -/
  step : ∀ s a s', I s → M.step s a s' → I s'

variable {M}

/-- **The invariant rule**: an inductive invariant holds in every state that a
run reaches. -/
theorem Invariant.reach {I : σ → Prop} (hI : M.Invariant I) {s : σ}
    (hs : M.Reach s) : I s := by
  induction hs with
  | init hi => exact hI.init _ hi
  | step _ hst ih => exact hI.step _ _ _ ih hst

/-- The invariant rule where the step may also use what earlier invariants say
of the reached state. -/
theorem Reach.invariant {I : σ → Prop} (hinit : ∀ s, M.init s → I s)
    (hstep : ∀ s a s', M.Reach s → I s → M.step s a s' → I s') {s : σ}
    (hs : M.Reach s) : I s := by
  induction hs with
  | init hi => exact hinit _ hi
  | step hr hst ih => exact hstep _ _ _ hr ih hst

/-- The machine whose steps all meet a guard on the state before the step and
the label. -/
def guarded (M : Machine σ α) (guard : σ → α → Prop) : Machine σ α where
  init := M.init
  step s a s' := guard s a ∧ M.step s a s'

/-- Whatever a run with a guard reaches, the machine without the guard reaches, too. -/
theorem Reach.of_guarded {guard : σ → α → Prop} {s : σ}
    (hs : (M.guarded guard).Reach s) : M.Reach s := by
  induction hs with
  | init hi => exact .init hi
  | step _ hst ih => exact .step ih hst.2

end Machine

/-- Execute a list of labels with a partial step function, collecting the
outputs; `none` as soon as one step is `none`. -/
def runList {σ : Type u} {α : Type v} {β : Type w} (step : σ → α → Option (σ × β)) :
    σ → List α → Option (σ × List β)
  | s, [] => some (s, [])
  | s, a :: as => do
    let (s₁, b) ← step s a
    let (s₂, bs) ← runList step s₁ as
    pure (s₂, b :: bs)

/-- A run of a label and more: a step, and the run from there. -/
theorem runList_cons_eq_some {σ : Type u} {α : Type v} {β : Type w} {step : σ → α → Option (σ × β)}
    {s s' : σ} {a : α} {as : List α} {bs : List β} :
    runList step s (a :: as) = some (s', bs) ↔
      ∃ s₁ b bs₁, step s a = some (s₁, b) ∧ runList step s₁ as = some (s', bs₁) ∧
        bs = b :: bs₁ := by
  rw [runList]
  constructor
  · intro h
    obtain ⟨⟨s₁, b⟩, hstep, h⟩ := Option.bind_eq_some_iff.mp h
    obtain ⟨⟨s₂, bs₁⟩, hrun, h⟩ := Option.bind_eq_some_iff.mp h
    obtain ⟨rfl, rfl⟩ := Prod.mk.inj (Option.some.inj h)
    exact ⟨s₁, b, bs₁, hstep, hrun, rfl⟩
  · rintro ⟨s₁, b, bs₁, hstep, hrun, rfl⟩
    exact Option.bind_eq_some_iff.mpr ⟨_, hstep, Option.bind_eq_some_iff.mpr ⟨_, hrun, rfl⟩⟩

end LuzServing
