import Mathlib

/-!
Runs of a labelled transition system.

A run is a list of labels with the state after them. Invariants and measures are shown for one
step; the rules here carry them to runs.
-/
namespace Lts

variable {σ ℓ : Type} {step : σ → ℓ → σ → Prop} {init s : σ} {trace : List ℓ}

inductive Run (step : σ → ℓ → σ → Prop) (init : σ) : List ℓ → σ → Prop
  | nil : Run step init [] init
  | snoc {trace s l s'} : Run step init trace s → step s l s' → Run step init (trace ++ [l]) s'

theorem Run.keeps {I : σ → Prop} (run : Run step init trace s) (start : I init)
    (keeps : ∀ s l s', I s → step s l s' → I s') : I s := by
  induction run with
  | nil => exact start
  | snoc _ last ih => exact keeps _ _ _ ih last

/-- A measure that each step lowers bounds the length of runs. -/
theorem Run.length_add_le {I : σ → Prop} {μ : σ → Nat} (run : Run step init trace s)
    (start : I init) (keeps : ∀ s l s', I s → step s l s' → I s')
    (lowers : ∀ s l s', I s → step s l s' → μ s' < μ s) :
    trace.length + μ s ≤ μ init := by
  induction run with
  | nil => exact (Nat.zero_add _).le
  | snoc earlier last ih =>
    have less := lowers _ _ _ (earlier.keeps start keeps) last
    rw [List.length_append, List.length_singleton]
    omega

end Lts
