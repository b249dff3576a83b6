import Mathlib

/-!
Walks over a graph that is given by the successors of its nodes, with a bound on their depth.

A recursive check that asks something of a node and then of all its successors, one level
deeper each time, succeeds just if every walk is shorter than the bound and meets good nodes
only.
-/
namespace Walk

variable {α : Type}

inductive Reaches (next : α → List α) : Nat → α → α → Prop where
  | here (x : α) : Reaches next 0 x x
  | step {n : Nat} {x y z : α} (first : y ∈ next x) (rest : Reaches next n y z) :
      Reaches next (n + 1) x z

/-- The check with a bound on its depth. -/
def within (next : α → List α) (good : α → Bool) : Nat → α → Bool
  | 0, _ => false
  | fuel + 1, x => good x && (next x).all (within next good fuel)

variable {next : α → List α} {good : α → Bool}

theorem within_succ {fuel : Nat} {x : α} :
    within next good (fuel + 1) x = true ↔
      good x = true ∧ ∀ y ∈ next x, within next good fuel y = true := by
  rw [within, Bool.and_eq_true, List.all_eq_true]

theorem within_iff {fuel : Nat} {x : α} :
    within next good fuel x = true ↔
      ∀ n y, Reaches next n x y → n < fuel ∧ good y = true := by
  induction fuel generalizing x with
  | zero =>
    refine iff_of_false Bool.false_ne_true fun all => ?_
    exact Nat.not_lt_zero 0 (all 0 x (.here x)).1
  | succ fuel ih =>
    rw [within_succ]
    constructor
    · rintro ⟨first, later⟩ n y reached
      cases reached with
      | here => exact ⟨Nat.succ_pos fuel, first⟩
      | @step n x z y edge rest =>
        have below := ih.mp (later z edge) n y rest
        exact ⟨Nat.succ_lt_succ below.1, below.2⟩
    · intro all
      refine ⟨(all 0 x (.here x)).2, fun y edge => ih.mpr fun n z reached => ?_⟩
      have below := all (n + 1) z (.step edge reached)
      exact ⟨Nat.lt_of_succ_lt_succ below.1, below.2⟩

end Walk
