import BpfEquiv.Smt.Solver

/-!
Case splits on path conditions.

A list of condition lists splits a condition list when every assignment that
satisfies the latter satisfies exactly one of the former, and every other
assignment none. Sides that no assignment satisfies may be dropped.
-/
namespace Smt

abbrev Conds := List (Term .bool)

def live (σ : Assignment) (css : List Conds) : Nat :=
  css.countP fun cs => decide (Holds σ cs)

def Splits (cs : Conds) (css : List Conds) : Prop :=
  ∀ σ, live σ css = if Holds σ cs then 1 else 0

@[simp] theorem live_nil (σ : Assignment) : live σ [] = 0 := rfl

theorem live_cons (σ : Assignment) (cs : Conds) (css : List Conds) :
    live σ (cs :: css) = (if Holds σ cs then 1 else 0) + live σ css := by
  simp only [live, List.countP_cons, decide_eq_true_eq]
  omega

@[simp] theorem live_append (σ : Assignment) (css dss : List Conds) :
    live σ (css ++ dss) = live σ css + live σ dss :=
  List.countP_append

theorem live_perm {css dss : List Conds} (h : css.Perm dss) (σ : Assignment) :
    live σ css = live σ dss :=
  h.countP_eq _

theorem splits_self (cs : Conds) : Splits cs [cs] := by
  intro σ
  simp [live_cons]

theorem Splits.perm {cs : Conds} {css dss : List Conds} (h : Splits cs css)
    (p : css.Perm dss) : Splits cs dss :=
  fun σ => (live_perm p σ).symm.trans (h σ)

/-- A side that is kept only if it can hold. -/
def keepIf (keep : Bool) (cs : Conds) : List Conds := if keep then [cs] else []

theorem live_keepIf {keep : Bool} {cs : Conds} (dead : keep = false → ∀ σ, ¬ Holds σ cs)
    (σ : Assignment) : live σ (keepIf keep cs) = if Holds σ cs then 1 else 0 := by
  cases keep with
  | true => simp [keepIf, live_cons]
  | false => simp [keepIf, dead rfl σ]

/-- Two complementary sides, each kept unless it is dead. -/
theorem splits_fork (left right : Bool) {cs : Conds} {c d : Term .bool}
    (compl : ∀ σ, d.eval σ = !c.eval σ)
    (deadLeft : left = false → ∀ σ, ¬ Holds σ (cs ++ [c]))
    (deadRight : right = false → ∀ σ, ¬ Holds σ (cs ++ [d])) :
    Splits cs (keepIf left (cs ++ [c]) ++ keepIf right (cs ++ [d])) := by
  intro σ
  rw [live_append, live_keepIf deadLeft, live_keepIf deadRight]
  simp only [holds_snoc, compl σ]
  by_cases held : Holds σ cs <;> cases c.eval σ <;> simp [held]

/-- A condition that always holds may be left out. -/
theorem live_of_isTrue {cs : Conds} {c : Term .bool} (h : c.isTrue = true) (σ : Assignment) :
    live σ [cs] = live σ [cs ++ [c]] := by
  simp [live_cons, holds_snoc, eval_of_isTrue h σ]

end Smt
