import BpfEquiv.Smt.Term

/-!
What a client may assume of an SMT solver, and one solver that meets it.

A Solver is the set of services a symbolic executor uses: a simplifier, a
satisfiability check and a proof attempt for a list of equations. The simplifier
keeps the meaning of a term. Checks and proofs may give up at any time, so their
answers depend on the number of the query as well as on what is asked; only a
definite answer carries information.
-/
namespace Smt

inductive Eqn where
  | bv {w : Nat} (a b : Term (.bv w))
  | arr (a b : Term .arr)

def Eqn.Holds (σ : Assignment) : Eqn → Prop
  | .bv a b => a.eval σ = b.eval σ
  | .arr a b => a.eval σ = b.eval σ

/-- What a client reads off a model that a solver has found. -/
structure Model where
  value : {w : Nat} → Term (.bv w) → BitVec w
  agrees : Eqn → Bool

inductive Answer where
  | proved
  | refuted (m : Model)
  | unknown

inductive CheckResult where
  | sat | unsat | unknown
  deriving DecidableEq, Repr

structure Solver where
  simplify : {s : Srt} → Term s → Term s
  simplify_eval : ∀ {s : Srt} (t : Term s) (σ : Assignment),
    (simplify t).eval σ = t.eval σ
  check : Nat → List (Term .bool) → CheckResult
  check_unsat : ∀ (query : Nat) (cs : List (Term .bool)),
    check query cs = .unsat → ∀ σ, ¬ Holds σ cs
  prove : Nat → List Eqn → Answer
  prove_proved : ∀ (query : Nat) (es : List Eqn),
    prove query es = .proved → ∀ σ, ∀ e ∈ es, e.Holds σ
  prove_refuted : ∀ (query : Nat) (es : List Eqn) (m : Model),
    prove query es = .refuted m → ∃ σ, ∃ e ∈ es, ¬ e.Holds σ
  /-- Names of the variables left in an equation after simplification. -/
  survivors : Eqn → List String

def Term.value? {w : Nat} : Term (.bv w) → Option (BitVec w)
  | .bvVal v => some v
  | _ => none

def Term.isTrue : Term .bool → Bool
  | .boolVal b => b
  | _ => false

def Term.isFalse : Term .bool → Bool
  | .boolVal b => !b
  | _ => false

theorem eval_of_value? {w : Nat} {t : Term (.bv w)} {v : BitVec w}
    (h : t.value? = some v) (σ : Assignment) : t.eval σ = v := by
  cases t <;> simp_all [Term.value?, Term.eval]

theorem eval_of_isTrue {t : Term .bool} (h : t.isTrue = true) (σ : Assignment) :
    t.eval σ = true := by
  cases t <;> simp_all [Term.isTrue, Term.eval]

theorem eval_of_isFalse {t : Term .bool} (h : t.isFalse = true) (σ : Assignment) :
    t.eval σ = false := by
  cases t <;> simp_all [Term.isFalse, Term.eval]

/-- The literal a term simplifies to, if it does. -/
def Solver.constOf (z : Solver) {w : Nat} (t : Term (.bv w)) : Option (BitVec w) :=
  (z.simplify t).value?

theorem Solver.constOf_eval (z : Solver) {w : Nat} {t : Term (.bv w)} {v : BitVec w}
    (h : z.constOf t = some v) (σ : Assignment) : t.eval σ = v := by
  rw [← z.simplify_eval t σ]
  exact eval_of_value? h σ

/-! Constant folding. -/

namespace Fold

/-- An operator of one argument, computed if the argument is a literal. -/
def map {w w' : Nat} (f : BitVec w → BitVec w') (op : Term (.bv w) → Term (.bv w'))
    (a : Term (.bv w)) : Term (.bv w') :=
  match a.value? with
  | some x => .bvVal (f x)
  | none => op a

/-- An operator of two arguments, computed if both are literals. -/
def map₂ {m n : Nat} {s : Srt} (lit : s.Val → Term s) (f : BitVec m → BitVec n → s.Val)
    (op : Term (.bv m) → Term (.bv n) → Term s) (a : Term (.bv m)) (b : Term (.bv n)) : Term s :=
  match a.value?, b.value? with
  | some x, some y => lit (f x y)
  | _, _ => op a b

def not (a : Term .bool) : Term .bool :=
  if a.isTrue then .boolVal false else if a.isFalse then .boolVal true else .not a

def and (a b : Term .bool) : Term .bool :=
  if a.isFalse || b.isFalse then .boolVal false
  else if a.isTrue then b else if b.isTrue then a else .and a b

def or (a b : Term .bool) : Term .bool :=
  if a.isTrue || b.isTrue then .boolVal true
  else if a.isFalse then b else if b.isFalse then a else .or a b

def ite {s : Srt} (c : Term .bool) (a b : Term s) : Term s :=
  if c.isTrue then a else if c.isFalse then b else .ite c a b

/-- The byte a chain of stores at literal indices holds at a literal index. -/
def byteAt (j : BitVec 64) : {s : Srt} → Term s → Option (Term (.bv 8))
  | _, .store a i v =>
    match i.value? with
    | some i' => if j = i' then some v else byteAt j a
    | none => none
  | _, .constArr v => some v
  | _, _ => none

def select (a : Term .arr) (i : Term (.bv 64)) : Term (.bv 8) :=
  match i.value? with
  | some j => (byteAt j a).getD (.select a i)
  | none => .select a i

variable (σ : Assignment)

theorem eval_map {w w' : Nat} {f : BitVec w → BitVec w'} {op : Term (.bv w) → Term (.bv w')}
    (sound : ∀ a, (op a).eval σ = f (a.eval σ)) (a : Term (.bv w)) :
    (map f op a).eval σ = f (a.eval σ) := by
  unfold map
  split
  · next x ha => rw [Term.eval, eval_of_value? ha σ]
  · exact sound a

theorem eval_map₂ {m n : Nat} {s : Srt} {lit : s.Val → Term s} {f : BitVec m → BitVec n → s.Val}
    {op : Term (.bv m) → Term (.bv n) → Term s} (literal : ∀ v, (lit v).eval σ = v)
    (sound : ∀ a b, (op a b).eval σ = f (a.eval σ) (b.eval σ)) (a : Term (.bv m))
    (b : Term (.bv n)) : (map₂ lit f op a b).eval σ = f (a.eval σ) (b.eval σ) := by
  unfold map₂
  split
  · next x y ha hb => rw [literal, eval_of_value? ha σ, eval_of_value? hb σ]
  · exact sound a b

theorem eval_not (a : Term .bool) : (not a).eval σ = !(a.eval σ) := by
  unfold not
  split
  · next ha => simp [Term.eval, eval_of_isTrue ha σ]
  · split
    · next ha => simp [Term.eval, eval_of_isFalse ha σ]
    · rfl

theorem eval_and (a b : Term .bool) : (and a b).eval σ = (a.eval σ && b.eval σ) := by
  unfold and
  split
  · rename_i h
    rcases Bool.or_eq_true_iff.mp h with h | h <;> simp [Term.eval, eval_of_isFalse h σ]
  split
  · next h => simp [eval_of_isTrue h σ]
  · split
    · next h => simp [eval_of_isTrue h σ]
    · rfl

theorem eval_or (a b : Term .bool) : (or a b).eval σ = (a.eval σ || b.eval σ) := by
  unfold or
  split
  · rename_i h
    rcases Bool.or_eq_true_iff.mp h with h | h <;> simp [Term.eval, eval_of_isTrue h σ]
  split
  · next h => simp [eval_of_isFalse h σ]
  · split
    · next h => simp [eval_of_isFalse h σ]
    · rfl

theorem eval_ite {s : Srt} (c : Term .bool) (a b : Term s) :
    (ite c a b).eval σ = cond (c.eval σ) (a.eval σ) (b.eval σ) := by
  unfold ite
  split
  · next h => simp [eval_of_isTrue h σ]
  · split
    · next h => simp [eval_of_isFalse h σ]
    · rfl

/-- What byteAt promises, stated at every sort so that it can be proved by
induction on the term. -/
private def ByteAtSpec (j : BitVec 64) : {s : Srt} → Term s → Prop
  | .arr, t => ∀ r, byteAt j t = some r → r.eval σ = t.eval σ j
  | _, _ => True

private theorem byteAt_spec (j : BitVec 64) {s : Srt} (t : Term s) : ByteAtSpec σ j t := by
  induction t with
  | store a i v iha _ _ =>
    intro r h
    simp only [byteAt] at h
    split at h
    · rename_i i' hi
      simp only [Term.eval, eval_of_value? hi σ]
      by_cases hj : j = i'
      · simp only [hj, if_true, Option.some.injEq] at h ⊢
        rw [h]
      · simp only [hj, if_false] at h ⊢
        exact iha r h
    · exact absurd h (by simp)
  | constArr v _ =>
    intro r h
    simp only [byteAt, Option.some.injEq] at h
    simp [Term.eval, h]
  | arrVar _ => intro r h; simp [byteAt] at h
  | @ite s c a b _ _ _ =>
    cases s with
    | arr => intro r h; simp [byteAt] at h
    | bool | bv _ => trivial
  | _ => trivial

theorem eval_select (a : Term .arr) (i : Term (.bv 64)) :
    (select a i).eval σ = (a.eval σ) (i.eval σ) := by
  unfold select
  split
  · rename_i j hi
    rw [eval_of_value? hi σ]
    cases h : byteAt j a with
    | none => simp [Term.eval, eval_of_value? hi σ]
    | some r => exact byteAt_spec σ j a r h
  · rfl

end Fold

def Term.fold : {s : Srt} → Term s → Term s
  | _, .bvVal v => .bvVal v
  | _, .bvVar w name => .bvVar w name
  | _, .boolVal b => .boolVal b
  | _, .arrVar name => .arrVar name
  | _, .constArr v => .constArr v.fold
  | _, .bin op a b => Fold.map₂ .bvVal op.eval (.bin op) a.fold b.fold
  | _, .neg a => Fold.map (- ·) .neg a.fold
  | _, .extract lo len a => Fold.map (·.extractLsb' lo len) (.extract lo len) a.fold
  | _, .concat h a b => Fold.map₂ .bvVal (fun x y => (x ++ y).cast h) (.concat h) a.fold b.fold
  | _, .zext w' a => Fold.map (·.setWidth w') (.zext w') a.fold
  | _, .sext w' a => Fold.map (·.signExtend w') (.sext w') a.fold
  | _, .rel op a b => Fold.map₂ .boolVal op.eval (.rel op) a.fold b.fold
  | _, .not a => Fold.not a.fold
  | _, .and a b => Fold.and a.fold b.fold
  | _, .or a b => Fold.or a.fold b.fold
  | _, .ite c a b => Fold.ite c.fold a.fold b.fold
  | _, .select a i => Fold.select a.fold i.fold
  | _, .store a i v => .store a.fold i.fold v.fold
  | _, .app f a => .app f a.fold
  | _, .app2 f a b => .app2 f a.fold b.fold
  | _, .app3 f a b c => .app3 f a.fold b.fold c.fold
  | _, .pred f a => .pred f a.fold

theorem eval_fold {s : Srt} (t : Term s) (σ : Assignment) : t.fold.eval σ = t.eval σ := by
  induction t with
  | bvVal _ | bvVar _ _ | boolVal _ | arrVar _ => rfl
  | constArr v ih | app f v ih | pred f v ih => simp only [Term.fold, Term.eval, ih]
  | neg a ih | extract lo len a ih | zext w' a ih | sext w' a ih =>
    rw [Term.fold, Fold.eval_map σ (fun _ => rfl), ih, Term.eval]
  | bin op a b iha ihb | concat h a b iha ihb | rel op a b iha ihb =>
    rw [Term.fold, Fold.eval_map₂ σ (fun _ => rfl) (fun _ _ => rfl), iha, ihb, Term.eval]
  | not a ih => simp only [Term.fold, Fold.eval_not, Term.eval, ih]
  | and a b iha ihb => simp only [Term.fold, Fold.eval_and, Term.eval, iha, ihb]
  | or a b iha ihb => simp only [Term.fold, Fold.eval_or, Term.eval, iha, ihb]
  | ite c a b ihc iha ihb => simp only [Term.fold, Fold.eval_ite, Term.eval, ihc, iha, ihb]
  | select a i iha ihi => simp only [Term.fold, Fold.eval_select, Term.eval, iha, ihi]
  | store a i v iha ihi ihv => simp only [Term.fold, Term.eval, iha, ihi, ihv]
  | app2 f a b iha ihb => simp only [Term.fold, Term.eval, iha, ihb]
  | app3 f a b c iha ihb ihc => simp only [Term.fold, Term.eval, iha, ihb, ihc]

def Eqn.trivial : Eqn → Bool
  | .bv a b => decide (a.fold = b.fold)
  | .arr a b => decide (a.fold = b.fold)

theorem Eqn.holds_of_trivial (σ : Assignment) {e : Eqn} (h : e.trivial = true) :
    e.Holds σ := by
  cases e with
  | bv a b | arr a b =>
    have same := of_decide_eq_true h
    simp only [Eqn.Holds]
    rw [← eval_fold a σ, ← eval_fold b σ, same]

/-- Folds constants, refutes a list that contains the literal false, proves
equations between terms that fold to the same term, and gives up on every other
query. -/
def Solver.folding : Solver where
  simplify := Term.fold
  simplify_eval := eval_fold
  check _ cs := if cs.any Term.isFalse then .unsat else .unknown
  check_unsat _ cs h σ holds := by
    by_cases bad : cs.any Term.isFalse = true
    · obtain ⟨c, hc, hf⟩ := List.any_eq_true.mp bad
      have := holds c hc
      rw [eval_of_isFalse hf σ] at this
      exact Bool.false_ne_true this
    · simp [bad] at h
  prove _ es := if es.all Eqn.trivial then .proved else .unknown
  prove_proved _ es h σ e he := by
    by_cases good : es.all Eqn.trivial = true
    · exact Eqn.holds_of_trivial σ (List.all_eq_true.mp good e he)
    · simp [good] at h
  prove_refuted _ es m h := by
    by_cases good : es.all Eqn.trivial = true <;> simp [good] at h
  survivors _ := []

end Smt
