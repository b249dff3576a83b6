import Mathlib

/-!
Quantifier-free terms over bit-vectors, booleans and byte arrays.

The array sort is the one fixed instance Array (BitVec 64) (BitVec 8). Uninterpreted
functions are identified by their name together with their signature, as in an
SMT solver. Division follows the SMT-LIB convention, so every operator is total.
A term is syntax: two terms with the same meaning need not be equal, and only a
literal is a value.
-/
namespace Smt

inductive Srt where
  | bool
  | bv (w : Nat)
  | arr
  deriving DecidableEq, Repr

@[reducible] def Srt.Val : Srt → Type
  | .bool => Bool
  | .bv w => BitVec w
  | .arr => BitVec 64 → BitVec 8

inductive BvOp where
  | add | sub | mul | udiv | sdiv | urem | srem
  | and | or | xor | shl | lshr | ashr
  deriving DecidableEq, Repr

def BvOp.eval {w : Nat} : BvOp → BitVec w → BitVec w → BitVec w
  | .add, a, b => a + b
  | .sub, a, b => a - b
  | .mul, a, b => a * b
  | .udiv, a, b => a.smtUDiv b
  | .sdiv, a, b => a.smtSDiv b
  | .urem, a, b => a.umod b
  | .srem, a, b => a.srem b
  | .and, a, b => a &&& b
  | .or, a, b => a ||| b
  | .xor, a, b => a ^^^ b
  | .shl, a, b => a <<< b.toNat
  | .lshr, a, b => a >>> b.toNat
  | .ashr, a, b => a.sshiftRight b.toNat

inductive BvRel where
  | eq | ne | ult | ule | ugt | uge | slt | sle | sgt | sge
  deriving DecidableEq, Repr

def BvRel.eval {w : Nat} : BvRel → BitVec w → BitVec w → Bool
  | .eq, a, b => a == b
  | .ne, a, b => a != b
  | .ult, a, b => a.ult b
  | .ule, a, b => a.ule b
  | .ugt, a, b => b.ult a
  | .uge, a, b => b.ule a
  | .slt, a, b => a.slt b
  | .sle, a, b => a.sle b
  | .sgt, a, b => b.slt a
  | .sge, a, b => b.sle a

inductive Term : Srt → Type where
  | bvVal {w : Nat} (v : BitVec w) : Term (.bv w)
  | bvVar (w : Nat) (name : String) : Term (.bv w)
  | boolVal (b : Bool) : Term .bool
  | arrVar (name : String) : Term .arr
  | constArr (v : Term (.bv 8)) : Term .arr
  | bin {w : Nat} (op : BvOp) (a b : Term (.bv w)) : Term (.bv w)
  | neg {w : Nat} (a : Term (.bv w)) : Term (.bv w)
  | extract {w : Nat} (lo len : Nat) (a : Term (.bv w)) : Term (.bv len)
  | concat {m n w : Nat} (h : m + n = w) (a : Term (.bv m)) (b : Term (.bv n)) :
      Term (.bv w)
  | zext {w : Nat} (w' : Nat) (a : Term (.bv w)) : Term (.bv w')
  | sext {w : Nat} (w' : Nat) (a : Term (.bv w)) : Term (.bv w')
  | rel {w : Nat} (op : BvRel) (a b : Term (.bv w)) : Term .bool
  | not (a : Term .bool) : Term .bool
  | and (a b : Term .bool) : Term .bool
  | or (a b : Term .bool) : Term .bool
  | ite {s : Srt} (c : Term .bool) (a b : Term s) : Term s
  | select (a : Term .arr) (i : Term (.bv 64)) : Term (.bv 8)
  | store (a : Term .arr) (i : Term (.bv 64)) (v : Term (.bv 8)) : Term .arr
  | app {m w : Nat} (f : String) (a : Term (.bv m)) : Term (.bv w)
  | app2 {w : Nat} (f : String) (a b : Term (.bv 64)) : Term (.bv w)
  | app3 {w : Nat} (f : String) (a b c : Term (.bv 64)) : Term (.bv w)
  | pred (f : String) (a : Term (.bv 64)) : Term .bool
  deriving DecidableEq

/-- An interpretation of every variable and every uninterpreted function. -/
structure Assignment where
  bvs : String → (w : Nat) → BitVec w
  arrs : String → BitVec 64 → BitVec 8
  fn : String → (m w : Nat) → BitVec m → BitVec w
  fn2 : String → (w : Nat) → BitVec 64 → BitVec 64 → BitVec w
  fn3 : String → (w : Nat) → BitVec 64 → BitVec 64 → BitVec 64 → BitVec w
  preds : String → BitVec 64 → Bool

instance : Inhabited Assignment :=
  ⟨⟨fun _ _ => 0, fun _ _ => 0, fun _ _ _ _ => 0, fun _ _ _ _ => 0, fun _ _ _ _ _ => 0,
    fun _ _ => false⟩⟩

def Term.eval (σ : Assignment) : {s : Srt} → Term s → s.Val
  | _, .bvVal v => v
  | _, .bvVar w name => σ.bvs name w
  | _, .boolVal b => b
  | _, .arrVar name => σ.arrs name
  | _, .constArr v => fun _ => v.eval σ
  | _, .bin op a b => op.eval (a.eval σ) (b.eval σ)
  | _, .neg a => -(a.eval σ)
  | _, .extract lo len a => BitVec.extractLsb' lo len (a.eval σ)
  | _, .concat h a b => ((a.eval σ) ++ (b.eval σ)).cast h
  | _, .zext w' a => BitVec.setWidth w' (a.eval σ)
  | _, .sext w' a => BitVec.signExtend w' (a.eval σ)
  | _, .rel op a b => op.eval (a.eval σ) (b.eval σ)
  | _, .not a => !(a.eval σ)
  | _, .and a b => (a.eval σ) && (b.eval σ)
  | _, .or a b => (a.eval σ) || (b.eval σ)
  | _, .ite c a b => cond (c.eval σ) (a.eval σ) (b.eval σ)
  | _, .select a i => (a.eval σ) (i.eval σ)
  | _, .store a i v => fun j => if j = i.eval σ then v.eval σ else (a.eval σ) j
  | _, .app (m := m) (w := w) f a => σ.fn f m w (a.eval σ)
  | _, .app2 (w := w) f a b => σ.fn2 f w (a.eval σ) (b.eval σ)
  | _, .app3 (w := w) f a b c => σ.fn3 f w (a.eval σ) (b.eval σ) (c.eval σ)
  | _, .pred f a => σ.preds f (a.eval σ)

section Operators
variable {w : Nat}

instance : Add (Term (.bv w)) := ⟨.bin .add⟩
instance : Sub (Term (.bv w)) := ⟨.bin .sub⟩
instance : Mul (Term (.bv w)) := ⟨.bin .mul⟩
instance : Neg (Term (.bv w)) := ⟨.neg⟩
instance : AndOp (Term (.bv w)) := ⟨.bin .and⟩
instance : OrOp (Term (.bv w)) := ⟨.bin .or⟩
instance : XorOp (Term (.bv w)) := ⟨.bin .xor⟩

variable (σ : Assignment) (a b : Term (.bv w))

@[simp] theorem eval_add : (a + b).eval σ = a.eval σ + b.eval σ := rfl
@[simp] theorem eval_sub : (a - b).eval σ = a.eval σ - b.eval σ := rfl
@[simp] theorem eval_mul : (a * b).eval σ = a.eval σ * b.eval σ := rfl
@[simp] theorem eval_neg : (-a).eval σ = -(a.eval σ) := rfl
@[simp] theorem eval_and : (a &&& b).eval σ = a.eval σ &&& b.eval σ := rfl
@[simp] theorem eval_or : (a ||| b).eval σ = a.eval σ ||| b.eval σ := rfl
@[simp] theorem eval_xor : (a ^^^ b).eval σ = a.eval σ ^^^ b.eval σ := rfl

end Operators

def conj : List (Term .bool) → Term .bool
  | [] => .boolVal true
  | [c] => c
  | c :: cs => .and c (conj cs)

def Holds (σ : Assignment) (cs : List (Term .bool)) : Prop :=
  ∀ c ∈ cs, c.eval σ = true

instance (σ : Assignment) (cs : List (Term .bool)) : Decidable (Holds σ cs) :=
  inferInstanceAs (Decidable (∀ c ∈ cs, c.eval σ = true))

@[simp] theorem holds_nil (σ : Assignment) : Holds σ [] := by
  simp [Holds]

theorem holds_append (σ : Assignment) (cs ds : List (Term .bool)) :
    Holds σ (cs ++ ds) ↔ Holds σ cs ∧ Holds σ ds := by
  simp only [Holds, List.mem_append]
  exact ⟨fun h => ⟨fun c hc => h c (.inl hc), fun c hc => h c (.inr hc)⟩,
    fun h c hc => hc.elim (h.1 c) (h.2 c)⟩

theorem holds_snoc (σ : Assignment) (cs : List (Term .bool)) (c : Term .bool) :
    Holds σ (cs ++ [c]) ↔ Holds σ cs ∧ c.eval σ = true := by
  rw [holds_append]
  simp [Holds]

theorem eval_conj (σ : Assignment) (cs : List (Term .bool)) :
    (conj cs).eval σ = decide (Holds σ cs) := by
  induction cs with
  | nil => simp [conj, Term.eval]
  | cons c cs ih =>
    cases cs with
    | nil => simp [conj, Holds]
    | cons d ds =>
      simp only [conj, Term.eval] at ih ⊢
      rw [ih]
      simp [Holds, Bool.decide_and]

end Smt
