import BpfEquiv.Isa

/-!
The values that the instruction set prescribes, as integer arithmetic.

An operator is given by a number computed from the unsigned or the signed readings of
its operands; the destination holds that number modulo its width. The operators on bit
vectors compute these numbers.
-/
namespace Isa

open BitVec (ofInt ofInt_natCast ofInt_toInt toNat_and toNat_inj toNat_ofInt)
open Flat (bytesOf leNat)

variable {w : Nat}

/-! Arithmetic. -/

def least (w : Nat) : Int := -2 ^ (w - 1)

/-- The result of an operator. Division by zero gives zero and the remainder by zero the
dividend; signed division truncates, and the least number divided by -1 is itself, with
remainder zero. Shift counts are taken modulo the width. -/
def AluOp.prescribed (a b : BitVec w) : AluOp → Int
  | .add => a.toNat + b.toNat
  | .sub => a.toNat - b.toNat
  | .mul => a.toNat * b.toNat
  | .div => if b.toNat = 0 then 0 else a.toNat / b.toNat
  | .sdiv =>
    if b.toInt = 0 then 0
    else if a.toInt = least w ∧ b.toInt = -1 then least w
    else a.toInt.tdiv b.toInt
  | .or => (a.toNat ||| b.toNat : Nat)
  | .and => (a.toNat &&& b.toNat : Nat)
  | .lsh => a.toNat * 2 ^ (b.toNat % w)
  | .rsh => a.toNat / 2 ^ (b.toNat % w)
  | .mod => if b.toNat = 0 then a.toNat else a.toNat % b.toNat
  | .smod =>
    if b.toInt = 0 then a.toInt
    else if a.toInt = least w ∧ b.toInt = -1 then 0
    else a.toInt.tmod b.toInt
  | .xor => (a.toNat ^^^ b.toNat : Nat)
  | .arsh => a.toInt / 2 ^ (b.toNat % w)

theorem ofInt_toNat (a : BitVec w) : ofInt w a.toNat = a := by
  rw [ofInt_natCast, BitVec.ofNat_toNat, BitVec.setWidth_eq]

theorem eq_ofInt {a : BitVec w} {n : Nat} (h : a.toNat = n % 2 ^ w) :
    a = ofInt w (n : Int) := by
  apply BitVec.eq_of_toNat_eq
  rw [ofInt_natCast, BitVec.toNat_ofNat, h]

theorem eq_ofInt_of_toInt {a : BitVec w} {z : Int} (h : a.toInt = z.bmod (2 ^ w)) :
    a = ofInt w z := by
  apply BitVec.eq_of_toInt_eq
  rw [h, BitVec.toInt_ofInt]

theorem eq_zero_iff_toInt {b : BitVec w} : b = 0 ↔ b.toInt = 0 := by
  rw [← BitVec.toInt_inj]
  simp

theorem eq_zero_iff_toNat {b : BitVec w} : b = 0 ↔ b.toNat = 0 := by
  rw [← toNat_inj]
  simp

/-- The quotient of the least number by -1 wraps around to the least number. -/
theorem sdiv_eq_ofInt (a b : BitVec w) (pos : 0 < w) :
    a.sdiv b = ofInt w
      (if a.toInt = least w ∧ b.toInt = -1 then least w else a.toInt.tdiv b.toInt) := by
  apply eq_ofInt_of_toInt
  rw [BitVec.toInt_sdiv]
  split
  · rename_i overflow
    obtain ⟨dividend, divisor⟩ := overflow
    rw [dividend, divisor, least, Int.tdiv_neg, Int.tdiv_one, neg_neg]
    obtain ⟨v, rfl⟩ : ∃ v, w = v + 1 := ⟨w - 1, by omega⟩
    rw [Int.bmod_eq_bmod_iff_bmod_sub_eq_zero]
    simp only [Nat.add_sub_cancel]
    rw [show (2 : Int) ^ v - -2 ^ v = ((2 ^ (v + 1) : Nat) : Int) by push_cast; ring]
    exact Int.bmod_self
  · rfl

theorem srem_eq_ofInt (a b : BitVec w) :
    a.srem b = ofInt w
      (if a.toInt = least w ∧ b.toInt = -1 then 0 else a.toInt.tmod b.toInt) := by
  have value : a.srem b = ofInt w (a.toInt.tmod b.toInt) := by
    rw [← BitVec.toInt_srem, ofInt_toInt]
  rw [value]
  split
  · next overflow => rw [overflow.2, Int.tmod_neg, Int.tmod_one]
  · rfl

theorem AluOp.eval_eq_prescribed (op : AluOp) (a b : BitVec w) (pos : 0 < w) :
    op.eval a b = ofInt w (op.prescribed a b) := by
  cases op with
  | add => exact eq_ofInt (BitVec.toNat_add a b)
  | sub =>
    simp only [AluOp.eval, AluOp.prescribed, sub_eq_add_neg, BitVec.ofInt_add, BitVec.ofInt_neg,
      ofInt_toNat]
  | mul => exact eq_ofInt (BitVec.toNat_mul a b)
  | div =>
    simp only [AluOp.eval, AluOp.prescribed, eq_zero_iff_toNat]
    split
    · rfl
    · rw [← Int.natCast_ediv, ← BitVec.toNat_udiv, ofInt_toNat]
      rfl
  | sdiv =>
    simp only [AluOp.eval, AluOp.prescribed, eq_zero_iff_toInt]
    split
    · rfl
    · exact sdiv_eq_ofInt a b pos
  | or => simp only [AluOp.eval, AluOp.prescribed, ← BitVec.toNat_or, ofInt_toNat]
  | and => simp only [AluOp.eval, AluOp.prescribed, ← toNat_and, ofInt_toNat]
  | lsh =>
    have shifted := BitVec.toNat_shiftLeft (x := a) (n := b.toNat % w)
    rw [Nat.shiftLeft_eq] at shifted
    have value := eq_ofInt shifted
    push_cast at value
    exact value
  | rsh =>
    have shifted := BitVec.toNat_ushiftRight a (b.toNat % w)
    rw [Nat.shiftRight_eq_div_pow] at shifted
    have value := (ofInt_toNat (a >>> (b.toNat % w))).symm
    rw [shifted] at value
    push_cast at value
    exact value
  | mod =>
    simp only [AluOp.eval, AluOp.prescribed, eq_zero_iff_toNat]
    split
    · exact (ofInt_toNat a).symm
    · rw [← Int.natCast_emod, ← BitVec.toNat_umod, ofInt_toNat]
      rfl
  | smod =>
    simp only [AluOp.eval, AluOp.prescribed, eq_zero_iff_toInt]
    split
    · exact BitVec.ofInt_toInt.symm
    · exact srem_eq_ofInt a b
  | xor => simp only [AluOp.eval, AluOp.prescribed, ← BitVec.toNat_xor, ofInt_toNat]
  | arsh =>
    have shifted := BitVec.toInt_sshiftRight (x := a) (n := b.toNat % w)
    rw [Int.shiftRight_eq_div_pow] at shifted
    have value := (ofInt_toInt (x := a.sshiftRight (b.toNat % w))).symm
    rw [shifted] at value
    push_cast at value
    exact value

/-! Sign extension. -/

/-- The signed reading of the low bits of a value. -/
def signedLow (bits : Nat) (v : BitVec 64) : Int := Int.bmod v.toNat (2 ^ bits)

theorem extendSign_eq (bits : Nat) (v : BitVec 64) :
    extendSign bits v = ofInt 64 (signedLow bits v) := by
  rw [extendSign, BitVec.signExtend, BitVec.toInt_setWidth]
  rfl

theorem setWidth_ofInt (z : Int) : (ofInt 64 z).setWidth 32 = ofInt 32 z := by
  apply BitVec.eq_of_toNat_eq
  rw [BitVec.toNat_setWidth, toNat_ofInt, toNat_ofInt]
  push_cast
  omega

/-! Byte order. -/

def lowBytes (n : Nat) (v : BitVec 64) : List Nat :=
  (List.range n).map fun k => v.toNat / 256 ^ k % 256

/-- The number with the low bytes of a value in reverse order. -/
def reversed (n : Nat) (v : BitVec 64) : Nat := Nat.ofDigits 256 (lowBytes n v).reverse

theorem leNat_eq_ofDigits (n : Nat) (b : Nat → BitVec 8) :
    leNat n b = Nat.ofDigits 256 ((List.range n).map fun k => (b k).toNat) := by
  induction n generalizing b with
  | zero => rfl
  | succ n ih =>
    rw [leNat, ih, List.range_succ_eq_map, List.map_cons, List.map_map, Nat.ofDigits_cons]
    rfl

theorem toNat_bytesOf (v : BitVec 64) (k : Nat) :
    (bytesOf v k).toNat = v.toNat / 256 ^ k % 256 := by
  rw [bytesOf, BitVec.extractLsb'_toNat, Nat.shiftRight_eq_div_pow, Nat.pow_mul]

theorem value_reversed (n : Nat) (v : BitVec 64) :
    Flat.value n (fun k => bytesOf v (n - 1 - k)) = ofInt 64 (reversed n v) := by
  have order : (List.range n).map (fun k => (bytesOf v (n - 1 - k)).toNat) =
      (lowBytes n v).reverse := by
    rw [lowBytes, ← List.map_reverse, List.range_eq_range', List.reverse_range', List.map_map,
      ← List.range_eq_range']
    apply List.map_congr_left
    intro k _
    simp only [Function.comp_apply, toNat_bytesOf, Nat.zero_add]
  rw [Flat.value, leNat_eq_ofDigits, order, ofInt_natCast, reversed]

/-! Conditions. -/

def Cond.prescribed (a b : BitVec w) : Cond → Bool
  | .eq => a.toNat = b.toNat
  | .gt => a.toNat > b.toNat
  | .ge => a.toNat ≥ b.toNat
  | .set => a.toNat &&& b.toNat ≠ 0
  | .ne => a.toNat ≠ b.toNat
  | .sgt => a.toInt > b.toInt
  | .sge => a.toInt ≥ b.toInt
  | .lt => a.toNat < b.toNat
  | .le => a.toNat ≤ b.toNat
  | .slt => a.toInt < b.toInt
  | .sle => a.toInt ≤ b.toInt

theorem Cond.eval_eq_prescribed (c : Cond) (a b : BitVec w) : c.eval a b = c.prescribed a b := by
  cases c with
  | eq => simp only [Cond.eval, Cond.prescribed, toNat_inj, beq_eq_decide]
  | ne =>
    simp only [Cond.eval, Cond.prescribed, ne_eq, toNat_inj, bne, beq_eq_decide,
      decide_not]
  | set =>
    simp only [Cond.eval, Cond.prescribed, ← toNat_and, ne_eq, ← eq_zero_iff_toNat, bne,
      beq_eq_decide, decide_not]
  | gt | ge | lt | le | sgt | sge | slt | sle => rfl

/-! Atomic operations. -/

def AtomicOp.aluOp : AtomicOp → AluOp
  | .add => .add
  | .or => .or
  | .and => .and
  | .xor => .xor

/-- A read-modify-write operation: an operator, with or without the old value returned,
an exchange, and an exchange under the condition that the old value is that of r0. -/
inductive Rmw where
  | op (o : AtomicOp) (fetch : Bool)
  | xchg
  | cmpxchg
  deriving DecidableEq

def rmwOf (imm : Int) : Option Rmw :=
  if imm = 0xE1 then some .xchg
  else if imm = 0xF1 then some .cmpxchg
  else (atomicOp imm).map fun o => .op o (imm % 2 = 1)

/-- What memory holds after the operation, at the width of the access. -/
def Rmw.stored (old src r0 : BitVec w) : Rmw → BitVec w
  | .op o _ => ofInt w (o.aluOp.prescribed old src)
  | .xchg => src
  | .cmpxchg => if old.toNat = r0.toNat then src else old

/-- The register that receives the old value. -/
def Rmw.fetches (src : Nat) : Rmw → Option Nat
  | .op _ fetch => if fetch then some src else none
  | .xchg => some src
  | .cmpxchg => some 0

theorem AtomicOp.low_eval (o : AtomicOp) (a b : BitVec 64) (narrow : w ≤ 64) (pos : 0 < w) :
    (o.eval a b).setWidth w =
      ofInt w (o.aluOp.prescribed (a.setWidth w) (b.setWidth w)) := by
  rw [← AluOp.eval_eq_prescribed _ _ _ pos]
  cases o with
  | add => exact BitVec.setWidth_add a b narrow
  | or => exact BitVec.setWidth_or
  | and => exact BitVec.setWidth_and
  | xor => exact BitVec.setWidth_xor

end Isa
