import BpfEquiv.IsaValue
import BpfEquiv.StepData

/-!
The executor computes on scalars what the instruction set prescribes.

On scalar operands arithmetic, byte swaps and conditions never bail and leave the
state alone. A read-modify-write operation reads, stores the prescribed value and
returns the old one; it bails only where the access itself does.
-/
namespace BpfEquiv
open Smt Hoare

variable {what : String} {s : St} {σ : Assignment}

/-! Arithmetic. -/

theorem alu_exact {code : Nat} {off : Int} {op : Isa.AluOp} (h : Isa.aluOp code off = some op)
    (is64 : Bool) (a b : Term (.bv 64)) :
    ∃ r, Returns (alu code is64 (.data a) (.data b) off what) s (.data r) s ∧
      r.eval σ = Isa.onWidth is64 (fun x y => .ofInt _ (op.prescribed x y))
        (a.eval σ) (b.eval σ) := by
  have notMov : code ≠ 11 := by
    rintro rfl
    simp [Isa.aluOp, Isa.plainOp] at h
  simp only [alu, if_neg notMov, aluScalar, needData, pure_bind]
  cases is64 with
  | true =>
    obtain ⟨r, found, value⟩ := aluData_sound (σ := σ) (.inr rfl) h a b
    refine ⟨r, ?_, ?_⟩
    · simp only [if_true, found, returns_pure, and_self]
    · rw [value, Isa.AluOp.eval_eq_prescribed _ _ _ (by omega)]
      rfl
  | false =>
    obtain ⟨r, found, value⟩ := aluData_sound (σ := σ) (.inl rfl) h (lo32 a) (lo32 b)
    refine ⟨zext64 r, ?_, ?_⟩
    · simp only [Bool.false_eq_true, if_false, found, Option.map_some, returns_pure, and_self]
    · rw [eval_lo32, eval_lo32, Isa.AluOp.eval_eq_prescribed _ _ _ (by omega)] at value
      exact congrArg (BitVec.setWidth 64) value

theorem neg_eq_ofInt {w : Nat} (a : BitVec w) : -a = BitVec.ofInt w (-a.toInt) := by
  rw [BitVec.ofInt_neg, BitVec.ofInt_toInt]

theorem movsx_exact (is64 : Bool) {bits : Nat} (width : bits = 8 ∨ bits = 16 ∨ bits = 32)
    (a : Val) (b : Term (.bv 64)) :
    ∃ r, Returns (alu 11 is64 a (.data b) bits what) s (.data r) s ∧
      r.eval σ = if is64 then .ofInt 64 (Isa.signedLow bits (b.eval σ))
        else (BitVec.ofInt 32 (Isa.signedLow bits (b.eval σ))).setWidth 64 := by
  have coded : (bits : Int) = 8 ∨ (bits : Int) = 16 ∨ (bits : Int) = 32 := by omega
  have notCast : ¬ (is64 = true ∧ (bits : Int) = 1) := by omega
  have extended : (Term.sext 64 (.extract 0 bits b)).eval σ =
      BitVec.ofInt 64 (Isa.signedLow bits (b.eval σ)) := by
    rw [← Isa.extendSign_eq, Isa.extendSign, ← eval_extract_low]
    rfl
  simp only [alu, if_true, aluMov, if_neg notCast, if_pos coded, Int.toNat_natCast]
  cases is64 with
  | true => exact ⟨_, returns_pure.mpr ⟨rfl, rfl⟩, extended⟩
  | false =>
    refine ⟨_, returns_pure.mpr ⟨rfl, rfl⟩, ?_⟩
    change ((lo32 (.sext 64 (.extract 0 bits b))).eval σ).setWidth 64 = _
    rw [eval_lo32, extended, Isa.setWidth_ofInt]
    rfl

/-! Byte order. -/

theorem endianOp_exact (op : Nat) (is64 : Bool) {size : Size} (wide : size ≠ .b)
    (v : Term (.bv 64)) :
    ∃ r, Returns (endianOp op is64 v (8 * size.bytes : Nat) what) s r s ∧
      r.eval σ = .ofInt 64 (if is64 || op &&& 8 != 0 then Isa.reversed size.bytes (v.eval σ)
        else (v.eval σ).toNat % 2 ^ (8 * size.bytes) : Nat) := by
  have done : ∃ r, Returns (endianOp op is64 v (8 * size.bytes : Nat) what) s r s := by
    cases size with
    | b => exact absurd rfl wide
    | h | w | dw => exact ⟨_, returns_pure.mpr ⟨rfl, rfl⟩⟩
  obtain ⟨r, done⟩ := done
  obtain ⟨_, value⟩ := endianOp_sound (σ := σ) done
  refine ⟨r, done, ?_⟩
  rw [value, show ((8 * size.bytes : Nat) : Int).toNat / 8 = size.bytes by omega]
  split
  · exact Isa.value_reversed _ _
  · rw [← eval_low, eval_extract_low]
    apply Isa.eq_ofInt
    rw [BitVec.toNat_setWidth, BitVec.toNat_setWidth]

/-! Conditions. -/

theorem cond_exact {code : Nat} {c : Isa.Cond} (h : Isa.condOf code = some c) (is32 : Bool)
    (a b : Term (.bv 64)) :
    ∃ r, Returns (cond code is32 (.data a) (.data b) what) s r s ∧
      r.eval σ = if is32 then c.prescribed ((a.eval σ).setWidth 32) ((b.eval σ).setWidth 32)
        else c.prescribed (a.eval σ) (b.eval σ) := by
  cases is32 with
  | true =>
    obtain ⟨r, found, value⟩ := condData_sound (σ := σ) h (lo32 a) (lo32 b)
    refine ⟨r, ?_, ?_⟩
    · simp only [cond, condScalar, if_true, found, returns_pure, and_self]
    · rw [value, eval_lo32, eval_lo32, Isa.Cond.eval_eq_prescribed]
      rfl
  | false =>
    obtain ⟨r, found, value⟩ := condData_sound (σ := σ) h a b
    refine ⟨r, ?_, ?_⟩
    · simp only [cond, condScalar, Bool.false_eq_true, if_false, found, returns_pure, and_self]
    · rw [value, Isa.Cond.eval_eq_prescribed]
      rfl

/-! Atomic operations. -/

theorem load_zeroExtended {cfg : Config} {p : Val} {size : Size} {old : Term (.bv 64)} {s' : St}
    (h : Returns (load cfg p size) s (.data old) s') :
    old.eval σ = ((old.eval σ).setWidth (8 * size.bytes)).setWidth 64 := by
  obtain ⟨_, _, arr, _, rfl, _⟩ := load_cases h
  rw [eval_loadTerm]
  apply BitVec.eq_of_toNat_eq
  have small : (Flat.read (arr.eval σ) (p.target.2.eval σ) size.bytes).toNat <
      2 ^ (8 * size.bytes) := by
    rw [Flat.read, Flat.value, BitVec.toNat_ofNat, Nat.pow_mul]
    exact Nat.lt_of_le_of_lt (Nat.mod_le _ _) (Flat.leNat_lt _ _)
  rw [BitVec.toNat_setWidth, BitVec.toNat_setWidth, Nat.mod_eq_of_lt small, Nat.mod_eq_of_lt]
  exact BitVec.isLt _

/-- The operands of a read-modify-write operation are scalars: the source register, the
word it reads and, for a comparison, r0. -/
structure ScalarAccess (cfg : Config) (ins : Insn) (regs : Regs) (form : Isa.Rmw) (s : St)
    (srcv old r0 : Term (.bv 64)) (s₁ : St) : Prop where
  narrow : sizeOfOp ins.op = .w ∨ sizeOfOp ins.op = .dw
  source : regs ins.src = .data srcv
  loaded : Returns (load cfg (addrAdd (regs ins.dst) ins.off) (sizeOfOp ins.op)) s (.data old) s₁
  compared : form = .cmpxchg → regs 0 = .data r0

def fetched (regs : Regs) (old : Term (.bv 64)) : Option Nat → Regs
  | none => regs
  | some r => regs.set r (.data old)

/-- What is left of a read-modify-write operation once its operands are read. -/
theorem atomic_run (what : String) {cfg : Config} {ins : Insn} {regs : Regs} {form : Isa.Rmw}
    {srcv old r0 : Term (.bv 64)} {s₁ : St} (decoded : Isa.rmwOf ins.imm = some form)
    (access : ScalarAccess cfg ins regs form s srcv old r0 s₁) :
    (atomic cfg ins regs what).run s =
      (if ins.imm = 0xF1 then cmpxchg cfg (addrAdd (regs ins.dst) ins.off) (sizeOfOp ins.op)
          srcv old regs
        else if ins.imm = 0xE1 then do
          store cfg (addrAdd (regs ins.dst) ins.off) (sizeOfOp ins.op) (.data srcv)
          pure (regs.set ins.src (.data old))
        else
          match atomicOp ins.imm with
          | none => bail s!"atomic imm {pyHex ins.imm} in {what}"
          | some op => do
            store cfg (addrAdd (regs ins.dst) ins.off) (sizeOfOp ins.op) (.data (.bin op old srcv))
            pure (if ins.imm % 2 = 1 then regs.set ins.src (.data old) else regs) : M Regs).run
        s₁ := by
  have notOrdered : ¬ ins.imm = 0x100 ∧ ¬ ins.imm = 0x110 := by
    constructor <;>
    · intro ordered
      rw [ordered] at decoded
      cases decoded
  have sized : ¬ (sizeOfOp ins.op ≠ .w ∧ sizeOfOp ins.op ≠ .dw) :=
    fun neither => access.narrow.elim neither.1 neither.2
  have loaded := access.loaded
  rw [Returns] at loaded
  rw [atomic, if_neg notOrdered.1, if_neg notOrdered.2, if_neg sized, access.source]
  simp only [needData, pure_bind, StateT.run_bind, loaded]
  rfl

theorem atomic_exact {cfg : Config} {ins : Insn} {regs : Regs} {form : Isa.Rmw}
    {srcv old r0 : Term (.bv 64)} {s₁ : St} (decoded : Isa.rmwOf ins.imm = some form)
    (access : ScalarAccess cfg ins regs form s srcv old r0 s₁) :
    ∃ new, (atomic cfg ins regs what).run s =
        (do store cfg (addrAdd (regs ins.dst) ins.off) (sizeOfOp ins.op) (.data new)
            pure (fetched regs old (form.fetches ins.src)) : M Regs).run s₁ ∧
      (new.eval σ).setWidth (8 * (sizeOfOp ins.op).bytes) =
        form.stored ((old.eval σ).setWidth _) ((srcv.eval σ).setWidth _)
          ((r0.eval σ).setWidth _) ∧
      old.eval σ = ((old.eval σ).setWidth (8 * (sizeOfOp ins.op).bytes)).setWidth 64 := by
  have ran := atomic_run what decoded access
  have zeroed := load_zeroExtended (σ := σ) access.loaded
  simp only [Isa.rmwOf] at decoded
  split at decoded
  · rename_i exchange
    cases decoded
    rw [exchange] at ran
    exact ⟨srcv, ran, rfl, zeroed⟩
  rename_i notExchange
  split at decoded
  · rename_i compare
    cases decoded
    rw [if_pos compare] at ran
    simp only [cmpxchg, access.compared rfl] at ran
    refine ⟨_, ran, ?_, zeroed⟩
    rw [eval_exchange access.narrow, apply_ite (BitVec.setWidth _)]
    simp only [Isa.Rmw.stored, BitVec.toNat_inj]
  · rename_i notCompare
    obtain ⟨o, found, rfl⟩ := Option.map_eq_some_iff.mp decoded
    obtain ⟨op, here, same⟩ := atomicOp_sound found
    rw [if_neg notCompare, if_neg notExchange, here] at ran
    refine ⟨.bin op old srcv, ?_, ?_, zeroed⟩
    · rw [ran]
      by_cases fetch : ins.imm % 2 = 1 <;>
        simp only [fetch, Isa.Rmw.fetches, decide_true, decide_false, if_true, if_false,
          Bool.false_eq_true, fetched]
    change (op.eval (old.eval σ) (srcv.eval σ)).setWidth _ = _
    rw [same]
    exact Isa.AtomicOp.low_eval o _ _ (by cases sizeOfOp ins.op <;> decide)
      (by cases sizeOfOp ins.op <;> decide)

/-! All data operations. -/

/-- On scalars every operation gives the value the instruction set prescribes. Results of
the 32-bit class are those of the low halves, zero-extended. -/
structure DataExact (what : String) (s : St) (σ : Assignment) : Prop where
  immediate (regs : Regs) (ins : Insn) (is64 : Bool) : ins.op / 8 % 2 = 0 →
    ∃ b, operand regs ins is64 = .data b ∧
      b.eval σ = if is64 then .ofInt 64 ins.imm else (BitVec.ofInt 32 ins.imm).setWidth 64
  arith {code : Nat} {off : Int} {op : Isa.AluOp} (is64 : Bool) (a b : Term (.bv 64)) :
    Isa.aluOp code off = some op →
    ∃ r, Returns (alu code is64 (.data a) (.data b) off what) s (.data r) s ∧
      r.eval σ = Isa.onWidth is64 (fun x y => .ofInt _ (op.prescribed x y)) (a.eval σ) (b.eval σ)
  neg (is64 : Bool) (off : Int) (a b : Term (.bv 64)) :
    ∃ r, Returns (alu 8 is64 (.data a) (.data b) off what) s (.data r) s ∧
      r.eval σ = Isa.onWidth is64 (fun x _ => .ofInt _ (-x.toInt)) (a.eval σ) 0
  mov (is64 : Bool) (a : Val) (b : Term (.bv 64)) :
    ∃ r, Returns (alu 11 is64 a (.data b) 0 what) s (.data r) s ∧
      r.eval σ = Isa.onWidth is64 (fun _ y => y) 0 (b.eval σ)
  movsx (is64 : Bool) {bits : Nat} (a : Val) (b : Term (.bv 64)) :
    bits = 8 ∨ bits = 16 ∨ bits = 32 →
    ∃ r, Returns (alu 11 is64 a (.data b) bits what) s (.data r) s ∧
      r.eval σ = if is64 then .ofInt 64 (Isa.signedLow bits (b.eval σ))
        else (BitVec.ofInt 32 (Isa.signedLow bits (b.eval σ))).setWidth 64
  endian (op : Nat) (is64 : Bool) {size : Size} (v : Term (.bv 64)) : size ≠ .b →
    ∃ r, Returns (endianOp op is64 v (8 * size.bytes : Nat) what) s r s ∧
      r.eval σ = .ofInt 64 (if is64 || op &&& 8 != 0 then Isa.reversed size.bytes (v.eval σ)
        else (v.eval σ).toNat % 2 ^ (8 * size.bytes) : Nat)
  cond {code : Nat} {c : Isa.Cond} (is32 : Bool) (a b : Term (.bv 64)) :
    Isa.condOf code = some c →
    ∃ r, Returns (cond code is32 (.data a) (.data b) what) s r s ∧
      r.eval σ = if is32 then c.prescribed ((a.eval σ).setWidth 32) ((b.eval σ).setWidth 32)
        else c.prescribed (a.eval σ) (b.eval σ)
  atomic {cfg : Config} {ins : Insn} {regs : Regs} {form : Isa.Rmw}
    {srcv old r0 : Term (.bv 64)} {s₁ : St} :
    Isa.rmwOf ins.imm = some form → ScalarAccess cfg ins regs form s srcv old r0 s₁ →
    ∃ new, (atomic cfg ins regs what).run s =
        (do store cfg (addrAdd (regs ins.dst) ins.off) (sizeOfOp ins.op) (.data new)
            pure (fetched regs old (form.fetches ins.src)) : M Regs).run s₁ ∧
      (new.eval σ).setWidth (8 * (sizeOfOp ins.op).bytes) =
        form.stored ((old.eval σ).setWidth _) ((srcv.eval σ).setWidth _)
          ((r0.eval σ).setWidth _) ∧
      old.eval σ = ((old.eval σ).setWidth (8 * (sizeOfOp ins.op).bytes)).setWidth 64

theorem data_semantics_exact (what : String) (s : St) (σ : Assignment) : DataExact what s σ where
  immediate regs ins is64 h := by
    have notRegister : ¬ ins.op / 8 % 2 = 1 := by omega
    rw [operand, if_neg notRegister]
    cases is64 <;> exact ⟨_, rfl, rfl⟩
  arith is64 a b h := alu_exact h is64 a b
  neg is64 off a b := by
    cases is64 with
    | true => exact ⟨-a, returns_pure.mpr ⟨rfl, rfl⟩, neg_eq_ofInt _⟩
    | false =>
      refine ⟨zext64 (-lo32 a), returns_pure.mpr ⟨rfl, rfl⟩, ?_⟩
      change (-((lo32 a).eval σ)).setWidth 64 = _
      rw [eval_lo32, neg_eq_ofInt]
      rfl
  mov is64 a b := by
    cases is64 with
    | true => exact ⟨b, returns_pure.mpr ⟨rfl, rfl⟩, rfl⟩
    | false =>
      refine ⟨zext64 (lo32 b), returns_pure.mpr ⟨rfl, rfl⟩, ?_⟩
      change ((lo32 b).eval σ).setWidth 64 = _
      rw [eval_lo32]
      rfl
  movsx is64 _ a b width := movsx_exact is64 width a b
  endian op is64 _ v wide := endianOp_exact op is64 wide v
  cond is32 a b h := cond_exact h is32 a b
  atomic decoded access := atomic_exact decoded access

end BpfEquiv
