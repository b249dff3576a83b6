import BpfEquiv.Alu
import BpfEquiv.Isa
import BpfEquiv.Concrete

/-!
The operators of the executor against those of the instruction set.

Arithmetic, byte swaps and jump conditions on values, under a layout that gives
every pointer its address. Arithmetic on pointers is arithmetic on addresses; of the
comparisons only those that do not depend on where a region lies are decided right.
-/
namespace BpfEquiv
open Smt Hoare BitVec

variable {w code : Nat} {off : Int} {op : Isa.AluOp} {v dst src : Val} {what : String} {is64 : Bool}
  {c : Isa.Cond}

variable {L : Layout} {σ : Assignment} {s s' : St}

/-! Operators. -/

theorem eval_shift_count (pow : w = 32 ∨ w = 64) (b : Term (.bv w)) :
    ((b &&& .bvVal (BitVec.ofNat w (w - 1))).eval σ).toNat = (b.eval σ).toNat % w := by
  rcases pow with rfl | rfl
  · simp only [eval_and, Term.eval, toNat_and, toNat_ofNat]
    exact Nat.and_two_pow_sub_one_eq_mod _ 5
  · simp only [eval_and, Term.eval, toNat_and, toNat_ofNat]
    exact Nat.and_two_pow_sub_one_eq_mod _ 6

theorem eval_ite_eq {v : Nat} (a b : Term (.bv v)) (x y : Term (.bv w)) :
    (Term.ite (.rel .eq a b) x y).eval σ =
      if a.eval σ = b.eval σ then x.eval σ else y.eval σ := by
  simp only [Term.eval, BvRel.eval]
  by_cases same : a.eval σ = b.eval σ
  · rw [if_pos same, beq_iff_eq.mpr same]
    rfl
  · rw [if_neg same, beq_false_of_ne same]
    rfl

theorem eval_guarded (b z q : Term (.bv w)) :
    (Term.ite (.rel .eq b (.bvVal 0)) z q).eval σ =
      if b.eval σ = 0 then z.eval σ else q.eval σ :=
  eval_ite_eq b (.bvVal 0) z q

/-- Away from zero the solver's signed division is the truncating one. -/
theorem smtSDiv_of_ne {a b : BitVec w} (h : b ≠ 0) : a.smtSDiv b = a.sdiv b := by
  have nonzero : -b ≠ 0 := fun zero => h (by simpa using zero)
  simp only [BitVec.smtSDiv, BitVec.sdiv, BitVec.smtUDiv]
  split <;> simp_all

/-- Every arithmetic code on scalars is the operator of the instruction set. -/
theorem aluData_sound (pow : w = 32 ∨ w = 64)
    (h : Isa.aluOp code off = some op) (a b : Term (.bv w)) :
    ∃ r, aluData code off a b = some r ∧ r.eval σ = op.eval (a.eval σ) (b.eval σ) := by
  simp only [Isa.aluOp] at h
  split at h
  · rename_i isDiv
    subst isDiv
    refine ⟨_, rfl, ?_⟩
    rw [eval_guarded]
    split at h
    · rename_i unsigned
      cases h
      subst unsigned
      simp only [Isa.AluOp.eval, Term.eval]
      split
      · rfl
      · next nonzero => exact if_neg nonzero
    · split at h
      · rename_i signed
        cases h
        simp only [Isa.AluOp.eval, signed, if_true, Term.eval, BvOp.eval]
        split
        · rfl
        · next nonzero => exact smtSDiv_of_ne nonzero
      · cases h
  · split at h
    · rename_i isMod
      subst isMod
      refine ⟨_, rfl, ?_⟩
      rw [eval_guarded]
      split at h
      · rename_i unsigned
        cases h
        subst unsigned
        rfl
      split at h
      · rename_i signed
        cases h
        simp only [Isa.AluOp.eval, signed, if_true, Term.eval, BvOp.eval]
      · cases h
    · split at h
      · have count := eval_shift_count (σ := σ) pow b
        unfold Isa.plainOp at h
        split at h <;> cases h <;> refine ⟨_, rfl, ?_⟩
        all_goals simp only [Isa.AluOp.eval, eval_add, eval_sub, eval_mul, eval_or, eval_xor]
        all_goals try rw [eval_and]
        · simp only [Term.eval, BvOp.eval, count]
        · simp only [Term.eval, BvOp.eval, count]
        · simp only [Term.eval, BvOp.eval, count]
      · cases h

/-! Arithmetic on values. -/

theorem eval_extract_low (n : Nat) (a : Term (.bv w)) :
    (Term.extract 0 n a).eval σ = (a.eval σ).setWidth n := by
  apply eq_of_toNat_eq
  simp [Term.eval]

theorem eval_lo32 (a : Term (.bv 64)) : (lo32 a).eval σ = (a.eval σ).setWidth 32 :=
  eval_extract_low 32 a

theorem needData_returns {a : Term (.bv 64)}
    (h : Returns (needData v what) s a s') : v = .data a ∧ s = s' := by
  cases v with
  | data b =>
    obtain ⟨rfl, rfl⟩ := h.pure
    exact ⟨rfl, rfl⟩
  | ptr p => exact h.throw

theorem aluScalar_sound (hop : Isa.aluOp code off = some op)
    (h : Returns (aluScalar code is64 dst src off what) s v s') :
    v.conc L σ = Isa.onWidth is64 (fun a b => op.eval a b) (dst.conc L σ) (src.conc L σ) ∧
      s = s' := by
  obtain ⟨a, _, first, h⟩ := h.bind
  obtain ⟨rfl, rfl⟩ := needData_returns first
  obtain ⟨b, _, second, h⟩ := h.bind
  obtain ⟨rfl, rfl⟩ := needData_returns second
  cases is64 with
  | true =>
    obtain ⟨r, found, same⟩ := aluData_sound (σ := σ) (.inr rfl) hop a b
    simp only [found, if_true, returns_pure] at h
    obtain ⟨rfl, rfl⟩ := h
    exact ⟨same, rfl⟩
  | false =>
    obtain ⟨r, found, same⟩ := aluData_sound (σ := σ) (.inl rfl) hop (lo32 a) (lo32 b)
    simp only [found, Bool.false_eq_true, if_false, Option.map_some, returns_pure] at h
    obtain ⟨rfl, rfl⟩ := h
    refine ⟨?_, rfl⟩
    rw [eval_lo32, eval_lo32] at same
    exact congrArg (BitVec.setWidth 64) same

/-- Pointer arithmetic is arithmetic on addresses. -/
theorem alu_sound (hop : Isa.aluOp code off = some op) (notMov : code ≠ 11)
    (h : Returns (alu code is64 dst src off what) s v s') :
    v.conc L σ = Isa.onWidth is64 (fun a b => op.eval a b) (dst.conc L σ) (src.conc L σ) ∧
      s = s' := by
  have isAdd : code = 0 → op = .add := by
    rintro rfl
    simp only [Isa.aluOp, Isa.plainOp] at hop
    split at hop <;> simp_all
  have isSub : code = 1 → op = .sub := by
    rintro rfl
    simp only [Isa.aluOp, Isa.plainOp] at hop
    split at hop <;> simp_all
  simp only [alu, if_neg notMov] at h
  cases dst with
  | data d =>
    cases src with
    | data b => exact aluScalar_sound hop h
    | ptr p =>
      dsimp only at h
      split at h
      · rename_i add
        obtain ⟨rfl, rfl⟩ := h.pure
        rw [isAdd add.1, add.2]
        refine ⟨?_, rfl⟩
        change L.base p.region + (p.off.eval σ + d.eval σ) =
          d.eval σ + (L.base p.region + p.off.eval σ)
        rw [← add_assoc, add_comm]
      · exact aluScalar_sound hop h
  | ptr d =>
    cases src with
    | data b =>
      dsimp only at h
      split at h
      · rename_i add
        obtain ⟨rfl, rfl⟩ := h.pure
        rw [isAdd add.1, add.2]
        exact ⟨(add_assoc ..).symm, rfl⟩
      split at h
      · rename_i sub
        obtain ⟨rfl, rfl⟩ := h.pure
        rw [isSub sub.1, sub.2]
        exact ⟨(add_sub_assoc ..).symm, rfl⟩
      · exact aluScalar_sound hop h
    | ptr p =>
      dsimp only at h
      split at h
      · rename_i sub
        split at h
        · exact h.throw
        rename_i same
        obtain ⟨rfl, rfl⟩ := h.pure
        rw [isSub sub.1, sub.2]
        refine ⟨?_, rfl⟩
        change d.off.eval σ - p.off.eval σ =
          (L.base d.region + d.off.eval σ) - (L.base p.region + p.off.eval σ)
        rw [not_not.mp same]
        exact (add_sub_add_left_eq_sub _ _ _).symm
      · exact aluScalar_sound hop h

/-- A plain move, with the low half zero-extended in the 32-bit class. -/
theorem mov_sound
    (h : Returns (aluMov is64 src 0 what) s v s') :
    v.conc L σ = Isa.onWidth is64 (fun _ b => b) 0 (src.conc L σ) ∧ s = s' := by
  cases is64 with
  | true =>
    cases src <;>
    · obtain ⟨rfl, rfl⟩ := h.pure
      exact ⟨rfl, rfl⟩
  | false =>
    cases src with
    | data b =>
      obtain ⟨rfl, rfl⟩ := h.pure
      refine ⟨?_, rfl⟩
      change ((lo32 b).eval σ).setWidth 64 = _
      rw [eval_lo32]
      rfl
    | ptr p => exact h.throw

theorem movsx_sound {b : Term (.bv 64)}
    (width : off = 8 ∨ off = 16 ∨ off = 32)
    (h : Returns (aluMov is64 (.data b) off what) s v s') :
    v.conc L σ = Isa.onWidth is64 (fun _ b => b) 0 (Isa.extendSign off.toNat (b.eval σ)) ∧
      s = s' := by
  have low := eval_extract_low (σ := σ) off.toNat b
  have notCast : ¬ (is64 = true ∧ off = 1) := by omega
  simp only [aluMov, if_neg notCast, if_pos width, returns_pure] at h
  obtain ⟨rfl, rfl⟩ := h
  refine ⟨?_, rfl⟩
  cases is64 with
  | true =>
    change ((Term.extract 0 off.toNat b).eval σ).signExtend 64 = _
    rw [low]
    rfl
  | false =>
    change ((lo32 _).eval σ).setWidth 64 = _
    rw [eval_lo32]
    change (BitVec.setWidth 32 (((Term.extract 0 off.toNat b).eval σ).signExtend 64)).setWidth 64
      = _
    rw [low]
    rfl

/-! Byte swaps. -/

theorem eval_swapTerm (size : Size) (v : Term (.bv 64)) :
    (swapTerm size v).eval σ =
      Flat.value size.bytes fun k => Flat.bytesOf (v.eval σ) (size.bytes - 1 - k) := by
  apply eq_of_toNat_eq
  have bound (k : Nat) := (Flat.bytesOf (v.eval σ) k).isLt
  have b0 := bound 0
  have b1 := bound 1
  have b2 := bound 2
  have b3 := bound 3
  cases size <;>
    simp only [swapTerm, Term.eval, eval_byteOf, Flat.value, Flat.leNat, Size.bytes,
      toNat_setWidth, toNat_cast, Flat.toNat_append, toNat_ofNat]
  all_goals simp only [Nat.reduceAdd, Nat.reduceSub]
  case dw =>
    have b4 := bound 4
    have b5 := bound 5
    have b6 := bound 6
    have b7 := bound 7
    omega
  all_goals omega

theorem eval_low (size : Size) (v : Term (.bv 64)) :
    ((Term.extract 0 (8 * size.bytes) v).eval σ).setWidth 64 =
      Flat.value size.bytes (Flat.bytesOf (v.eval σ)) := by
  apply eq_of_toNat_eq
  have bound := (v.eval σ).isLt
  cases size <;>
    simp only [Term.eval, Flat.value, Flat.leNat, Flat.bytesOf, Size.bytes, toNat_setWidth,
      BitVec.extractLsb'_toNat, toNat_ofNat, Nat.shiftRight_eq_div_pow] <;>
    omega

theorem endianOp_sound {op : Nat} {v r : Term (.bv 64)} {width : Int}
    (h : Returns (endianOp op is64 v width what) s r s') :
    s = s' ∧ r.eval σ =
      if is64 || op &&& 8 != 0 then
        Flat.value (width.toNat / 8) fun k =>
          Flat.bytesOf (v.eval σ) (width.toNat / 8 - 1 - k)
      else Flat.value (width.toNat / 8) (Flat.bytesOf (v.eval σ)) := by
  simp only [endianOp] at h
  split at h
  · rename_i half
    obtain ⟨rfl, rfl⟩ := h.pure
    subst half
    refine ⟨rfl, ?_⟩
    split
    · exact eval_swapTerm .h v
    · exact eval_low .h v
  · split at h
    · rename_i word
      obtain ⟨rfl, rfl⟩ := h.pure
      subst word
      refine ⟨rfl, ?_⟩
      split
      · exact eval_swapTerm .w v
      · exact eval_low .w v
    · split at h
      · rename_i double
        obtain ⟨rfl, rfl⟩ := h.pure
        subst double
        refine ⟨rfl, ?_⟩
        split
        · exact eval_swapTerm .dw v
        · exact (setWidth_eq _).symm.trans (eval_low .dw v)
      · exact h.throw

/-! Conditions. -/

theorem condData_sound (h : Isa.condOf code = some c)
    (a b : Term (.bv w)) :
    ∃ r, condData code a b = some r ∧ r.eval σ = c.eval (a.eval σ) (b.eval σ) := by
  unfold Isa.condOf at h
  split at h <;> cases h <;> exact ⟨_, rfl, rfl⟩

theorem condScalar_sound {is32 : Bool} {a b : Term (.bv 64)} {r : Term .bool}
    (hc : Isa.condOf code = some c) (h : Returns (condScalar code is32 a b what) s r s') :
    r.eval σ = Isa.condOn (!is32) c (a.eval σ) (b.eval σ) ∧ s = s' := by
  cases is32 with
  | true =>
    obtain ⟨q, found, same⟩ := condData_sound (σ := σ) hc (lo32 a) (lo32 b)
    simp only [condScalar, found, if_true, returns_pure] at h
    obtain ⟨rfl, rfl⟩ := h
    rw [eval_lo32, eval_lo32] at same
    exact ⟨same, rfl⟩
  | false =>
    obtain ⟨q, found, same⟩ := condData_sound (σ := σ) hc a b
    simp only [condScalar, found, Bool.false_eq_true, if_false, returns_pure] at h
    obtain ⟨rfl, rfl⟩ := h
    exact ⟨same, rfl⟩

/-- A pointer whose address does not wrap around. -/
def Ptr.Straight (L : Layout) (σ : Assignment) (p : Ptr) : Prop :=
  (L.base p.region).toNat + (p.off.eval σ).toNat < 2 ^ 64

/-- Comparisons that agree on addresses and on offsets: equality at either width, and
the unsigned orders on whole addresses that do not wrap. -/
def SameOrder (L : Layout) (σ : Assignment) (wide : Bool) (c : Isa.Cond) (d p : Ptr) : Prop :=
  c = .eq ∨ c = .ne ∨ (wide = true ∧ (c = .gt ∨ c = .ge ∨ c = .lt ∨ c = .le) ∧
    d.Straight L σ ∧ p.Straight L σ)

/-- Comparisons the executor decides as the machine does. A pointer and a scalar are
taken to differ, so the scalar must not be the pointer's address. -/
def Comparable (L : Layout) (σ : Assignment) (wide : Bool) (c : Isa.Cond) (dst src : Val) : Prop :=
  match dst, src with
  | .ptr d, .ptr p => SameOrder L σ wide c d p
  | .ptr d, .data b => Isa.condOn wide .eq (d.addr L σ) (b.eval σ) = false
  | _, _ => True

theorem add_toNat_straight {p : Ptr} (h : p.Straight L σ) :
    (p.addr L σ).toNat = (L.base p.region).toNat + (p.off.eval σ).toNat := by
  rw [Ptr.addr, toNat_add, Nat.mod_eq_of_lt h]

theorem beq_add_left (a b c : BitVec w) : (a + b == a + c) = (b == c) := by
  rw [Bool.eq_iff_iff, beq_iff_eq, beq_iff_eq]
  exact add_right_inj a

/-- Within a region the comparison of offsets is that of addresses. -/
theorem sameOrder_sound {wide : Bool} {d p : Ptr} (region : d.region = p.region)
    (h : SameOrder L σ wide c d p) :
    Isa.condOn wide c (d.off.eval σ) (p.off.eval σ) =
      Isa.condOn wide c (d.addr L σ) (p.addr L σ) := by
  have equal : Isa.condOn wide .eq (d.off.eval σ) (p.off.eval σ) =
      Isa.condOn wide .eq (d.addr L σ) (p.addr L σ) := by
    simp only [Ptr.addr, region]
    cases wide with
    | true => exact (beq_add_left ..).symm
    | false =>
      simp only [Isa.condOn, Isa.Cond.eval, Bool.false_eq_true, if_false, setWidth_add _ _
        (show 32 ≤ 64 by omega)]
      exact (beq_add_left ..).symm
  rcases h with rfl | rfl | ⟨rfl, order, straight, straight'⟩
  · exact equal
  · cases wide <;> exact congrArg not equal
  have hd := add_toNat_straight straight
  have hp := add_toNat_straight straight'
  rw [region] at hd
  simp only [Isa.condOn, if_true]
  rcases order with rfl | rfl | rfl | rfl <;>
    simp only [Isa.Cond.eval, BitVec.ult, BitVec.ule, hd, hp, Nat.add_lt_add_iff_left,
      Nat.add_le_add_iff_left]

theorem cond_sound {is32 : Bool}
    {r : Term .bool} (hc : Isa.condOf code = some c)
    (ok : Comparable L σ (!is32) c dst src)
    (h : Returns (BpfEquiv.cond code is32 dst src what) s r s') :
    r.eval σ = Isa.condOn (!is32) c (dst.conc L σ) (src.conc L σ) ∧ s = s' := by
  cases dst with
  | data a =>
    cases src with
    | data b => exact condScalar_sound hc h
    | ptr p => exact h.throw
  | ptr d =>
    cases src with
    | data b =>
      simp only [BpfEquiv.cond] at h
      split at h
      · rename_i eq
        obtain ⟨rfl, rfl⟩ := h.pure
        subst eq
        cases hc
        exact ⟨ok.symm, rfl⟩
      · split at h
        · rename_i ne
          obtain ⟨rfl, rfl⟩ := h.pure
          subst ne
          cases hc
          refine ⟨?_, rfl⟩
          cases is32 <;> exact (congrArg not ok).symm
        · exact h.throw
    | ptr p =>
      simp only [BpfEquiv.cond] at h
      split at h
      · rename_i region
        obtain ⟨same, rfl⟩ := condScalar_sound (σ := σ) hc h
        exact ⟨same.trans (sameOrder_sound region ok), rfl⟩
      · exact h.throw

end BpfEquiv
