import Mathlib

/-!
Fields of a byte memory, and reading them with a load and two shifts.

A field is a range of bits, counted from the lowest bit of the first byte. Its value is the
number these bits spell, in two's complement where it is signed. A little-endian load of a
window of bytes, a shift to the left and a shift to the right give the part of the field that
lies inside the window. Two fields with the same start have the same value in every memory
only if they have the same width and sign.
-/
namespace BitField

abbrev Mem := Nat → BitVec 8

def bit (mem : Mem) (k : Nat) : Bool := (mem (k / 8)).getLsbD (k % 8)

/-- Little-endian value of a window of bytes. -/
def load (mem : Mem) : Nat → Nat → Nat
  | _, 0 => 0
  | off, n + 1 => (mem off).toNat + 256 * load mem (off + 1) n

def bits (mem : Mem) (start width : Nat) : Nat :=
  Nat.ofBits fun i : Fin width => bit mem (start + i)

def value (mem : Mem) (start width : Nat) (signed : Bool) : Int :=
  if signed && decide (0 < width) && bit mem (start + width - 1) then
    (bits mem start width : Int) - 2 ^ width
  else bits mem start width

/-- A shift to the left and one to the right of a register, as a number. Counts wrap at the
width of the register. -/
def shifts (x : Nat) (lshift rshift : Int) (signed : Bool) : Int :=
  let y := BitVec.ofNat 64 x <<< (lshift % 64).toNat
  if signed then (y.sshiftRight (rshift % 64).toNat).toInt else (y >>> (rshift % 64).toNat).toNat

variable {mem : Mem}

theorem testBit_load (mem : Mem) (off n j : Nat) :
    (load mem off n).testBit j = (decide (j < 8 * n) && bit mem (8 * off + j)) := by
  induction n generalizing off j with
  | zero => simp [load]
  | succ n ih =>
    have low : (mem off).toNat < 2 ^ 8 := (mem off).isLt
    rw [load, Nat.add_comm, show 256 = 2 ^ 8 from rfl, Nat.testBit_two_pow_mul_add _ low]
    split
    · rename_i first
      have place : (8 * off + j) / 8 = off ∧ (8 * off + j) % 8 = j := by omega
      rw [bit, place.1, place.2, decide_eq_true (by omega), Bool.true_and]
      rfl
    rename_i later
    rw [ih, show 8 * (off + 1) + (j - 8) = 8 * off + j by omega]
    congr 1
    exact decide_eq_decide.mpr (by omega)

theorem testBit_bits (mem : Mem) (start width j : Nat) :
    (bits mem start width).testBit j = (decide (j < width) && bit mem (start + j)) := by
  by_cases inside : j < width
  · rw [bits, Nat.testBit_ofBits_lt _ j inside, decide_eq_true inside, Bool.true_and]
  · rw [bits, Nat.testBit_ofBits_ge _ j (Nat.le_of_not_lt inside), decide_eq_false inside,
      Bool.false_and]

theorem bits_lt (mem : Mem) (start width : Nat) : bits mem start width < 2 ^ width :=
  Nat.ofBits_lt_two_pow _

section Read
variable {start byteOff byteSz width : Nat}

theorem shifted_bits (small : byteSz ≤ 8) (before : 8 * byteOff ≤ start)
    (fits : start - 8 * byteOff + width ≤ 64) :
    (BitVec.ofNat 64 (load mem byteOff byteSz) <<< (64 - width - (start - 8 * byteOff))) >>>
        (64 - width) =
      BitVec.ofNat 64 (bits mem start (min width (8 * byteSz - (start - 8 * byteOff)))) := by
  refine BitVec.eq_of_getLsbD_eq fun i inside => ?_
  rw [BitVec.getLsbD_ushiftRight, BitVec.getLsbD_shiftLeft, BitVec.getLsbD_ofNat,
    BitVec.getLsbD_ofNat, testBit_load, testBit_bits]
  by_cases within : i < width
  · have place : 64 - width + i - (64 - width - (start - 8 * byteOff)) =
        i + (start - 8 * byteOff) := by omega
    rw [place, show 8 * byteOff + (i + (start - 8 * byteOff)) = start + i by omega,
      decide_eq_true (show 64 - width + i < 64 by omega),
      decide_eq_false (show ¬ 64 - width + i < 64 - width - (start - 8 * byteOff) by omega),
      decide_eq_true (show i + (start - 8 * byteOff) < 64 by omega), decide_eq_true inside]
    simp only [Bool.not_false, Bool.true_and]
    congr 1
    exact decide_eq_decide.mpr (by omega)
  · rw [decide_eq_false (show ¬ 64 - width + i < 64 by omega),
      decide_eq_false (show ¬ i < min width _ by omega)]
    simp

/-- The sign bit of the register between the shifts is the last bit of the field, if the
window has it. -/
theorem msb_shifted (before : 8 * byteOff ≤ start)
    (fits : start - 8 * byteOff + width ≤ 64) (some_bit : 0 < width) :
    (BitVec.ofNat 64 (load mem byteOff byteSz) <<< (64 - width - (start - 8 * byteOff))).msb =
      (decide (start - 8 * byteOff + width ≤ 8 * byteSz) && bit mem (start + width - 1)) := by
  rw [BitVec.msb_eq_getLsbD_last, BitVec.getLsbD_shiftLeft, BitVec.getLsbD_ofNat, testBit_load,
    decide_eq_true (show 64 - 1 < 64 by omega),
    decide_eq_false (show ¬ 64 - 1 < 64 - width - (start - 8 * byteOff) by omega),
    show 64 - 1 - (64 - width - (start - 8 * byteOff)) = width + (start - 8 * byteOff) - 1 by omega,
    show 8 * byteOff + (width + (start - 8 * byteOff) - 1) = start + width - 1 by omega,
    decide_eq_true (show width + (start - 8 * byteOff) - 1 < 64 by omega)]
  simp only [Bool.not_false, Bool.true_and]
  congr 1
  exact decide_eq_decide.mpr (by omega)

theorem toInt_sshiftRight_split (y : BitVec 64) {k : Nat} (small : k ≤ 64) :
    (y.sshiftRight k).toInt =
      ((y >>> k).toNat : Int) - if y.msb then 2 ^ (64 - k) else 0 := by
  rw [BitVec.toInt_sshiftRight, BitVec.toInt_eq_msb_cond, Int.shiftRight_eq_div_pow,
    BitVec.toNat_ushiftRight, Nat.shiftRight_eq_div_pow]
  have whole : (2 : Int) ^ 64 = 2 ^ (64 - k) * 2 ^ k := by
    rw [← pow_add, Nat.sub_add_cancel small]
  have positive : (2 : Int) ^ k ≠ 0 := by positivity
  simp only [Nat.cast_pow, Nat.cast_ofNat, Int.natCast_ediv]
  split
  · rw [whole, sub_eq_add_neg, ← neg_mul, Int.add_mul_ediv_right _ _ positive, ← sub_eq_add_neg]
  · rw [sub_zero]

/-- What the load and the two shifts read: the part of the field inside the window, signed
only if that is the whole field. -/
theorem shifts_load (small : byteSz ≤ 8) (before : 8 * byteOff ≤ start)
    (inside : start - 8 * byteOff < 8 * byteSz) (fits : start - 8 * byteOff + width ≤ 64)
    (some_bit : 0 < width) (signed : Bool) :
    shifts (load mem byteOff byteSz) (64 - width - ((start : Int) - byteOff * 8)) (64 - width)
        signed =
      value mem start (min width (8 * byteSz - (start - 8 * byteOff)))
        (signed && decide (start - 8 * byteOff + width ≤ 8 * byteSz)) := by
  have left : (((64 : Int) - width - ((start : Int) - byteOff * 8)) % 64).toNat =
      64 - width - (start - 8 * byteOff) := by omega
  have right : (((64 : Int) - width) % 64).toNat = 64 - width := by omega
  have below : bits mem start (min width (8 * byteSz - (start - 8 * byteOff))) < 2 ^ 64 :=
    Nat.lt_of_lt_of_le (bits_lt _ _ _) (Nat.pow_le_pow_right (by omega) (by omega))
  have unsigned : ((BitVec.ofNat 64 (load mem byteOff byteSz) <<<
      (64 - width - (start - 8 * byteOff))) >>> (64 - width)).toNat =
        bits mem start (min width (8 * byteSz - (start - 8 * byteOff))) := by
    rw [shifted_bits small before fits, BitVec.toNat_ofNat, Nat.mod_eq_of_lt below]
  simp only [shifts, left, right, value]
  cases signed with
  | false => simp [unsigned]
  | true =>
    rw [if_pos rfl, toInt_sshiftRight_split _ (by omega), unsigned,
      msb_shifted before fits some_bit]
    by_cases whole : start - 8 * byteOff + width ≤ 8 * byteSz
    · have same : min width (8 * byteSz - (start - 8 * byteOff)) = width := by omega
      rw [same, decide_eq_true whole, decide_eq_true some_bit,
        show 64 - (64 - width) = width by omega]
      cases bit mem (start + width - 1) <;> simp
    · rw [decide_eq_false whole]
      simp

end Read

/-! Telling fields apart. -/

def oneBit (k : Nat) : Mem := fun a => if a = k / 8 then BitVec.twoPow 8 (k % 8) else 0

theorem bit_oneBit (k j : Nat) : bit (oneBit k) j = decide (j = k) := by
  rw [bit, oneBit]
  by_cases byte : j / 8 = k / 8
  · rw [if_pos byte, BitVec.getLsbD_twoPow, decide_eq_true (show k % 8 < 8 by omega), Bool.true_and]
    exact decide_eq_decide.mpr (by omega)
  · have other : j ≠ k := fun same => byte (congrArg (· / 8) same)
    rw [if_neg byte, decide_eq_false other]
    exact BitVec.getLsbD_zero

theorem bits_oneBit {k start width : Nat} (outside : k < start ∨ start + width ≤ k) :
    bits (oneBit k) start width = 0 := by
  refine Nat.eq_of_testBit_eq fun j => ?_
  rw [testBit_bits, bit_oneBit, Nat.zero_testBit]
  by_cases inside : j < width
  · rw [decide_eq_false (show ¬ start + j = k by omega), Bool.and_false]
  · rw [decide_eq_false inside, Bool.false_and]

theorem bits_oneBit_inside {i start width : Nat} (inside : i < width) :
    bits (oneBit (start + i)) start width = 2 ^ i := by
  refine Nat.eq_of_testBit_eq fun j => ?_
  rw [testBit_bits, bit_oneBit, Nat.testBit_two_pow]
  by_cases same : j = i
  · rw [same, decide_eq_true inside]
    simp
  · rw [decide_eq_false (show ¬ start + j = start + i by omega),
      decide_eq_false (show ¬ i = j by omega), Bool.and_false]

theorem value_oneBit_outside {k start width : Nat} (outside : k < start ∨ start + width ≤ k)
    (signed : Bool) : value (oneBit k) start width signed = 0 := by
  rw [value, bits_oneBit outside, bit_oneBit]
  by_cases some_bit : 0 < width
  · rw [decide_eq_false (show ¬ start + width - 1 = k by omega), Bool.and_false]
    rfl
  · rw [decide_eq_false some_bit, Bool.and_false, Bool.false_and]
    rfl

theorem value_oneBit_ne {i start width : Nat} (inside : i < width) (signed : Bool) :
    value (oneBit (start + i)) start width signed ≠ 0 := by
  have less : (2 : Int) ^ i < 2 ^ width := pow_lt_pow_right₀ (by omega) inside
  have positive : (0 : Int) < 2 ^ i := by positivity
  rw [value, bits_oneBit_inside inside]
  split
  · push_cast
    omega
  · push_cast
    omega

/-- The last bit of a field makes it negative just if it is signed. -/
theorem value_oneBit_last {start width : Nat} (some_bit : 0 < width) (signed : Bool) :
    value (oneBit (start + (width - 1))) start width signed < 0 ↔ signed = true := by
  have less : (2 : Int) ^ (width - 1) < 2 ^ width := pow_lt_pow_right₀ (by omega) (by omega)
  have positive : (0 : Int) < 2 ^ (width - 1) := by positivity
  rw [value, bits_oneBit_inside (by omega), bit_oneBit, decide_eq_true some_bit,
    decide_eq_true (show start + width - 1 = start + (width - 1) by omega)]
  cases signed with
  | false =>
    simp only [Bool.false_and, Bool.false_eq_true, if_false, iff_false, Nat.cast_pow,
      Nat.cast_ofNat]
    omega
  | true =>
    simp only [Bool.true_and, if_true, iff_true, Nat.cast_pow, Nat.cast_ofNat]
    omega

theorem value_eq_iff {start w w' : Nat} (some_bit : 0 < w) {signed signed' : Bool} :
    (∀ mem, value mem start w signed = value mem start w' signed') ↔
      w = w' ∧ signed = signed' := by
  constructor
  · intro same
    have width : w = w' := by
      by_contra differs
      rcases Nat.lt_or_gt_of_ne differs with less | more
      · refine @value_oneBit_ne w start w' less signed' ?_
        rw [← same, value_oneBit_outside (.inr (Nat.le_refl _))]
      · refine @value_oneBit_ne w' start w more signed ?_
        rw [same, value_oneBit_outside (.inr (Nat.le_refl _))]
    subst width
    refine ⟨rfl, Bool.eq_iff_iff.mpr ?_⟩
    have last := same (oneBit (start + (w - 1)))
    rw [← @value_oneBit_last start w some_bit signed, last, value_oneBit_last some_bit]
  · rintro ⟨rfl, rfl⟩ mem
    rfl

end BitField
