import Mathlib

/-!
Cyclic redundancy checks of 32 bits, reflected form.

One step shifts the remainder and subtracts the polynomial if a bit falls out. It is
linear, and one-to-one if the polynomial has its top bit. A checksum therefore tells any
two messages apart that differ only within four consecutive bytes.
-/
namespace Crc

open List BitVec

variable {poly : BitVec 32}

def step (poly c : BitVec 32) : BitVec 32 :=
  if c.getLsbD 0 then (c >>> 1) ^^^ poly else c >>> 1

def feed (poly c : BitVec 32) (b : BitVec 8) : BitVec 32 :=
  Nat.iterate (step poly) 8 (c ^^^ b.setWidth 32)

def digest (poly c : BitVec 32) (bs : List (BitVec 8)) : BitVec 32 := bs.foldl (feed poly) c

/-! One step. -/

theorem step_xor (a b : BitVec 32) : step poly (a ^^^ b) = step poly a ^^^ step poly b := by
  simp only [step, BitVec.getLsbD_xor, BitVec.ushiftRight_xor_distrib]
  cases a.getLsbD 0 <;> cases b.getLsbD 0
  · simp
  · simp [BitVec.xor_assoc]
  · simp only [Bool.xor_false, if_true, Bool.false_eq_true, if_false]
    ac_rfl
  · simp only [Bool.xor_self, Bool.false_eq_true, if_false, if_true]
    rw [show a >>> 1 ^^^ poly ^^^ (b >>> 1 ^^^ poly) = a >>> 1 ^^^ b >>> 1 ^^^ (poly ^^^ poly) by
      ac_rfl, BitVec.xor_self, BitVec.xor_zero]

/-- A remainder with a clear low bit only moves down. -/
theorem step_double {w : BitVec 32} (room : w.msb = false) : step poly (w <<< 1) = w := by
  have low : (w <<< 1).getLsbD 0 = false := by simp
  have small := msb_eq_false_iff_two_mul_lt.mp room
  rw [step, low, if_neg Bool.false_ne_true]
  apply eq_of_toNat_eq
  simp only [toNat_ushiftRight, toNat_shiftLeft, Nat.shiftLeft_eq,
    Nat.shiftRight_eq_div_pow]
  omega

/-- Only the zero remainder steps to zero: the top bit of the result is the bit that fell
out. -/
theorem eq_zero_of_step (top : poly.msb = true) {c : BitVec 32} (zero : step poly c = 0) :
    c = 0 := by
  rw [step] at zero
  split at zero
  · have bit := congrArg BitVec.msb zero
    simp [msb_xor, top] at bit
  rename_i low
  have half := congrArg BitVec.toNat zero
  have even : c.toNat % 2 = 0 := by
    simpa [BitVec.getLsbD, Nat.testBit_zero] using low
  simp only [toNat_ushiftRight, Nat.shiftRight_eq_div_pow] at half
  apply eq_of_toNat_eq
  simp at half ⊢
  omega

theorem step_injective (top : poly.msb = true) : Function.Injective (step poly) := by
  intro a b same
  have zero : step poly (a ^^^ b) = 0 := by rw [step_xor, same, BitVec.xor_self]; rfl
  exact BitVec.xor_eq_zero_iff.mp (eq_zero_of_step top zero)

/-! Several steps. -/

theorem steps_xor (n : Nat) (a b : BitVec 32) :
    (step poly)^[n] (a ^^^ b) = (step poly)^[n] a ^^^ (step poly)^[n] b := by
  induction n with
  | zero => rfl
  | succ n ih => simp only [Function.iterate_succ_apply', ih, step_xor]

theorem steps_shift (n : Nat) {w : BitVec 32} (room : ∀ i, 32 - n ≤ i → w.getLsbD i = false) :
    (step poly)^[n] (w <<< n) = w := by
  induction n with
  | zero => simp
  | succ n ih =>
    have top : (w <<< n).msb = false := by
      simp only [msb_eq_getLsbD_last, getLsbD_shiftLeft]
      simp [room (32 - 1 - n) (by omega)]
    rw [Function.iterate_succ_apply, shiftLeft_add, step_double top]
    exact ih fun i high => room i (by omega)

/-! Four bytes. -/

/-- Bytes of a word, lowest first. -/
def pack : List (BitVec 8) → BitVec 32
  | [] => 0
  | b :: bs => b.setWidth 32 ^^^ (pack bs <<< 8)

theorem pack_high (bs : List (BitVec 8)) {i : Nat} (high : 8 * bs.length ≤ i) :
    (pack bs).getLsbD i = false := by
  induction bs generalizing i with
  | nil => simp [pack]
  | cons b bs ih =>
    rw [length_cons] at high
    have rest := @ih (i - 8) (by omega)
    simp [pack, getLsbD_of_ge b i (by omega), rest]

theorem pack_low (b : BitVec 8) (bs : List (BitVec 8)) {i : Nat} (low : i < 8) :
    (pack (b :: bs)).getLsbD i = b.getLsbD i := by
  simp [pack, low, show i < 32 by omega]

theorem pack_rest (b : BitVec 8) (bs : List (BitVec 8)) {i : Nat} (inside : i + 8 < 32) :
    (pack (b :: bs)).getLsbD (i + 8) = (pack bs).getLsbD i := by
  simp [pack, inside, getLsbD_eq_getElem (show i < 32 by omega)]

theorem pack_inj {u v : List (BitVec 8)} (length : u.length = v.length) (short : u.length ≤ 4)
    (same : pack u = pack v) : u = v := by
  induction u generalizing v with
  | nil => exact (length_eq_zero_iff.mp length.symm).symm
  | cons b u ih =>
    cases v with
    | nil => cases length
    | cons d v =>
      simp only [length_cons] at length short
      have first : b = d := by
        apply eq_of_getLsbD_eq
        intro i low
        rw [← pack_low b u low, same, pack_low d v low]
      have rest : pack u = pack v := by
        apply eq_of_getLsbD_eq
        intro i _
        by_cases inside : i + 8 < 32
        · rw [← pack_rest b u inside, same, pack_rest d v inside]
        · rw [pack_high u (by omega), pack_high v (by omega)]
      rw [first, ih (by omega) (by omega) rest]

theorem digest_pack (bs : List (BitVec 8)) (short : bs.length ≤ 4) (c : BitVec 32) :
    digest poly c bs = (step poly)^[8 * bs.length] (c ^^^ pack bs) := by
  induction bs generalizing c with
  | nil => simp [digest, pack]
  | cons b bs ih =>
    rw [length_cons] at short ⊢
    -- the later bytes enter before the steps of the first one, shifted by eight
    have enters : (step poly)^[8] (c ^^^ pack (b :: bs)) = feed poly c b ^^^ pack bs := by
      rw [pack, ← xor_assoc, steps_xor, steps_shift 8]
      · rfl
      · exact fun i high => pack_high bs (by omega)
    calc digest poly c (b :: bs) = digest poly (feed poly c b) bs := rfl
      _ = (step poly)^[8 * bs.length] (feed poly c b ^^^ pack bs) := ih (by omega) _
      _ = (step poly)^[8 * (bs.length + 1)] (c ^^^ pack (b :: bs)) := by
          rw [← enters, ← Function.iterate_add_apply, Nat.mul_add, Nat.mul_one]

/-! Messages. -/

theorem digest_append (c : BitVec 32) (u v : List (BitVec 8)) :
    digest poly c (u ++ v) = digest poly (digest poly c u) v :=
  foldl_append

theorem digest_injective (top : poly.msb = true) (bs : List (BitVec 8)) :
    Function.Injective fun c => digest poly c bs := by
  induction bs with
  | nil => exact fun a b same => same
  | cons x bs ih =>
    intro a b same
    have fed : feed poly a x = feed poly b x := ih same
    have masked := (step_injective top).iterate 8 fed
    exact (xor_left_inj _).mp masked

/-- Messages that differ only within four consecutive bytes have different remainders. -/
theorem digest_window (top : poly.msb = true) {c : BitVec 32} {p u v s : List (BitVec 8)}
    (length : u.length = v.length) (short : u.length ≤ 4)
    (same : digest poly c (p ++ u ++ s) = digest poly c (p ++ v ++ s)) : u = v := by
  rw [digest_append, digest_append _ _ s, digest_append, digest_append _ p] at same
  have windows := digest_injective top s same
  rw [digest_pack u short, digest_pack v (length ▸ short), length] at windows
  have words := (step_injective top).iterate _ windows
  exact pack_inj length short ((xor_right_inj _).mp words)

end Crc
