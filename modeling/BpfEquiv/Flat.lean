import Mathlib

/-!
A flat byte memory over 64-bit addresses, with little-endian values.

A window is a start address and a length; membership is decided on the wrapped
distance from the start, so a window may not be longer than the address space.
-/
namespace Flat

open BitVec

abbrev Memory := BitVec 64 → BitVec 8

variable {n k : Nat} {b c : Nat → BitVec 8} {m : Memory} {a : BitVec 64}

def write (m : Memory) (a : BitVec 64) (n : Nat) (b : Nat → BitVec 8) : Memory :=
  fun x => if (x - a).toNat < n then b (x - a).toNat else m x

def leNat : Nat → (Nat → BitVec 8) → Nat
  | 0, _ => 0
  | n + 1, b => (b 0).toNat + 256 * leNat n fun k => b (k + 1)

/-- The number with the given bytes, lowest first. -/
def value (n : Nat) (b : Nat → BitVec 8) : BitVec 64 := BitVec.ofNat 64 (leNat n b)

def bytesOf (v : BitVec 64) (k : Nat) : BitVec 8 := v.extractLsb' (8 * k) 8

def read (m : Memory) (a : BitVec 64) (n : Nat) : BitVec 64 :=
  value n fun k => m (a + BitVec.ofNat 64 k)

theorem toNat_append {m n : Nat} (x : BitVec m) (y : BitVec n) :
    (x ++ y).toNat = 2 ^ n * x.toNat + y.toNat := by
  rw [BitVec.toNat_append, ← Nat.shiftLeft_add_eq_or_of_lt y.isLt, Nat.shiftLeft_eq, Nat.mul_comm]

theorem leNat_congr (h : ∀ k < n, b k = c k) :
    leNat n b = leNat n c := by
  induction n generalizing b c with
  | zero => rfl
  | succ n ih =>
    simp only [leNat]
    rw [h 0 (by omega), ih fun k hk => h (k + 1) (by omega)]

theorem value_congr (h : ∀ k < n, b k = c k) :
    value n b = value n c :=
  congrArg (BitVec.ofNat 64) (leNat_congr h)

theorem value_bytesOf (v : BitVec 64) : value 8 (bytesOf v) = v := by
  apply eq_of_toNat_eq
  have bound := v.isLt
  simp only [value, leNat, bytesOf, BitVec.extractLsb'_toNat, toNat_ofNat,
    Nat.shiftRight_eq_div_pow]
  omega

theorem leNat_lt (n : Nat) (b : Nat → BitVec 8) : leNat n b < 256 ^ n := by
  induction n generalizing b with
  | zero => exact Nat.one_pos
  | succ n ih =>
    have low := (b 0).isLt
    have high := ih fun k => b (k + 1)
    simp only [leNat, Nat.pow_succ]
    omega

theorem leNat_digit (b : Nat → BitVec 8) (hk : k < n) :
    leNat n b / 256 ^ k % 256 = (b k).toNat := by
  induction n generalizing k b with
  | zero => exact absurd hk (Nat.not_lt_zero k)
  | succ n ih =>
    have low := (b 0).isLt
    simp only [leNat]
    cases k with
    | zero =>
      rw [Nat.pow_zero, Nat.div_one]
      omega
    | succ k =>
      have rest : ((b 0).toNat + 256 * leNat n fun k => b (k + 1)) / 256 =
          leNat n fun k => b (k + 1) := by omega
      rw [Nat.pow_succ', ← Nat.div_div_eq_div_mul, rest]
      exact ih (fun k => b (k + 1)) (by omega)

theorem bytesOf_value (b : Nat → BitVec 8) (hn : n ≤ 8) (hk : k < n) :
    bytesOf (value n b) k = b k := by
  apply eq_of_toNat_eq
  have small : leNat n b < 2 ^ 64 :=
    Nat.lt_of_lt_of_le (leNat_lt n b) (Nat.pow_le_pow_right (show 0 < 256 by omega) hn)
  rw [bytesOf, value, BitVec.extractLsb'_toNat, toNat_ofNat, Nat.mod_eq_of_lt small,
    Nat.shiftRight_eq_div_pow, Nat.pow_mul]
  exact leNat_digit b hk

theorem bytesOf_read_zero (m : Memory) (a : BitVec 64) : bytesOf (read m a 1) 0 = m a := by
  rw [read, bytesOf_value _ (by omega) (by omega)]
  exact congrArg m (add_zero a)

theorem sub_add_ofNat (a : BitVec 64) (hk : k < 2 ^ 64) :
    (a + BitVec.ofNat 64 k - a).toNat = k := by
  rw [add_comm, add_sub_cancel, toNat_ofNat, Nat.mod_eq_of_lt hk]

theorem ne_of_offset_ne (a : BitVec 64) {i j : Nat} (hi : i < 2 ^ 64) (hj : j < 2 ^ 64)
    (h : i ≠ j) : a + BitVec.ofNat 64 i ≠ a + BitVec.ofNat 64 j := by
  intro same
  have distance := congrArg (fun x => (x - a).toNat) same
  simp only [sub_add_ofNat a hi, sub_add_ofNat a hj] at distance
  exact h distance

theorem write_in (hk : k < n)
    (hn : n ≤ 2 ^ 64) : write m a n b (a + BitVec.ofNat 64 k) = b k := by
  simp only [write, sub_add_ofNat a (Nat.lt_of_lt_of_le hk hn), hk, if_true]

theorem write_out {x : BitVec 64}
    (h : ¬ (x - a).toNat < n) : write m a n b x = m x :=
  if_neg h

@[simp] theorem write_zero (m : Memory) (a : BitVec 64) (b : Nat → BitVec 8) :
    write m a 0 b = m := by
  funext x
  simp [write]

theorem write_succ (m : Memory) (a : BitVec 64) (b : Nat → BitVec 8)
    (hn : n < 2 ^ 64) : write m a (n + 1) b =
      fun x => if x = a + BitVec.ofNat 64 n then b n else write m a n b x := by
  funext x
  by_cases hx : x = a + BitVec.ofNat 64 n
  · subst hx
    simp only [write, sub_add_ofNat a hn, Nat.lt_succ_self, if_true]
  have far : (x - a).toNat ≠ n := by
    intro distance
    apply hx
    rw [← distance, ofNat_toNat, setWidth_eq, add_comm,
      sub_add_cancel]
  simp only [write, if_neg hx]
  have same : (x - a).toNat < n + 1 ↔ (x - a).toNat < n := by omega
  simp only [same]

theorem write_append (m : Memory) (a : BitVec 64) {w : Nat} (b c : Nat → BitVec 8)
    (hn : w + n ≤ 2 ^ 64) :
    write (write m a w b) (a + BitVec.ofNat 64 w) n c =
      write m a (w + n) fun k => if k < w then b k else c (k - w) := by
  funext x
  have hx := x.isLt
  have ha := a.isLt
  have near : (x - a).toNat = (2 ^ 64 - a.toNat + x.toNat) % 2 ^ 64 := toNat_sub ..
  have far : (x - (a + BitVec.ofNat 64 w)).toNat =
      (2 ^ 64 - (a.toNat + w % 2 ^ 64) % 2 ^ 64 + x.toNat) % 2 ^ 64 := by
    rw [toNat_sub, toNat_add, toNat_ofNat]
  simp only [write]
  by_cases first : (x - a).toNat < w
  · have out : ¬ (x - (a + BitVec.ofNat 64 w)).toNat < n := by omega
    simp only [if_neg out, if_pos first, if_pos (show (x - a).toNat < w + n by omega)]
  by_cases second : (x - a).toNat < w + n
  · have distance : (x - (a + BitVec.ofNat 64 w)).toNat = (x - a).toNat - w := by omega
    simp only [distance, if_pos (show (x - a).toNat - w < n by omega), if_pos second,
      if_neg first]
  have out : n = 0 ∨ ¬ (x - (a + BitVec.ofNat 64 w)).toNat < n := by omega
  rcases out with rfl | out
  · simp only [Nat.not_lt_zero, if_false, if_neg first, if_neg second]
  · simp only [if_neg out, if_neg first, if_neg second]

theorem write_read (m : Memory) (a : BitVec 64) (hn : n ≤ 8) :
    write m a n (bytesOf (read m a n)) = m := by
  funext x
  simp only [write]
  split
  · rename_i inside
    rw [read, bytesOf_value _ hn inside, ofNat_toNat, setWidth_eq, add_comm,
      sub_add_cancel]
  · rfl

theorem write_congr
    (h : ∀ k < n, b k = c k) : write m a n b = write m a n c := by
  funext x
  simp only [write]
  split
  · next inside => exact h _ inside
  · rfl

end Flat
