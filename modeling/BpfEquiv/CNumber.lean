import Mathlib

/-!
Numbers in the form of C: digits, the scan of strtoull with base zero, and little-endian bytes.

The scan skips white space, takes a sign, finds the base in the first characters and takes
the longest run of digits. A leading zero is octal, and hexadecimal where an x and a digit
follow it.
-/
namespace CNumber

open List BitVec

def isSpace (c : Char) : Bool :=
  c = ' ' || c = '\t' || c = '\n' || c = '\x0b' || c = '\x0c' || c = '\r'

/-- Value of a digit in any base up to sixteen. -/
def digit (c : Char) : Option Nat :=
  if '0' ≤ c ∧ c ≤ '9' then some (c.toNat - 48)
  else if 'a' ≤ c ∧ c ≤ 'f' then some (c.toNat - 87)
  else if 'A' ≤ c ∧ c ≤ 'F' then some (c.toNat - 55)
  else none

def isDigit (base : Nat) (c : Char) : Bool :=
  match digit c with
  | some d => decide (d < base)
  | none => false

def numeral (base : Nat) (ds : List Char) : Nat :=
  ds.foldl (fun n c => n * base + (digit c).getD 0) 0

/-- The base of a number and the characters in which its digits are looked for. -/
def splitBase : List Char → Nat × List Char
  | '0' :: x :: d :: ds =>
    if (x = 'x' ∨ x = 'X') ∧ isDigit 16 d = true then (16, d :: ds) else (8, '0' :: x :: d :: ds)
  | '0' :: ds => (8, '0' :: ds)
  | ds => (10, ds)

def unsigned (text : List Char) : List Char :=
  if text.head? = some '-' ∨ text.head? = some '+' then text.tail else text

structure Scan where
  value : Nat
  overflow : Bool
  rest : List Char
  deriving DecidableEq

/-- The number at the front of a text, if there is one. A negative number wraps. -/
def strtoull (text : List Char) : Option Scan :=
  let text := text.dropWhile isSpace
  let (base, chars) := splitBase (unsigned text)
  let digits := chars.takeWhile (isDigit base)
  let rest := chars.dropWhile (isDigit base)
  let v := numeral base digits
  if digits = [] then none
  else if v ≥ 2 ^ 64 then some ⟨2 ^ 64 - 1, true, rest⟩
  else some ⟨if text.head? = some '-' then (2 ^ 64 - v) % 2 ^ 64 else v, false, rest⟩

def Whole (text : List Char) (v : Nat) : Prop := strtoull text = some ⟨v, false, []⟩

instance (text : List Char) (v : Nat) : Decidable (Whole text v) :=
  inferInstanceAs (Decidable (_ = _))

theorem takeWhile_of_rest {p : Char → Bool} {l : List Char} (rest : l.dropWhile p = []) :
    l.takeWhile p = l := by
  have split := takeWhile_append_dropWhile (p := p) (l := l)
  rwa [rest, append_nil] at split

/-- A text that does not begin with white space is taken as a whole just if all characters
behind its sign and the mark of its base are digits. -/
theorem whole_iff {text : List Char} {v : Nat} (front : text.dropWhile isSpace = text) :
    Whole text v ↔ ∃ base digits, splitBase (unsigned text) = (base, digits) ∧ digits ≠ [] ∧
      digits.all (isDigit base) = true ∧ numeral base digits < 2 ^ 64 ∧
        v = if text.head? = some '-' then (2 ^ 64 - numeral base digits) % 2 ^ 64
          else numeral base digits := by
  unfold Whole strtoull
  simp only [front]
  cases splitBase (unsigned text) with
  | mk base digits =>
    dsimp only
    constructor
    · intro scanned
      split at scanned
      · cases scanned
      rename_i some'
      split at scanned
      · cases scanned
      rename_i fits
      simp only [Option.some.injEq, Scan.mk.injEq, true_and] at scanned
      obtain ⟨rfl, rest⟩ := scanned
      have all := takeWhile_of_rest rest
      rw [all] at some' fits
      refine ⟨base, digits, rfl, some', ?_, Nat.lt_of_not_le fits, by rw [all]⟩
      rw [all_eq_true]
      exact takeWhile_eq_self_iff.mp all
    · rintro ⟨_, _, same, some', all, fits, rfl⟩
      cases same
      have each := all_eq_true.mp all
      rw [takeWhile_eq_self_iff.mpr each, dropWhile_eq_nil_iff.mpr each, if_neg some',
        if_neg (Nat.not_le_of_lt fits)]

/-! Bytes. -/

def leBytes : Nat → Nat → List (BitVec 8)
  | 0, _ => []
  | n + 1, v => BitVec.ofNat 8 v :: leBytes n (v / 256)

def leNat : List (BitVec 8) → Nat
  | [] => 0
  | b :: bs => b.toNat + 256 * leNat bs

@[simp] theorem length_leBytes (n v : Nat) : (leBytes n v).length = n := by
  induction n generalizing v with
  | zero => rfl
  | succ n ih => rw [leBytes, length_cons, ih]

theorem leNat_leBytes (n v : Nat) : leNat (leBytes n v) = v % 2 ^ (8 * n) := by
  induction n generalizing v with
  | zero => rw [leBytes, leNat, Nat.mul_zero, Nat.pow_zero, Nat.mod_one]
  | succ n ih =>
    rw [leBytes, leNat, ih, toNat_ofNat, Nat.mul_succ, Nat.pow_add, Nat.mul_comm (2 ^ (8 * n)),
      Nat.mod_mul]

theorem leBytes_mod (n v : Nat) : leBytes n (v % 2 ^ (n * 8)) = leBytes n v := by
  induction n generalizing v with
  | zero => rfl
  | succ n ih =>
    have high : v % 2 ^ ((n + 1) * 8) / 256 = v / 256 % 2 ^ (n * 8) := by
      rw [Nat.succ_mul, Nat.pow_add, Nat.mul_comm, Nat.mod_mul_right_div_self]
    have low : BitVec.ofNat 8 (v % 2 ^ ((n + 1) * 8)) = BitVec.ofNat 8 v := by
      apply eq_of_toNat_eq
      rw [toNat_ofNat, toNat_ofNat, Nat.mod_mod_of_dvd]
      exact Nat.pow_dvd_pow 2 (by omega)
    rw [leBytes, leBytes, low, high, ih]

/-- The number that bytes hold, extended by their sign or by zeros. -/
def extended (signed : Bool) (bs : List (BitVec 8)) : Int :=
  if signed then Int.bmod (leNat bs) (2 ^ (8 * bs.length)) else leNat bs

/-- A 64-bit value that a number of bytes can hold, read as signed or not. -/
def Representable (size : Nat) (signed : Bool) (v : Nat) : Prop :=
  if signed then
    -2 ^ (8 * size - 1) ≤ Int.bmod v (2 ^ 64) ∧ Int.bmod v (2 ^ 64) < 2 ^ (8 * size - 1)
  else v < 2 ^ (8 * size)

theorem extended_leBytes {size v : Nat} {signed : Bool} (bound : v < 2 ^ 64)
    (loads : size ∈ [1, 2, 4, 8]) (fits : Representable size signed v) :
    extended signed (leBytes size v) % 2 ^ 64 = v := by
  rw [extended, leNat_leBytes, length_leBytes]
  unfold Representable at fits
  simp only [Int.bmod_def] at fits ⊢
  cases signed with
  | false =>
    rw [if_neg Bool.false_ne_true] at fits ⊢
    rw [Nat.mod_eq_of_lt fits]
    omega
  | true =>
    rw [if_pos rfl] at fits ⊢
    simp only [mem_cons, not_mem_nil, or_false] at loads
    rcases loads with rfl | rfl | rfl | rfl <;> omega

end CNumber
