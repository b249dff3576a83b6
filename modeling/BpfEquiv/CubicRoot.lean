import Mathlib

/-!
The cube root of `bpf_cubic`: a table seed from the top bits of the argument, scaled back by the
exponent, and one Newton step. The seed depends on the exponent and six bits only, so its quality
is checked for each of them; between two seeds the error of the step is convex.
-/
namespace BpfEquiv.CubicRoot

def V : List Nat :=
  [0, 54, 54, 54, 118, 118, 118, 118, 123, 129, 134, 138, 143, 147, 151, 156, 157, 161, 164, 168,
    170, 173, 176, 179, 181, 185, 187, 190, 192, 194, 197, 199, 200, 202, 204, 206, 209, 211, 213,
    215, 217, 219, 221, 222, 224, 225, 227, 229, 231, 232, 234, 236, 237, 239, 240, 242, 244, 245,
    246, 248, 250, 251, 252, 254]

/-- One of the tests of `fls64`: are the upper `k` bits clear? -/
def flsStep (k : Nat) (s : Nat × BitVec 64) : Nat × BitVec 64 :=
  if s.2 &&& (BitVec.allOnes 64 <<< (64 - k)) = 0 then (s.1 - k, s.2 <<< k) else s

def fls64 (x : BitVec 64) : Nat :=
  if x = 0 then 0 else
  let s := flsStep 2 (flsStep 4 (flsStep 8 (flsStep 16 (flsStep 32 (63, x)))))
  let num := if s.2 &&& (BitVec.allOnes 64 <<< 63) = 0 then s.1 - 1 else s.1
  num + 1

def safeDivU64 (a b : Nat) : Nat :=
  if b ≠ 0 then a / b else 0

section

variable {m : Type → Type} [Monad m]

/-- The Newton step of `cubic_root`; `word` is the reduction of a result to `u32`. -/
def newtonWith (word : Int → m Nat) (a x : Nat) : m Nat := do
  let less ← word (x - 1)
  let twice ← word (2 * x)
  let quotient ← word (safeDivU64 a (x * less))
  let sum ← word (twice + quotient)
  let third ← word (sum * 341)
  pure (third >>> 10)

/-- `exit` is what is returned where the seed is not in the table. -/
def cubicRootWith (word : Int → m Nat) (exit : m Nat) (a : BitVec 64) : m Nat :=
  if a.toNat < 64 then do
    let sum ← word (V[a.toNat]?.getD 0 + 35)
    pure (sum >>> 6)
  else do
    let scaled ← word (fls64 a * 84)
    let b ← word ((scaled >>> 8 : Nat) - 1)
    let triple ← word (b * 3)
    let shift ← word (a.toNat >>> triple : Nat)
    if 64 ≤ shift then exit else
    let seed ← word (V[shift]?.getD 0 + 10)
    let x ← word (seed <<< b : Nat)
    newtonWith word a.toNat (x >>> 6)

end

def wrap32 (z : Int) : Id Nat := (z % 2 ^ 32).toNat

def fit32 (z : Int) : Option Nat := if 0 ≤ z ∧ z < 2 ^ 32 then some z.toNat else none

def cubicRoot (a : BitVec 64) : Nat := (cubicRootWith wrap32 (pure 0) a).run

/-- The same with a failure instead of a result that wraps, and instead of the early exit. -/
def cubicRootChecked (a : BitVec 64) : Option Nat := cubicRootWith fit32 none a

section HighestBit

variable {x : BitVec 64} {s : Nat × BitVec 64} {k : Nat}

theorem upper_clear_iff :
    x &&& (BitVec.allOnes 64 <<< (64 - k)) = 0 ↔ x.toNat < 2 ^ (64 - k) := by
  constructor
  · intro clear
    apply Nat.lt_pow_two_of_testBit
    intro i above
    by_cases inside : i < 64
    · have bit := congrArg (·.getLsbD i) clear
      show x.getLsbD i = false
      simpa only [BitVec.getLsbD_and, BitVec.getLsbD_shiftLeft, BitVec.getLsbD_allOnes, inside,
        Nat.not_lt.mpr above, Nat.sub_lt_of_lt inside, decide_true, decide_false, Bool.not_false,
        Bool.and_true, BitVec.ofNat_eq_ofNat, BitVec.getLsbD_zero] using bit
    · exact Nat.testBit_lt_two_pow (x.isLt.trans_le (Nat.pow_le_pow_right (by decide) (by omega)))
  · intro small
    apply BitVec.eq_of_getLsbD_eq
    intro i inside
    by_cases below : i < 64 - k
    · simp [below]
    · have off : x.toNat.testBit i = false :=
        Nat.testBit_lt_two_pow (small.trans_le (Nat.pow_le_pow_right (by decide) (by omega)))
      simp [BitVec.getLsbD, off]

/-- Where the walk of `fls64` stands: the value has been moved up, `num` says by how much, and the
highest bit is among the upper `k`. -/
structure Seeks (x : BitVec 64) (k : Nat) (s : Nat × BitVec 64) : Prop where
  high : 2 ^ (64 - k) ≤ s.2.toNat
  le : s.1 ≤ 63
  moved : s.2.toNat = x.toNat * 2 ^ (63 - s.1)

theorem Seeks.step (seeks : Seeks x (2 * k) s) (nonzero : x ≠ 0) (le : 2 * k ≤ 64) :
    Seeks x k (flsStep k s) := by
  unfold flsStep
  split
  · rename_i clear
    rw [upper_clear_iff] at clear
    have fits : s.2.toNat * 2 ^ k < 2 ^ 64 := by
      calc s.2.toNat * 2 ^ k < 2 ^ (64 - k) * 2 ^ k :=
        Nat.mul_lt_mul_of_pos_right clear (Nat.two_pow_pos k)
        _ = 2 ^ 64 := by rw [← Nat.pow_add, Nat.sub_add_cancel (by omega)]
    have shifted : (s.2 <<< k).toNat = s.2.toNat * 2 ^ k := by
      rw [BitVec.toNat_shiftLeft, Nat.shiftLeft_eq, Nat.mod_eq_of_lt fits]
    have room : 63 - s.1 < 64 - k := by
      apply (Nat.pow_lt_pow_iff_right (by decide : 1 < 2)).mp
      calc 2 ^ (63 - s.1) ≤ x.toNat * 2 ^ (63 - s.1) := Nat.le_mul_of_pos_left _ (by bv_omega)
        _ = s.2.toNat := seeks.moved.symm
        _ < 2 ^ (64 - k) := clear
    have kept := seeks.le
    refine ⟨?_, Nat.sub_le_of_le_add (by omega), ?_⟩
    · show 2 ^ (64 - k) ≤ (s.2 <<< k).toNat
      rw [shifted]
      calc 2 ^ (64 - k) = 2 ^ (64 - 2 * k) * 2 ^ k := by rw [← Nat.pow_add]; congr 1; omega
        _ ≤ s.2.toNat * 2 ^ k := Nat.mul_le_mul_right _ seeks.high
    show (s.2 <<< k).toNat = x.toNat * 2 ^ (63 - (s.1 - k))
    rw [shifted, seeks.moved, Nat.mul_assoc, ← Nat.pow_add]
    congr 2
    omega
  · rename_i set
    rw [upper_clear_iff] at set
    exact ⟨Nat.le_of_not_lt set, seeks.le, seeks.moved⟩

theorem fls64_of_ne (nonzero : x ≠ 0) : fls64 x = x.toNat.log2 + 1 := by
  have start : Seeks x 64 (63, x) := ⟨by bv_omega, le_refl 63, (Nat.mul_one _).symm⟩
  have last := (((((start.step (k := 32) nonzero (by decide)).step (k := 16) nonzero
    (by decide)).step (k := 8) nonzero (by decide)).step (k := 4) nonzero (by decide)).step
    (k := 2) nonzero (by decide)).step (k := 1) nonzero (by decide)
  have num : fls64 x =
      (flsStep 1 (flsStep 2 (flsStep 4 (flsStep 8 (flsStep 16 (flsStep 32 (63, x))))))).1
      + 1 := by
    unfold fls64
    rw [if_neg nonzero]
    generalize flsStep 2 _ = s
    show _ + 1 = (ite _ _ _ : Nat × BitVec 64).1 + 1
    rw [apply_ite Prod.fst]
  rw [num]
  revert last
  generalize flsStep 1 _ = s
  rintro ⟨high, le, moved⟩
  have split_ : 2 ^ 63 = 2 ^ s.1 * 2 ^ (63 - s.1) := by rw [← Nat.pow_add, Nat.add_sub_cancel' le]
  have bounds : 2 ^ s.1 ≤ x.toNat ∧ x.toNat < 2 ^ (s.1 + 1) := by
    have top := s.2.isLt
    rw [moved, show 2 ^ 64 = 2 ^ (s.1 + 1) * 2 ^ (63 - s.1) by rw [← Nat.pow_add]; congr 1; omega]
      at top
    rw [show 64 - 1 = 63 from rfl, moved, split_] at high
    exact ⟨Nat.le_of_mul_le_mul_right high (Nat.two_pow_pos _), Nat.lt_of_mul_lt_mul_right top⟩
  exact congrArg (· + 1) ((Nat.log2_eq_iff (by bv_omega)).mpr bounds).symm

end HighestBit

section Newton

variable {x q b n : Nat}

/-- The Newton step with quotient `q` is within the upper bound, for the least argument that gives
this quotient. -/
def NearAbove (x q : Int) : Prop :=
  (34100 * (2 * x + q) - 102400) ^ 3 ≤ (101 * 1024) ^ 3 * (q * (x * (x - 1)))

instance (x q : Int) : Decidable (NearAbove x q) := inferInstanceAs (Decidable (_ ≤ _))

/-- A cube stays below a line between two places where it is below it. -/
theorem NearAbove.between {x p q r : Int} (low : NearAbove x p) (high : NearAbove x r) (two : 2 ≤ x)
    (pos : 0 ≤ p) (from_ : p ≤ q) (upto : q ≤ r) : NearAbove x q := by
  unfold NearAbove at *
  set d := x * (x - 1)
  set u := 34100 * (2 * x + p) - 102400 with hu
  have u_pos : 0 ≤ u := by omega
  obtain ⟨s, rfl⟩ : ∃ s, q = p + s := ⟨q - p, by omega⟩
  obtain ⟨t, rfl⟩ : ∃ t, r = p + s + t := ⟨r - (p + s), by omega⟩
  have s_pos : 0 ≤ s := by omega
  have t_pos : 0 ≤ t := by omega
  rw [show 34100 * (2 * x + (p + s)) - 102400 = u + 34100 * s by omega]
  rw [show 34100 * (2 * x + (p + s + t)) - 102400 = u + 34100 * (s + t) by omega] at high
  rcases (add_nonneg s_pos t_pos).eq_or_lt with none | some
  · obtain rfl : s = 0 := by omega
    simpa using low
  have convex : (s + t) * (u + 34100 * s) ^ 3 ≤ t * u ^ 3 + s * (u + 34100 * (s + t)) ^ 3 := by
    have : t * u ^ 3 + s * (u + 34100 * (s + t)) ^ 3 - (s + t) * (u + 34100 * s) ^ 3
        = 34100 ^ 2 * (s * t * (s + t)) * (3 * u + 34100 * (2 * s + t)) := by ring
    have : 0 ≤ 34100 ^ 2 * (s * t * (s + t)) * (3 * u + 34100 * (2 * s + t)) := by positivity
    omega
  refine le_of_mul_le_mul_left ?_ some
  calc (s + t) * (u + 34100 * s) ^ 3 ≤ t * u ^ 3 + s * (u + 34100 * (s + t)) ^ 3 := convex
    _ ≤ t * ((101 * 1024) ^ 3 * (p * d)) + s * ((101 * 1024) ^ 3 * ((p + s + t) * d)) :=
      add_le_add (mul_le_mul_of_nonneg_left low t_pos) (mul_le_mul_of_nonneg_left high s_pos)
    _ = (s + t) * ((101 * 1024) ^ 3 * ((p + s) * d)) := by ring

def seed (b shift : Nat) : Nat := ((V[shift]?.getD 0 + 10) <<< b) >>> 6

/-- What is needed of the seed for the arguments `shift * 8 ^ b` up to `(shift + 1) * 8 ^ b`. -/
def SeedOk (b shift : Nat) : Prop :=
  let x := seed b shift
  let d := x * (x - 1)
  2 ≤ x ∧ NearAbove x (shift * 8 ^ b / d : Nat) ∧ NearAbove x ((shift + 1) * 8 ^ b / d : Nat) ∧
    (2 * x + (shift + 1) * 8 ^ b / d) * 341 < 2 ^ 32

instance (b shift : Nat) : Decidable (SeedOk b shift) := inferInstanceAs (Decidable (_ ∧ _))

theorem seeds_ok : ∀ b < 20, ∀ s < 56, SeedOk (b + 1) (s + 8) := by
  decide +kernel

/-- One percent and one: the bounds on the root, cubed. -/
def Near (root : Int) (a : Nat) : Prop :=
  (100 * (root - 1)) ^ 3 ≤ 101 ^ 3 * a ∧ 99 ^ 3 * a ≤ (100 * (root + 1)) ^ 3

instance (root : Int) (a : Nat) : Decidable (Near root a) := inferInstanceAs (Decidable (_ ∧ _))

def newton (x a : Nat) : Nat := ((2 * x + a / (x * (x - 1))) * 341) >>> 10

theorem newton_near {x a : Nat} (two : 2 ≤ x) (above : NearAbove x (a / (x * (x - 1)) : Nat)) :
    Near (newton x a) a := by
  obtain ⟨y, rfl⟩ : ∃ y, x = y + 1 := ⟨x - 1, by omega⟩
  rw [Nat.add_sub_cancel] at above
  have d_pos : 0 < (y + 1) * y := Nat.mul_pos (by omega) (by omega)
  have least := Nat.div_mul_le_self a ((y + 1) * y)
  have most := Nat.lt_div_mul_add (a := a) d_pos
  have root : newton (y + 1) a = (2 * (y + 1) + a / ((y + 1) * y)) * 341 / 1024 := by
    rw [newton, Nat.add_sub_cancel, Nat.shiftRight_eq_div_pow]
  revert above least most root
  generalize a / ((y + 1) * y) = q
  generalize newton (y + 1) a = r
  intro above least most root
  constructor
  · -- the quotient is rounded down, so the argument is at least the one of `NearAbove`
    have scaled : (1024 * (100 * ((r : Int) - 1))) ^ 3 ≤ 1024 ^ 3 * (101 ^ 3 * a) := by
      calc (1024 * (100 * ((r : Int) - 1))) ^ 3
          ≤ (34100 * (2 * ((y + 1 : Nat) : Int) + q) - 102400) ^ 3 :=
            (Odd.strictMono_pow (by decide)).monotone (by omega)
        _ ≤ (101 * 1024) ^ 3 * (q * (((y + 1 : Nat) : Int) * ((y + 1 : Nat) - 1))) := above
        _ = 1024 ^ 3 * (101 ^ 3 * ((q * ((y + 1) * y) : Nat) : Int)) := by push_cast; ring
        _ ≤ 1024 ^ 3 * (101 ^ 3 * a) := by gcongr
    rw [mul_pow] at scaled
    exact le_of_mul_le_mul_left scaled (by decide)
  · -- the mean of `x`, `x - 1` and `q + 1` is at least their geometric mean
    have mean : 27 * ((y + 1) * y * (q + 1)) ≤ (2 * (y + 1) + q) ^ 3 := by
      zify
      nlinarith [mul_nonneg (by positivity : (0 : Int) ≤ 2 * (y + 1) + q)
        (sq_nonneg ((y : Int) - q - 1)),
        mul_nonneg (by positivity : (0 : Int) ≤ 2 * (y + 1) + q) (sq_nonneg ((y : Int) - q)),
        mul_nonneg (by positivity : (0 : Int) ≤ 2 * (y + 1) + q) (sq_nonneg (1 : Int))]
    have scaled : 1024 ^ 3 * (99 ^ 3 * a) ≤ (1024 * (100 * (r + 1))) ^ 3 := by
      calc 1024 ^ 3 * (99 ^ 3 * a) ≤ 34100 ^ 3 * (27 * ((y + 1) * y * (q + 1))) := by nlinarith
        _ ≤ 34100 ^ 3 * (2 * (y + 1) + q) ^ 3 := Nat.mul_le_mul_left _ mean
        _ = (34100 * (2 * (y + 1) + q)) ^ 3 := (mul_pow _ _ 3).symm
        _ ≤ (1024 * (100 * (r + 1))) ^ 3 := Nat.pow_le_pow_left (by omega) 3
    rw [mul_pow] at scaled
    exact_mod_cast Nat.le_of_mul_le_mul_left scaled (by decide)

theorem near_small : ∀ n < 64, Near ((V[n]?.getD 0 + 35) >>> 6 : Nat) n := by
  decide +kernel

open Real in
theorem Near.real {root a : Nat} (near : Near root a) :
    |(root : ℝ) - (a : ℝ) ^ (1 / 3 : ℝ)| ≤ 1 + (a : ℝ) ^ (1 / 3 : ℝ) / 100 := by
  obtain ⟨above, below⟩ := near
  have cube : ((a : ℝ) ^ (1 / 3 : ℝ)) ^ 3 = a := by
    rw [← rpow_natCast, ← rpow_mul a.cast_nonneg]
    norm_num
  revert cube
  generalize (a : ℝ) ^ (1 / 3 : ℝ) = c
  intro cube
  have mono : StrictMono fun t : ℝ => t ^ 3 := Odd.strictMono_pow (by decide)
  have above' : 100 * ((root : ℝ) - 1) ≤ 101 * c := by
    refine mono.le_iff_le.mp ?_
    show (100 * ((root : ℝ) - 1)) ^ 3 ≤ (101 * c) ^ 3
    rw [mul_pow 101, cube]
    exact_mod_cast above
  have below' : 99 * c ≤ 100 * ((root : ℝ) + 1) := by
    refine mono.le_iff_le.mp ?_
    show (99 * c) ^ 3 ≤ (100 * ((root : ℝ) + 1)) ^ 3
    rw [mul_pow 99, cube]
    exact_mod_cast below
  rw [abs_le]
  constructor <;> linarith

end Newton

section Run

variable {m : Type → Type} [Monad m] [LawfulMonad m] {word : Int → m Nat} {exit : m Nat}

omit [LawfulMonad m] in
theorem word_eq (fits : ∀ n : Nat, n < 2 ^ 32 → word n = pure n) {z : Int} {n : Nat} (eq : z = n)
    (lt : n < 2 ^ 32) : word z = pure n := by
  rw [eq, fits n lt]

theorem cubicRootWith_small (fits : ∀ n : Nat, n < 2 ^ 32 → word n = pure n) {a : BitVec 64}
    (small : a.toNat < 64) :
    cubicRootWith word exit a = pure ((V[a.toNat]?.getD 0 + 35) >>> 6) := by
  have entry : ∀ n < 64, V[n]?.getD 0 + 35 < 2 ^ 32 := by decide
  rw [cubicRootWith, if_pos small, word_eq fits (by omega) (entry _ small), pure_bind]

theorem newtonWith_eq (fits : ∀ n : Nat, n < 2 ^ 32 → word n = pure n) {a x : Nat} (two : 2 ≤ x)
    (room : (2 * x + a / (x * (x - 1))) * 341 < 2 ^ 32) :
    newtonWith word a x = pure (newton x a) := by
  have divided : safeDivU64 a (x * (x - 1)) = a / (x * (x - 1)) :=
    if_pos (Nat.mul_pos (by omega) (by omega)).ne'
  rw [newtonWith, word_eq fits (n := x - 1) (by omega) (by omega), pure_bind,
    word_eq fits (n := 2 * x) (by omega) (by omega), pure_bind, divided,
    fits _ (by omega), pure_bind,
    word_eq fits (n := 2 * x + a / (x * (x - 1))) (by omega) (by omega), pure_bind,
    word_eq fits (n := (2 * x + a / (x * (x - 1))) * 341) (by omega) room, pure_bind]
  rfl

/-- The exponent and the six bits of an argument that is not in the table. -/
theorem exponent {a : BitVec 64} (large : 64 ≤ a.toNat) :
    ∃ b s, b < 20 ∧ s < 56 ∧ fls64 a * 84 / 256 = b + 2 ∧ a.toNat / 8 ^ (b + 1) = s + 8 := by
  have nonzero : a.toNat ≠ 0 := by omega
  have high : 6 ≤ a.toNat.log2 := (Nat.le_log2 nonzero).mpr large
  have low : a.toNat.log2 < 64 := (Nat.log2_lt nonzero).mpr a.isLt
  have bits : fls64 a = a.toNat.log2 + 1 := fls64_of_ne (by bv_omega)
  have least := Nat.log2_self_le nonzero
  have most := Nat.lt_log2_self (n := a.toNat)
  obtain ⟨b, is⟩ : ∃ b, fls64 a * 84 / 256 = b + 2 := ⟨fls64 a * 84 / 256 - 2, by omega⟩
  have from_ : 3 * (b + 1) + 3 ≤ a.toNat.log2 := by omega
  have upto : a.toNat.log2 + 1 ≤ 3 * (b + 1) + 6 := by omega
  have pow : (8 : Nat) ^ (b + 1) = 2 ^ (3 * (b + 1)) := by rw [Nat.pow_mul]
  have eight : 8 ≤ a.toNat / 8 ^ (b + 1) := by
    rw [pow, Nat.le_div_iff_mul_le (Nat.two_pow_pos _)]
    calc 8 * 2 ^ (3 * (b + 1)) = 2 ^ (3 * (b + 1) + 3) := by rw [Nat.pow_add, Nat.mul_comm]
      _ ≤ 2 ^ a.toNat.log2 := Nat.pow_le_pow_right (by decide) from_
      _ ≤ a.toNat := least
  have below : a.toNat / 8 ^ (b + 1) < 64 := by
    rw [pow, Nat.div_lt_iff_lt_mul (Nat.two_pow_pos _)]
    calc a.toNat < 2 ^ (a.toNat.log2 + 1) := most
      _ ≤ 2 ^ (3 * (b + 1) + 6) := Nat.pow_le_pow_right (by decide) upto
      _ = 64 * 2 ^ (3 * (b + 1)) := by rw [Nat.pow_add, Nat.mul_comm]
  exact ⟨b, a.toNat / 8 ^ (b + 1) - 8, by omega, by omega, is, by omega⟩

theorem quotient_between {a b s : Nat} (top : a / 8 ^ (b + 1) = s + 8) (d : Nat) :
    (s + 8) * 8 ^ (b + 1) / d ≤ a / d ∧ a / d ≤ (s + 8 + 1) * 8 ^ (b + 1) / d := by
  have least := Nat.div_mul_le_self a (8 ^ (b + 1))
  have most := Nat.lt_div_mul_add (a := a) (Nat.pow_pos (n := b + 1) (by decide : 0 < 8))
  rw [top] at least most
  exact ⟨Nat.div_le_div_right least, Nat.div_le_div_right (by rw [Nat.succ_mul]; exact most.le)⟩

theorem cubicRootWith_large (fits : ∀ n : Nat, n < 2 ^ 32 → word n = pure n)
    {a : BitVec 64} {b s : Nat}
    (large : 64 ≤ a.toNat) (b_lt : b < 20) (s_lt : s < 56) (is : fls64 a * 84 / 256 = b + 2)
    (top : a.toNat / 8 ^ (b + 1) = s + 8) :
    cubicRootWith word exit a = pure (newton (seed (b + 1) (s + 8)) a.toNat) := by
  obtain ⟨two, -, -, room⟩ := seeds_ok b b_lt s s_lt
  have upto := (quotient_between top (seed (b + 1) (s + 8) * (seed (b + 1) (s + 8) - 1))).2
  have entry : ∀ n < 64, V[n]?.getD 0 + 10 < 512 := by decide
  have shifted : (V[s + 8]?.getD 0 + 10) <<< (b + 1) < 2 ^ 32 := by
    rw [Nat.shiftLeft_eq]
    calc (V[s + 8]?.getD 0 + 10) * 2 ^ (b + 1) < 512 * 2 ^ (b + 1) :=
          Nat.mul_lt_mul_of_pos_right (entry _ (by omega)) (Nat.two_pow_pos _)
      _ ≤ 512 * 2 ^ 20 := Nat.mul_le_mul_left _ (Nat.pow_le_pow_right (by decide) (by omega))
      _ < 2 ^ 32 := by decide
  have small : a.toNat >>> ((b + 1) * 3) = s + 8 := by
    rw [Nat.shiftRight_eq_div_pow, Nat.mul_comm, Nat.pow_mul]
    exact top
  have exp : (fls64 a * 84) >>> 8 = b + 2 := by rw [Nat.shiftRight_eq_div_pow, ← is]
  rw [cubicRootWith, if_neg (by omega), word_eq fits (n := fls64 a * 84) (by omega) (by omega),
    pure_bind, exp, word_eq fits (n := b + 1) (by omega) (by omega), pure_bind,
    word_eq fits (n := (b + 1) * 3) (by omega) (by omega), pure_bind, small,
    fits _ (by omega), pure_bind,
    if_neg (by omega), word_eq fits (n := V[s + 8]?.getD 0 + 10) (by omega)
      (by have := entry (s + 8) (by omega); omega), pure_bind, fits _ shifted, pure_bind]
  exact newtonWith_eq fits two
    ((Nat.mul_le_mul_right 341 (Nat.add_le_add_left upto _)).trans_lt room)

end Run

/-- Every argument has a root near the real one that both arithmetics compute. -/
theorem root_of (a : BitVec 64) : ∃ root : Nat, Near root a.toNat ∧
    cubicRootChecked a = some root ∧ cubicRoot a = root := by
  have wraps (n : Nat) (lt : n < 2 ^ 32) : wrap32 n = pure n := by
    show ((n : Int) % 2 ^ 32).toNat = n
    omega
  have fits (n : Nat) (lt : n < 2 ^ 32) : fit32 n = pure n := if_pos ⟨by omega, by omega⟩
  by_cases small : a.toNat < 64
  · exact ⟨_, near_small _ small, cubicRootWith_small fits small, cubicRootWith_small wraps small⟩
  obtain ⟨b, s, b_lt, s_lt, is, top⟩ := exponent (Nat.le_of_not_lt small)
  obtain ⟨two, low, high, -⟩ := seeds_ok b b_lt s s_lt
  obtain ⟨from_, upto⟩ := quotient_between top (seed (b + 1) (s + 8) * (seed (b + 1) (s + 8) - 1))
  have above := low.between high (by omega) (Int.natCast_nonneg _) (Int.ofNat_le.mpr from_)
    (Int.ofNat_le.mpr upto)
  exact ⟨_, newton_near two above,
    cubicRootWith_large fits (Nat.le_of_not_lt small) b_lt s_lt is top,
    cubicRootWith_large wraps (Nat.le_of_not_lt small) b_lt s_lt is top⟩

/-- The cube root is computed without a wrap and without the exit for large seeds, and is within one
and one percent of the real cube root; `fls64` is the place of the highest bit. -/
theorem cubic_root_accurate (a : BitVec 64) :
    cubicRootChecked a = some (cubicRoot a) ∧
      |(cubicRoot a : ℝ) - (a.toNat : ℝ) ^ (1 / 3 : ℝ)| ≤ 1 + (a.toNat : ℝ) ^ (1 / 3 : ℝ) / 100 ∧
      fls64 a = if a = 0 then 0 else a.toNat.log2 + 1 := by
  obtain ⟨root, near, checked, rfl⟩ := root_of a
  refine ⟨checked, near.real, ?_⟩
  split
  · rename_i zero
    rw [zero]
    rfl
  · rename_i nonzero
    exact fls64_of_ne nonzero

end BpfEquiv.CubicRoot
