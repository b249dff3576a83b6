import Mathlib

/-!
Layout of aggregates by the C representation.

The members of a struct are placed in order, each at the next multiple of its alignment, or
right behind the one before it in a packed struct. The size is what they take, rounded up to
the largest alignment. Where the members are to go is known beforehand here, and the layout
puts them there exactly when none of them leaves a gap as wide as its alignment.
-/
namespace ReprC

open List

structure Layout where
  size : Nat
  align : Nat
  deriving DecidableEq

def roundUp (n a : Nat) : Nat := (n + a - 1) / a * a

theorem roundUp_eq_iff {n a k : Nat} (pos : 0 < a) :
    roundUp n a = k ↔ a ∣ k ∧ n ≤ k ∧ k < n + a := by
  have split := Nat.div_add_mod (n + a - 1) a
  have small := Nat.mod_lt (n + a - 1) pos
  have product : a * ((n + a - 1) / a) = roundUp n a := Nat.mul_comm ..
  have bounds : n ≤ roundUp n a ∧ roundUp n a < n + a := by omega
  have multiple : a ∣ roundUp n a := Nat.dvd_mul_left ..
  constructor
  · rintro rfl
    exact ⟨multiple, bounds⟩
  rintro ⟨dvd, low, high⟩
  -- two multiples closer to each other than one step
  obtain ⟨x, hx⟩ := multiple
  obtain ⟨y, rfl⟩ := dvd
  rw [hx] at bounds ⊢
  have upper : a * x < a * (y + 1) := by
    rw [Nat.mul_add, Nat.mul_one]
    omega
  have lower : a * y < a * (x + 1) := by
    rw [Nat.mul_add, Nat.mul_one]
    omega
  have first := Nat.lt_of_mul_lt_mul_left upper
  have second := Nat.lt_of_mul_lt_mul_left lower
  rw [show x = y by omega]

@[simp] theorem roundUp_one (n : Nat) : roundUp n 1 = n := by
  simp [roundUp]

/-- Where the next member goes when the ones before it end at a place. -/
def next (packed : Bool) (fin : Nat) (l : Layout) : Nat :=
  if packed then fin else roundUp fin l.align

def offsets (packed : Bool) : Nat → List Layout → List Nat
  | _, [] => []
  | fin, l :: ls => next packed fin l :: offsets packed (next packed fin l + l.size) ls

def extent (packed : Bool) : Nat → List Layout → Nat
  | fin, [] => fin
  | fin, l :: ls => extent packed (next packed fin l + l.size) ls

def alignment (packed : Bool) (ls : List Layout) : Nat :=
  if packed then 1 else ls.foldl (fun a l => max a l.align) 1

theorem le_foldl_align (a : Nat) (ls : List Layout) :
    a ≤ ls.foldl (fun a l => max a l.align) a := by
  induction ls generalizing a with
  | nil => exact le_rfl
  | cons l ls ih => exact (le_max_left a l.align).trans (ih _)

theorem alignment_pos (packed : Bool) (ls : List Layout) : 0 < alignment packed ls := by
  unfold alignment
  split
  · exact Nat.one_pos
  · exact le_foldl_align 1 ls

def struct (packed : Bool) (ls : List Layout) : Layout where
  size := roundUp (extent packed 0 ls) (alignment packed ls)
  align := alignment packed ls

def union (ls : List Layout) : Layout where
  size := roundUp (ls.foldl (fun s l => max s l.size) 0) (alignment false ls)
  align := alignment false ls

def lastEnd (fin : Nat) (ps : List (Nat × Layout)) : Nat :=
  ps.foldl (fun _ p => p.1 + p.2.size) fin

/-- Placed members without a gap that their alignment does not call for. -/
def Snug (packed : Bool) : Nat → List (Nat × Layout) → Prop
  | _, [] => True
  | fin, p :: ps =>
    (if packed then p.1 = fin else fin ≤ p.1 ∧ p.1 < fin + p.2.align) ∧
      Snug packed (p.1 + p.2.size) ps

instance decidableSnug (packed : Bool) : (fin : Nat) → (ps : List (Nat × Layout)) →
    Decidable (Snug packed fin ps)
  | _, [] => inferInstanceAs (Decidable True)
  | fin, p :: ps =>
    have := decidableSnug packed (p.1 + p.2.size) ps
    inferInstanceAs (Decidable ((if packed then p.1 = fin else fin ≤ p.1 ∧ p.1 < fin + p.2.align) ∧
      Snug packed (p.1 + p.2.size) ps))

section Placed
variable {packed : Bool} {ps : List (Nat × Layout)} {fin : Nat}

theorem next_eq_iff {p : Nat × Layout}
    (aligned : packed = false → 0 < p.2.align ∧ p.2.align ∣ p.1) :
    next packed fin p.2 = p.1 ↔
      if packed then p.1 = fin else fin ≤ p.1 ∧ p.1 < fin + p.2.align := by
  cases packed with
  | true => exact eq_comm
  | false =>
    obtain ⟨pos, dvd⟩ := aligned rfl
    rw [next, if_neg Bool.false_ne_true, if_neg Bool.false_ne_true, roundUp_eq_iff pos]
    exact and_iff_right dvd

/-- Members at multiples of their alignments are where the layout puts them exactly when
they are snug. -/
theorem offsets_eq_iff
    (aligned : packed = false → ∀ p ∈ ps, 0 < p.2.align ∧ p.2.align ∣ p.1) :
    offsets packed fin (ps.map Prod.snd) = ps.map Prod.fst ↔ Snug packed fin ps := by
  induction ps generalizing fin with
  | nil => exact iff_of_true rfl trivial
  | cons p ps ih =>
    have here : next packed fin p.2 = p.1 ↔ _ :=
      next_eq_iff fun unpacked => aligned unpacked p (.head _)
    have later := @ih (p.1 + p.2.size) fun unpacked q member =>
      aligned unpacked q (.tail p member)
    rw [map_cons, map_cons, offsets, List.cons.injEq, Snug]
    constructor
    · rintro ⟨place, rest⟩
      rw [place] at rest
      exact ⟨here.mp place, later.mp rest⟩
    rintro ⟨tight, rest⟩
    have place := here.mpr tight
    rw [place]
    exact ⟨rfl, later.mpr rest⟩

theorem extent_eq (placed : offsets packed fin (ps.map Prod.snd) = ps.map Prod.fst) :
    extent packed fin (ps.map Prod.snd) = lastEnd fin ps := by
  induction ps generalizing fin with
  | nil => rfl
  | cons p ps ih =>
    rw [map_cons, map_cons, offsets, List.cons.injEq] at placed
    obtain ⟨place, rest⟩ := placed
    rw [place] at rest
    rw [map_cons, extent, place]
    exact ih rest

end Placed

end ReprC
