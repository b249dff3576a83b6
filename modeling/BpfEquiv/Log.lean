import Mathlib

/-!
A log of tagged records in byte memory.

A record is a tag, a 16-bit length and a payload. A log is written over some
background from address zero on. What the memory is over every background determines
the log.
-/
namespace Log

open List BitVec

structure Record where
  tag : BitVec 8
  payload : List (BitVec 8)
  deriving DecidableEq

def Record.bytes (r : Record) : List (BitVec 8) :=
  r.tag :: BitVec.ofNat 8 r.payload.length :: BitVec.ofNat 8 (r.payload.length / 256) :: r.payload

variable {bs cs : List (BitVec 8)} {rs ts : List Record}

def encode (rs : List Record) : List (BitVec 8) := rs.flatMap Record.bytes

def overlay (bs : List (BitVec 8)) (base : BitVec 64 → BitVec 8) : BitVec 64 → BitVec 8 :=
  fun i => bs.getD i.toNat (base i)

/-! Writing. -/

theorem overlay_snoc (bs : List (BitVec 8)) (b : BitVec 8) (base : BitVec 64 → BitVec 8)
    (room : bs.length < 2 ^ 64) :
    overlay (bs ++ [b]) base =
      fun i => if i = BitVec.ofNat 64 bs.length then b else overlay bs base i := by
  funext i
  have here : i = BitVec.ofNat 64 bs.length ↔ i.toNat = bs.length := by
    constructor
    · intro at'
      rw [at', toNat_ofNat, Nat.mod_eq_of_lt room]
    · intro at'
      rw [← at', ofNat_toNat, setWidth_eq]
  simp only [overlay, here, getD_eq_getElem?_getD]
  rcases Nat.lt_trichotomy i.toNat bs.length with before | at' | behind
  · rw [List.getElem?_append_left before, if_neg (Nat.ne_of_lt before)]
  · rw [if_pos at', at', List.getElem?_concat_length]
    rfl
  · rw [if_neg (Nat.ne_of_gt behind), List.getElem?_eq_none (by simp; omega),
      List.getElem?_eq_none (by omega)]

/-! Reading back. -/

theorem Record.bytes_append_inj {r t : Record} (hr : r.payload.length < 65536)
    (ht : t.payload.length < 65536) (same : r.bytes ++ bs = t.bytes ++ cs) : r = t ∧ bs = cs := by
  simp only [Record.bytes, List.cons_append, List.cons.injEq] at same
  obtain ⟨tag, low, high, rest⟩ := same
  have length : r.payload.length = t.payload.length := by
    have low' := congrArg BitVec.toNat low
    have high' := congrArg BitVec.toNat high
    simp only [toNat_ofNat] at low' high'
    omega
  obtain ⟨payload, tail⟩ := append_inj rest length
  cases r
  cases t
  cases tag
  cases payload
  exact ⟨rfl, tail⟩

/-- A record starts with its length, so no log of records is cut in two ways. -/
theorem encode_inj (hr : ∀ r ∈ rs, r.payload.length < 65536)
    (ht : ∀ t ∈ ts, t.payload.length < 65536) (same : encode rs = encode ts) : rs = ts := by
  induction rs generalizing ts with
  | nil =>
    cases ts with
    | nil => rfl
    | cons t ts => cases same
  | cons r rs ih =>
    cases ts with
    | nil => cases same
    | cons t ts =>
      obtain ⟨rfl, rest⟩ := Record.bytes_append_inj (hr r (.head _)) (ht t (.head _)) same
      rw [ih (fun x member => hr x (.tail _ member)) (fun x member => ht x (.tail _ member)) rest]

/-- Where the bytes end the background shows, so equal memory over every background means
that neither list is longer. -/
theorem length_le_of_overlay (room : cs.length ≤ 2 ^ 64)
    (same : ∀ base, overlay bs base = overlay cs base) : cs.length ≤ bs.length := by
  by_contra longer
  have inside : bs.length < cs.length := by omega
  have at' := congrFun (same fun _ => cs.getD bs.length 0 + 1) (BitVec.ofNat 64 bs.length)
  simp only [overlay, BitVec.toNat_ofNat, Nat.mod_eq_of_lt (Nat.lt_of_lt_of_le inside room),
    getD_eq_getElem?_getD, List.getElem?_eq_none (Nat.le_refl bs.length),
    List.getElem?_eq_getElem inside, Option.getD_none, Option.getD_some] at at'
  have one : (1 : BitVec 8) = 0 := BitVec.add_right_eq_self.mp at'
  exact absurd one (by decide)

theorem eq_of_overlay_forall (roomB : bs.length ≤ 2 ^ 64)
    (roomC : cs.length ≤ 2 ^ 64) (same : ∀ base, overlay bs base = overlay cs base) :
    bs = cs := by
  have length : bs.length = cs.length :=
    Nat.le_antisymm (length_le_of_overlay roomB fun base => (same base).symm)
      (length_le_of_overlay roomC same)
  refine ext_getElem length fun k inside inside' => ?_
  have at' := congrFun (same fun _ => 0) (BitVec.ofNat 64 k)
  rw [overlay, overlay, toNat_ofNat, Nat.mod_eq_of_lt (Nat.lt_of_lt_of_le inside roomB)] at at'
  simpa [inside, inside'] using at'

end Log
