import BpfEquiv.Elf
import BpfEquiv.Exc

/-!
Instruction slots.

A section of code is a row of slots of eight bytes. The decoder goes from the first slot to
the next, over two slots where the instruction has a 64-bit immediate. Here the same is said
by position: which slots start an instruction, and which instruction a slot holds.
-/
namespace BpfEquiv

open List

variable {relocs : Nat → Option Reloc} {elf : Elf} {start i : Nat} {data : List Byte}
  {insns : List (Option Insn)}

def slotByte (data : List Byte) (i k : Nat) : Byte := data.getD (8 * i + k) 0

def slotInsn (reloc : Option Reloc) (data : List Byte) (i : Nat) (hi : BitVec 32) : Insn :=
  insnOf reloc (slotByte data i 0) (slotByte data i 1) (slotByte data i 2) (slotByte data i 3)
    (slotByte data i 4) (slotByte data i 5) (slotByte data i 6) (slotByte data i 7) hi

def isWide (data : List Byte) (i : Nat) : Bool := slotByte data i 0 = 0x18

/-- The upper half of a 64-bit immediate, which is in the slot behind. -/
def slotHigh (data : List Byte) (i : Nat) : BitVec 32 :=
  if isWide data i then
    slotByte data (i + 1) 7 ++ slotByte data (i + 1) 6 ++ slotByte data (i + 1) 5 ++
      slotByte data (i + 1) 4
  else 0

/-- Whether an instruction starts in a slot: it is not the second one of another. -/
def isStart (data : List Byte) : Nat → Bool
  | 0 => true
  | i + 1 => !(isStart data i && isWide data i)

/-- What the decoder has for a slot. -/
def slotAt (relocs : Nat → Option Reloc) (data : List Byte) (i : Nat) : Option Insn :=
  if isStart data i then some (slotInsn (relocs (i * 8)) data i (slotHigh data i)) else none

section Tail
variable (b0 b1 b2 b3 b4 b5 b6 b7 : Byte) (rest : List Byte)

theorem slotByte_tail (i k : Nat) :
    slotByte (b0 :: b1 :: b2 :: b3 :: b4 :: b5 :: b6 :: b7 :: rest) (i + 1) k =
      slotByte rest i k := by
  have shift : 8 * (i + 1) + k = 8 * i + k + 8 := by omega
  simp only [slotByte, shift, getD_cons_succ]

theorem isWide_tail (i : Nat) :
    isWide (b0 :: b1 :: b2 :: b3 :: b4 :: b5 :: b6 :: b7 :: rest) (i + 1) = isWide rest i := by
  rw [isWide, isWide, slotByte_tail]

theorem slotInsn_tail (reloc : Option Reloc) (i : Nat) (hi : BitVec 32) :
    slotInsn reloc (b0 :: b1 :: b2 :: b3 :: b4 :: b5 :: b6 :: b7 :: rest) (i + 1) hi =
      slotInsn reloc rest i hi := by
  simp only [slotInsn, slotByte_tail]

theorem slotHigh_tail (i : Nat) :
    slotHigh (b0 :: b1 :: b2 :: b3 :: b4 :: b5 :: b6 :: b7 :: rest) (i + 1) = slotHigh rest i := by
  simp only [slotHigh, isWide_tail, slotByte_tail]

theorem isWide_head :
    isWide (b0 :: b1 :: b2 :: b3 :: b4 :: b5 :: b6 :: b7 :: rest) 0 = decide (b0 = 0x18) :=
  rfl

theorem isStart_tail (narrow : b0 ≠ 0x18) (i : Nat) :
    isStart (b0 :: b1 :: b2 :: b3 :: b4 :: b5 :: b6 :: b7 :: rest) (i + 1) = isStart rest i := by
  induction i with
  | zero => simp only [isStart, isWide_head, decide_eq_false narrow, Bool.and_false, Bool.not_false]
  | succ i ih => rw [isStart, ih, isWide_tail, isStart]

/-- Behind a 64-bit immediate the next instruction starts two slots on. -/
theorem isStart_tail_two (c0 c1 c2 c3 c4 c5 c6 c7 : Byte) (wide : b0 = 0x18) (i : Nat) :
    isStart (b0 :: b1 :: b2 :: b3 :: b4 :: b5 :: b6 :: b7 ::
      c0 :: c1 :: c2 :: c3 :: c4 :: c5 :: c6 :: c7 :: rest) (i + 2) = isStart rest i := by
  subst wide
  induction i with
  | zero => rfl
  | succ i ih => rw [isStart, ih, isWide_tail, isWide_tail, isStart]

end Tail

theorem whole_slot (h : 8 ≤ data.length) : ∃ b0 b1 b2 b3 b4 b5 b6 b7 rest,
    data = b0 :: b1 :: b2 :: b3 :: b4 :: b5 :: b6 :: b7 :: rest := by
  match data, h with
  | b0 :: b1 :: b2 :: b3 :: b4 :: b5 :: b6 :: b7 :: rest, _ =>
    exact ⟨b0, b1, b2, b3, b4, b5, b6, b7, rest, rfl⟩

theorem decodeSlots_at (h : decodeSlots relocs start data = .ok insns) :
    insns.length = data.length / 8 ∧ ∀ i < data.length / 8,
      insns[i]? = some (slotAt (fun off => relocs (start * 8 + off)) data i) := by
  fun_induction decodeSlots relocs start data generalizing insns with
  | case1 start b1 b2 b3 b4 b5 b6 b7 d0 d1 d2 d3 c4 c5 c6 c7 rest ih =>
    cases decoded : decodeSlots relocs (start + 2) rest with
    | error msg => simp [decoded, bind, Except.bind] at h
    | ok later =>
      simp only [decoded, bind, Except.bind, pure, Except.pure, Except.ok.injEq] at h
      subst h
      obtain ⟨length, each⟩ := ih decoded
      refine ⟨by simp only [length_cons]; omega, fun i inside => ?_⟩
      match i with
      | 0 => rfl
      | 1 => rfl
      | i + 2 =>
        have place : (start + 2) * 8 + i * 8 = start * 8 + (i + 2) * 8 := by omega
        rw [List.getElem?_cons_succ, List.getElem?_cons_succ,
          each i (by simp only [length_cons] at inside; omega)]
        simp only [slotAt, isStart_tail_two _ _ _ _ _ _ _ _ _ _ _ _ _ _ _ _ _ rfl,
          slotInsn_tail, slotHigh_tail, place]
  | case2 => cases h
  | case3 start b0 b1 b2 b3 b4 b5 b6 b7 rest narrow ih =>
    cases decoded : decodeSlots relocs (start + 1) rest with
    | error msg => simp [decoded, bind, Except.bind] at h
    | ok later =>
      simp only [decoded, bind, Except.bind, pure, Except.pure, Except.ok.injEq] at h
      subst h
      obtain ⟨length, each⟩ := ih decoded
      refine ⟨by simp only [length_cons]; omega, fun i inside => ?_⟩
      match i with
      | 0 =>
        rw [slotAt, slotHigh, isWide_head, decide_eq_false narrow]
        rfl
      | i + 1 =>
        have place : (start + 1) * 8 + i * 8 = start * 8 + (i + 1) * 8 := by omega
        rw [List.getElem?_cons_succ, each i (by simp only [length_cons] at inside; omega)]
        simp only [slotAt, isStart_tail _ _ _ _ _ _ _ _ _ narrow, slotInsn_tail, slotHigh_tail,
          place]
  | case4 data start short =>
    cases h
    have none' : data.length / 8 = 0 := by
      by_contra some'
      obtain ⟨b0, b1, b2, b3, b4, b5, b6, b7, rest, rfl⟩ :=
        whole_slot (show 8 ≤ data.length by omega)
      exact short _ _ _ _ _ _ _ _ _ rfl
    rw [none']
    exact ⟨rfl, nofun⟩

theorem decode_at {sec : Section} (h : decode elf sec = .ok insns) :
    sec.data.length % 8 = 0 ∧ insns.length = sec.data.length / 8 ∧
      ∀ i < sec.data.length / 8, insns[i]? = some (slotAt (elf.relocs sec.idx) sec.data i) := by
  unfold decode at h
  split at h
  · cases h
  rename_i aligned
  obtain ⟨length, each⟩ := decodeSlots_at h
  refine ⟨not_not.mp aligned, length, fun i inside => ?_⟩
  rw [each i inside]
  simp only [Nat.zero_mul, Nat.zero_add]

theorem decode_slot {sec : Section} (h : decode elf sec = .ok insns) {ins : Insn}
    (found : insns[i]? = some (some ins)) :
    i < sec.data.length / 8 ∧ ∃ hi, ins = slotInsn (elf.relocs sec.idx (8 * i)) sec.data i hi := by
  obtain ⟨_, length, each⟩ := decode_at h
  have inside : i < sec.data.length / 8 := by
    rw [← length]
    exact (List.getElem?_eq_some_iff.mp found).1
  refine ⟨inside, slotHigh sec.data i, ?_⟩
  rw [each i inside, slotAt] at found
  split at found
  · rw [Nat.mul_comm]
    exact (Option.some.inj (Option.some.inj found)).symm
  · cases found

/-- Decoding succeeds where the second slots are all there. -/
theorem decodeSlots_ok : (∃ insns, decodeSlots relocs start data = .ok insns) ↔
    ∀ i < data.length / 8, isStart data i = true → isWide data i = true →
      i + 1 < data.length / 8 := by
  have goes {α β : Type} {x : Except String α} {f : α → β} :
      (∃ y, (do let tl ← x; pure (f tl)) = Except.ok y) ↔ ∃ y, x = Except.ok y := by
    cases x <;> simp [bind, Except.bind, pure, Except.pure]
  fun_induction decodeSlots relocs start data with
  | case1 start b1 b2 b3 b4 b5 b6 b7 d0 d1 d2 d3 c4 c5 c6 c7 rest ih =>
    refine goes.trans (Iff.trans ih ?_)
    simp only [length_cons]
    constructor <;> intro closed i inside starts wide
    · match i with
      | 0 => omega
      | 1 => cases starts
      | i + 2 =>
        rw [isStart_tail_two _ _ _ _ _ _ _ _ _ _ _ _ _ _ _ _ _ rfl] at starts
        have there := closed i (by omega) starts (by rwa [isWide_tail, isWide_tail] at wide)
        omega
    · have there := closed (i + 2) (by omega)
        (by rwa [isStart_tail_two _ _ _ _ _ _ _ _ _ _ _ _ _ _ _ _ _ rfl])
        (by rwa [isWide_tail, isWide_tail])
      omega
  | case2 start b1 b2 b3 b4 b5 b6 b7 rest short =>
    refine ⟨nofun, fun closed => ?_⟩
    have there := closed 0 (by simp only [length_cons]; omega) rfl rfl
    simp only [length_cons] at there
    obtain ⟨c0, c1, c2, c3, c4, c5, c6, c7, rest, rfl⟩ :=
      whole_slot (show 8 ≤ rest.length by omega)
    exact absurd rfl (short _ _ _ _ _ _ _ _ _)
  | case3 start b0 b1 b2 b3 b4 b5 b6 b7 rest narrow ih =>
    refine goes.trans (Iff.trans ih ?_)
    simp only [length_cons]
    constructor <;> intro closed i inside starts wide
    · match i with
      | 0 => exact absurd (of_decide_eq_true wide) narrow
      | i + 1 =>
        rw [isStart_tail _ _ _ _ _ _ _ _ _ narrow] at starts
        have there := closed i (by omega) starts (by rwa [isWide_tail] at wide)
        omega
    · have there := closed (i + 1) (by omega)
        (by rwa [isStart_tail _ _ _ _ _ _ _ _ _ narrow]) (by rwa [isWide_tail])
      omega
  | case4 data start short =>
    refine ⟨fun _ i inside => ?_, fun _ => ⟨_, rfl⟩⟩
    obtain ⟨b0, b1, b2, b3, b4, b5, b6, b7, rest, rfl⟩ := whole_slot (show 8 ≤ data.length by omega)
    exact absurd rfl (short _ _ _ _ _ _ _ _ _)

theorem decode_ok {sec : Section} (aligned : sec.data.length % 8 = 0)
    (closed : ∀ i < sec.data.length / 8, isStart sec.data i = true → isWide sec.data i = true →
      i + 1 < sec.data.length / 8) :
    ∃ insns, decode elf sec = .ok insns := by
  rw [decode, if_neg (not_not_intro aligned)]
  exact decodeSlots_ok.mpr closed

end BpfEquiv
