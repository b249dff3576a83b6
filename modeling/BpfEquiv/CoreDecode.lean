import BpfEquiv.CorePatch
import BpfEquiv.Flat
import BpfEquiv.Slots

/-!
Patched sections as the executor decodes them.

Over decoded instructions a record is a small step: it puts its value into the field of the
instruction, or turns the instruction into the poison call. The patcher does the same to the
bytes of the section. The records of one instruction are taken one after the other, each on
what the one before left; an instruction that has become the poison call stays it.
-/
namespace BpfEquiv.Core

open List Bool

variable {why name : String} {off : Nat} {bs : List Byte}

/-! Records on decoded instructions. -/

/-- The instruction with a value in the field that its class has for it. -/
def putValue (ins : Insn) (v : Int) : Option Insn :=
  if ins.op % 8 = 1 ∨ ins.op % 8 = 2 ∨ ins.op % 8 = 3 then
    if -32768 ≤ v ∧ v ≤ 32767 then some { ins with off := v } else none
  else if ins.op % 8 = 4 ∨ ins.op % 8 = 7 then
    if ins.op / 8 % 2 = 1 then none
    else if -2147483648 ≤ v ∧ v < 2147483648 then
      some { ins with imm := v, imm64 := (v % 2 ^ 32).toNat }
    else none
  else if ins.op = 0x18 then
    some { ins with imm := Int.bmod v (2 ^ 32), imm64 := (v % 2 ^ 64).toNat }
  else none

def heldValue (ins : Insn) : Int :=
  if ins.op % 8 = 1 ∨ ins.op % 8 = 2 ∨ ins.op % 8 = 3 then ins.off
  else if ins.op = 0x18 then ins.imm64
  else ins.imm

def expectedValue (ins : Insn) (l : Int) : Int := if ins.op = 0x18 then l % 2 ^ 64 else l

/-- A patch, which fails if the field does not hold the value that it is said to hold. -/
def patchTo (ins : Insn) (v : Int) (localVal : Option Int) (validate : Bool) : Option Insn :=
  if (stale validate (localVal.map (expectedValue ins)) (heldValue ins)).isSome then none
  else putValue ins v

def poisonCall (reloc : Option Reloc) : Insn :=
  ⟨0x85, 0, 0, 0, poisonCallImm, reloc, poisonCallImm.toNat⟩

/-- What a record comes to; an error in the local access is a reason to poison. -/
def Applier.outcome (ap : Applier) (lbtf : Btf) (r : Record) : R Relocated :=
  match ap.relocate lbtf r.typeId r.idxs r.kind with
  | .error (.core msg) => pure (.poison ("local spec: " ++ msg))
  | res => res

/-- One record on an instruction and on whether the report lists it. -/
def onRecord (st : Insn × Bool) : Relocated → Insn × Bool
  | .poison _ => (poisonCall st.1.reloc, true)
  | .localId id => ((patchTo st.1 id none false).getD st.1, true)
  | .value v l validate =>
    match patchTo st.1 v (some l) validate with
    | some ins => (ins, st.2)
    | none => (poisonCall st.1.reloc, true)

/-- The records of the i-th slot, in their order. -/
def Applier.onInsn (ap : Applier) (lbtf : Btf) (i : Nat) :
    List Record → Insn × Bool → R (Insn × Bool)
  | [], st => pure st
  | r :: rs, st =>
    if r.insnIdx = i then do
      let res ← ap.outcome lbtf r
      ap.onInsn lbtf i rs (onRecord st res)
    else ap.onInsn lbtf i rs st

section Insn
variable {ins ins' : Insn} {v w : Int} {reloc : Option Reloc} {localVal : Option Int}
  {validate : Bool}

theorem putValue_keeps (h : putValue ins v = some ins') :
    ins'.op = ins.op ∧ ins'.dst = ins.dst ∧ ins'.src = ins.src ∧ ins'.reloc = ins.reloc := by
  unfold putValue at h
  repeat' split at h
  all_goals first
    | cases h
      exact ⟨rfl, rfl, rfl, rfl⟩
    | cases h

theorem putValue_put (h : putValue ins v = some ins') : putValue ins' w = putValue ins w := by
  unfold putValue at h
  split at h
  · rename_i memory
    split at h
    · cases h
      simp only [putValue, if_pos memory]
    · cases h
  · rename_i notMemory
    split at h
    · rename_i alu
      repeat' split at h
      all_goals cases h
      simp only [putValue, if_neg notMemory, if_pos alu]
    rename_i notAlu
    split at h
    · cases h
      simp only [putValue, if_neg notMemory, if_neg notAlu]
    · cases h

theorem putValue_poisonCall : putValue (poisonCall reloc) v = none := by
  simp [putValue, poisonCall]

theorem patchTo_poisonCall : patchTo (poisonCall reloc) v localVal validate = none := by
  rw [patchTo, putValue_poisonCall, ite_self]

theorem putValue_of_patchTo (h : patchTo ins v localVal validate = some ins') :
    putValue ins v = some ins' := by
  unfold patchTo at h
  split at h
  · cases h
  · exact h

end Insn

section Fold
variable {ap : Applier} {lbtf : Btf} {i : Nat} {rs : List Record} {st out : Insn × Bool}

/-- A record poisons, is for the number of a local type, or puts its value. -/
theorem onRecord_cases (st : Insn × Bool) (res : Relocated) :
    onRecord st res = (poisonCall st.1.reloc, true) ∨
      (∃ id, res = .localId id ∧ (onRecord st res).1.reloc = st.1.reloc ∧
        (onRecord st res).2 = true) ∨
      ∃ v l validate ins, res = .value v l validate ∧ putValue st.1 v = some ins ∧
        onRecord st res = (ins, st.2) := by
  cases res with
  | poison why => exact .inl rfl
  | localId id =>
    refine .inr (.inl ⟨id, rfl, ?_, rfl⟩)
    simp only [onRecord]
    cases put : patchTo st.1 id none false with
    | none => rfl
    | some ins => exact (putValue_keeps (putValue_of_patchTo put)).2.2.2
  | value v l validate =>
    simp only [onRecord]
    cases put : patchTo st.1 v (some l) validate with
    | none => exact .inl rfl
    | some ins => exact .inr (.inr ⟨v, l, validate, ins, rfl, putValue_of_patchTo put, rfl⟩)

theorem onRecord_reloc (res : Relocated) : (onRecord st res).1.reloc = st.1.reloc := by
  obtain poison | ⟨_, _, same, _⟩ | ⟨_, _, _, ins, _, put, value⟩ := onRecord_cases st res
  · rw [poison]
    rfl
  · exact same
  · rw [value]
    exact (putValue_keeps put).2.2.2

theorem onRecord_poisonCall {reloc : Option Reloc} (res : Relocated) :
    onRecord (poisonCall reloc, true) res = (poisonCall reloc, true) := by
  cases res with
  | poison why => rfl
  | localId id => rw [onRecord, patchTo_poisonCall, Option.getD_none]
  | value v l validate =>
    simp only [onRecord, patchTo_poisonCall]
    rfl

theorem onInsn_cons {r : Record} (h : ap.onInsn lbtf i (r :: rs) st = .ok out) :
    (r.insnIdx = i ∧ ∃ res, ap.outcome lbtf r = .ok res ∧
      ap.onInsn lbtf i rs (onRecord st res) = .ok out) ∨
    (r.insnIdx ≠ i ∧ ap.onInsn lbtf i rs st = .ok out) := by
  rw [Applier.onInsn] at h
  split at h
  · next here => exact .inl ⟨here, Exc.bind_eq_ok.mp h⟩
  · next other => exact .inr ⟨other, h⟩

theorem onInsn_keeps {P : Insn × Bool → Prop} (step : ∀ st res, P st → P (onRecord st res))
    (h : ap.onInsn lbtf i rs st = .ok out) (before : P st) : P out := by
  induction rs generalizing st with
  | nil =>
    cases h
    exact before
  | cons r rs ih =>
    obtain ⟨_, res, _, rest⟩ | ⟨_, rest⟩ := onInsn_cons h
    · exact ih rest (step st res before)
    · exact ih rest before

theorem onInsn_poisonCall {reloc : Option Reloc}
    (h : ap.onInsn lbtf i rs (poisonCall reloc, true) = .ok out) : out = (poisonCall reloc, true) :=
  @onInsn_keeps _ _ _ _ _ _ (· = (poisonCall reloc, true))
    (fun _ res same => same ▸ onRecord_poisonCall res) h rfl

/-- A record that cannot be resolved makes the instruction the poison call, whatever the
other records are. -/
theorem onInsn_unresolvable {r : Record} (h : ap.onInsn lbtf i rs st = .ok out)
    (member : r ∈ rs) (here : r.insnIdx = i) (poison : ap.outcome lbtf r = .ok (.poison why)) :
    out = (poisonCall st.1.reloc, true) := by
  induction rs generalizing st with
  | nil => cases member
  | cons x rs ih =>
    obtain ⟨same, res, found, rest⟩ | ⟨other, rest⟩ := onInsn_cons h
    · cases member with
      | head =>
        cases poison.symm.trans found
        exact onInsn_poisonCall rest
      | tail _ later =>
        rw [ih rest later, onRecord_reloc]
    · cases member with
      | head => exact absurd here other
      | tail _ later => exact ih rest later

theorem onInsn_listed (h : ap.onInsn lbtf i rs st = .ok out) (listed : st.2 = true) :
    out.2 = true := by
  refine @onInsn_keeps _ _ _ _ _ _ (·.2 = true) (fun st res was => ?_) h listed
  obtain poison | ⟨_, _, _, is⟩ | ⟨_, _, _, _, _, _, value⟩ := onRecord_cases st res
  · rw [poison]
  · exact is
  · rw [value]
    exact was

/-- The value of the last record of a slot, if every record of it has one. -/
def Applier.LastValue (ap : Applier) (lbtf : Btf) (i : Nat) (rs : List Record) (v : Int) : Prop :=
  ∃ before r after l validate, rs = before ++ r :: after ∧ r.insnIdx = i ∧
    (∀ x ∈ after, x.insnIdx ≠ i) ∧ ap.outcome lbtf r = .ok (.value v l validate)

theorem Applier.LastValue.cons {v : Int} (r : Record) :
    ap.LastValue lbtf i rs v → ap.LastValue lbtf i (r :: rs) v
  | ⟨before, x, after, l, validate, same, rest⟩ =>
    ⟨r :: before, x, after, l, validate, same ▸ rfl, rest⟩

/-- An instruction that is not listed has the value of its last record, or no record. -/
theorem onInsn_unlisted (h : ap.onInsn lbtf i rs st = .ok out) (clean : out.2 = false) :
    (out = st ∧ ∀ r ∈ rs, r.insnIdx ≠ i) ∨
      ∃ v, ap.LastValue lbtf i rs v ∧ putValue st.1 v = some out.1 := by
  induction rs generalizing st with
  | nil =>
    cases h
    exact .inl ⟨rfl, nofun⟩
  | cons r rs ih =>
    obtain ⟨same, res, found, rest⟩ | ⟨other, rest⟩ := onInsn_cons h
    · right
      have unlisted : (onRecord st res).2 ≠ true := fun listed => by
        rw [onInsn_listed rest listed] at clean
        cases clean
      obtain poison | ⟨_, _, _, listed⟩ | ⟨v, l, validate, ins, rfl, put, value⟩ :=
        onRecord_cases st res
      · exact absurd (congrArg Prod.snd poison) unlisted
      · exact absurd listed unlisted
      rw [value] at rest
      obtain ⟨rfl, none'⟩ | ⟨w, last, put'⟩ := ih rest
      · exact ⟨v, ⟨[], r, rs, l, validate, rfl, same, none', found⟩, put⟩
      · refine ⟨w, last.cons r, ?_⟩
        rw [← putValue_put put]
        exact put'
    · obtain ⟨rfl, none'⟩ | ⟨w, last, put'⟩ := ih rest
      · exact .inl ⟨rfl, forall_mem_cons.mpr ⟨other, none'⟩⟩
      · exact .inr ⟨w, last.cons r, put'⟩

/-- An instruction that is listed is the poison call, or a record asked for the number of a
local type. -/
theorem onInsn_poisoned (h : ap.onInsn lbtf i rs st = .ok out) (clean : st.2 = false)
    (listed : out.2 = true) :
    out.1 = poisonCall st.1.reloc ∨
      ∃ r ∈ rs, r.insnIdx = i ∧ ∃ id, ap.outcome lbtf r = .ok (.localId id) := by
  induction rs generalizing st with
  | nil =>
    cases h
    rw [clean] at listed
    cases listed
  | cons r rs ih =>
    obtain ⟨same, res, found, rest⟩ | ⟨other, rest⟩ := onInsn_cons h
    · obtain poison | ⟨id, rfl, _⟩ | ⟨_, _, _, ins, _, put, value⟩ := onRecord_cases st res
      · rw [poison] at rest
        exact .inl (congrArg Prod.fst (onInsn_poisonCall rest))
      · exact .inr ⟨r, .head _, same, id, found⟩
      rw [value] at rest
      rw [← (putValue_keeps put).2.2.2]
      exact (ih rest clean).imp id fun ⟨x, member, rest⟩ => ⟨x, .tail r member, rest⟩
    · exact (ih rest clean).imp id fun ⟨x, member, rest⟩ => ⟨x, .tail r member, rest⟩

end Fold

/-! Bytes of a slot. -/

def insnIn (relocs : Nat → Option Reloc) (buf : List Byte) (i : Nat) : Insn :=
  slotInsn (relocs (i * 8)) buf i (slotHigh buf i)

section Bytes
variable {relocs : Nat → Option Reloc} {buf buf' : List Byte} {idx : Nat} {v : Int}

theorem slotByte_eq (buf : List Byte) (i k : Nat) :
    slotByte buf i k = (buf[i * 8 + k]?).getD 0 := by
  rw [slotByte, getD_eq_getElem?_getD, Nat.mul_comm]

theorem readBytes_slot {k n : Nat} (room : idx * 8 + k + n ≤ buf.length) :
    readBytes buf (idx * 8 + k) n = .ok ((range n).map fun j => slotByte buf idx (k + j)) := by
  rw [readBytes, if_pos room]
  refine congrArg Except.ok (ext_getElem (by simp; omega) fun j _ inside => ?_)
  have inside : idx * 8 + (k + j) < buf.length := by
    rw [length_map, length_range] at inside
    omega
  simp [slotByte_eq, getElem?_eq_getElem inside, Nat.add_assoc]

theorem readBytes_off (room : idx * 8 + 8 ≤ buf.length) :
    readBytes buf (idx * 8 + 2) 2 = .ok [slotByte buf idx 2, slotByte buf idx 3] :=
  readBytes_slot (by omega)

theorem readBytes_imm (room : idx * 8 + 8 ≤ buf.length) : readBytes buf (idx * 8 + 4) 4 =
    .ok [slotByte buf idx 4, slotByte buf idx 5, slotByte buf idx 6, slotByte buf idx 7] :=
  readBytes_slot room

theorem toInt_two (b2 b3 : Byte) : (b3 ++ b2 : BitVec 16).toInt = bytesInt [b2, b3] := by
  rw [BitVec.toInt_eq_toNat_bmod, Flat.toNat_append, bytesInt]
  congr 2
  simp only [bytesNat]
  omega

theorem toNat_four (b4 b5 b6 b7 : Byte) :
    (b7 ++ b6 ++ b5 ++ b4 : BitVec 32).toNat = bytesNat [b4, b5, b6, b7] := by
  simp only [Flat.toNat_append, bytesNat]
  omega

theorem toInt_four (b4 b5 b6 b7 : Byte) :
    (b7 ++ b6 ++ b5 ++ b4 : BitVec 32).toInt = bytesInt [b4, b5, b6, b7] := by
  rw [BitVec.toInt_eq_toNat_bmod, toNat_four, bytesInt]
  rfl

theorem toNat_ofInt_byte (v : Int) : ((BitVec.ofInt 8 v).toNat : Int) = v % 256 := by
  rw [BitVec.toNat_ofInt]
  omega

theorem bytesNat_two (v : Int) : (bytesNat (intBytes 2 v) : Int) = v % 2 ^ 16 := by
  have low := toNat_ofInt_byte v
  have high := toNat_ofInt_byte (v / 256)
  simp only [intBytes, bytesNat]
  omega

theorem bytesNat_four (v : Int) : (bytesNat (intBytes 4 v) : Int) = v % 2 ^ 32 := by
  have b0 := toNat_ofInt_byte v
  have b1 := toNat_ofInt_byte (v / 256)
  have b2 := toNat_ofInt_byte (v / 256 / 256)
  have b3 := toNat_ofInt_byte (v / 256 / 256 / 256)
  simp only [intBytes, bytesNat]
  omega

theorem bytesInt_two (low : -32768 ≤ v) (high : v ≤ 32767) : bytesInt (intBytes 2 v) = v := by
  rw [bytesInt, bytesNat_two, length_intBytes, Int.bmod_def]
  omega

theorem bytesInt_four (v : Int) : bytesInt (intBytes 4 v) = Int.bmod v (2 ^ 32) := by
  rw [bytesInt, bytesNat_four, length_intBytes]
  exact Int.emod_bmod v (2 ^ 32)

theorem slotByte_write (h : writeBytes buf off bs = .ok buf')
    (i k : Nat) :
    slotByte buf' i k =
      if off ≤ i * 8 + k ∧ i * 8 + k < off + bs.length then (bs[i * 8 + k - off]?).getD 0
      else slotByte buf i k := by
  rw [slotByte_eq, slotByte_eq, writeBytes_get h]
  split <;> rfl

theorem slotByte_write_outside (h : writeBytes buf off bs = .ok buf')
    {i k : Nat} (outside : i * 8 + k < off ∨ off + bs.length ≤ i * 8 + k) :
    slotByte buf' i k = slotByte buf i k := by
  rw [slotByte_write h, if_neg (by omega)]

theorem slotByte_write_inside (h : writeBytes buf off bs = .ok buf')
    {i k : Nat} (j : Nat) (place : i * 8 + k = off + j) (inside : j < bs.length) :
    slotByte buf' i k = (bs[j]?).getD 0 := by
  rw [slotByte_write h, if_pos (by omega), show i * 8 + k - off = j by omega]

/-- The upper half depends on the opcode and on four bytes of the next slot. -/
theorem slotHigh_congr {i : Nat} (op : slotByte buf' i 0 = slotByte buf i 0)
    (second : ∀ k, 4 ≤ k → k < 8 → isWide buf i = true →
      slotByte buf' (i + 1) k = slotByte buf (i + 1) k) :
    slotHigh buf' i = slotHigh buf i := by
  have wide : isWide buf' i = isWide buf i := by rw [isWide, isWide, op]
  rw [slotHigh, slotHigh, wide]
  split
  · rename_i isTrue
    rw [second 7 (by omega) (by omega) isTrue, second 6 (by omega) (by omega) isTrue,
      second 5 (by omega) (by omega) isTrue, second 4 (by omega) (by omega) isTrue]
  · rfl

theorem slotInsn_congr {i : Nat} (same : ∀ k < 8, slotByte buf' i k = slotByte buf i k)
    (reloc : Option Reloc) (hi : BitVec 32) :
    slotInsn reloc buf' i hi = slotInsn reloc buf i hi := by
  simp only [slotInsn, same 0 (by omega), same 1 (by omega), same 2 (by omega), same 3 (by omega),
    same 4 (by omega), same 5 (by omega), same 6 (by omega), same 7 (by omega)]

theorem insnIn_off {v : Int} (low : -32768 ≤ v) (high : v ≤ 32767)
    (h : writeBytes buf (idx * 8 + 2) (intBytes 2 v) = .ok buf') :
    insnIn relocs buf' idx = { insnIn relocs buf idx with off := v } := by
  have length := length_intBytes 2 v
  have same (i k : Nat) (outside : i * 8 + k < idx * 8 + 2 ∨ idx * 8 + 4 ≤ i * 8 + k) :
      slotByte buf' i k = slotByte buf i k := slotByte_write_outside h (by omega)
  have two : slotByte buf' idx 2 = BitVec.ofInt 8 v := slotByte_write_inside h 0 rfl (by omega)
  have three : slotByte buf' idx 3 = BitVec.ofInt 8 (v / 256) :=
    slotByte_write_inside h 1 rfl (by omega)
  have field : (BitVec.ofInt 8 (v / 256) ++ BitVec.ofInt 8 v : BitVec 16).toInt = v :=
    (toInt_two _ _).trans (bytesInt_two low high)
  have upper : slotHigh buf' idx = slotHigh buf idx :=
    slotHigh_congr (same _ _ (by omega)) fun k _ _ _ => same _ _ (by omega)
  rw [insnIn, upper]
  simp only [insnIn, slotInsn, insnOf, two, three, field, same idx 0 (by omega),
    same idx 1 (by omega),
    same idx 4 (by omega), same idx 5 (by omega), same idx 6 (by omega), same idx 7 (by omega)]

theorem slotInsn_imm_write {reloc : Option Reloc} {hi : BitVec 32}
    (h : writeBytes buf (idx * 8 + 4) (intBytes 4 v) = .ok buf') :
    slotInsn reloc buf' idx hi = { slotInsn reloc buf idx hi with
      imm := Int.bmod v (2 ^ 32)
      imm64 := (v % 2 ^ 32).toNat + 2 ^ 32 * hi.toNat } := by
  have length := length_intBytes 4 v
  have same (k : Nat) (outside : k < 4) : slotByte buf' idx k = slotByte buf idx k :=
    slotByte_write_outside h (by omega)
  have field (j : Nat) (small : j < 4) :
      slotByte buf' idx (4 + j) = ((intBytes 4 v)[j]?).getD 0 :=
    slotByte_write_inside h j (by omega) (by omega)
  have nat := bytesNat_four v
  have int := bytesInt_four v
  obtain ⟨b4, b5, b6, b7, bytes⟩ : ∃ b4 b5 b6 b7, intBytes 4 v = [b4, b5, b6, b7] :=
    ⟨_, _, _, _, rfl⟩
  rw [bytes] at field nat int
  have both : (hi ++ (b7 ++ b6 ++ b5 ++ b4 : BitVec 32) : BitVec 64).toNat =
      (v % 2 ^ 32).toNat + 2 ^ 32 * hi.toNat := by
    rw [Flat.toNat_append, toNat_four, Nat.add_comm, ← nat, Int.toNat_natCast]
  simp only [slotInsn, insnOf, field 0 (by omega), field 1 (by omega), field 2 (by omega),
    field 3 (by omega), same 0 (by omega), same 1 (by omega), same 2 (by omega), same 3 (by omega)]
  exact congrArg₂ (fun imm imm64 => (⟨_, _, _, _, imm, reloc, imm64⟩ : Insn))
    ((toInt_four b4 b5 b6 b7).trans int) both

theorem insnIn_imm (low : -2147483648 ≤ v) (high : v < 2147483648) (narrow : isWide buf idx = false)
    (h : writeBytes buf (idx * 8 + 4) (intBytes 4 v) = .ok buf') :
    insnIn relocs buf' idx = { insnIn relocs buf idx with
      imm := v, imm64 := (v % 2 ^ 32).toNat } := by
  have op : slotByte buf' idx 0 = slotByte buf idx 0 := slotByte_write_outside h (by omega)
  have upper : slotHigh buf' idx = 0 := by
    rw [slotHigh, isWide, op]
    exact if_neg (eq_false_iff.mp narrow)
  have upper' : slotHigh buf idx = 0 := if_neg (eq_false_iff.mp narrow)
  have field : Int.bmod v (2 ^ 32) = v := by
    rw [Int.bmod_def]
    omega
  rw [insnIn, insnIn, upper, upper', slotInsn_imm_write h, field]
  simp

theorem insnIn_imm64 {mid : List Byte} (wide : isWide buf idx = true)
    (first : writeBytes buf (idx * 8 + 4) (intBytes 4 v) = .ok mid)
    (second : writeBytes mid (idx * 8 + 12) (intBytes 4 (v / 2 ^ 32)) = .ok buf') :
    insnIn relocs buf' idx = { insnIn relocs buf idx with
      imm := Int.bmod v (2 ^ 32), imm64 := (v % 2 ^ 64).toNat } := by
  have length := length_intBytes 4 (v / 2 ^ 32)
  have own (k : Nat) (small : k < 8) : slotByte buf' idx k = slotByte mid idx k :=
    slotByte_write_outside second (by omega)
  have op : slotByte mid idx 0 = slotByte buf idx 0 := slotByte_write_outside first (by omega)
  have isWide' : isWide buf' idx = true := by
    rw [isWide, own 0 (by omega), op]
    exact wide
  have next (j : Nat) (small : j < 4) :
      slotByte buf' (idx + 1) (4 + j) = ((intBytes 4 (v / 2 ^ 32))[j]?).getD 0 :=
    slotByte_write_inside second j (by omega) (by omega)
  have upper : (slotHigh buf' idx).toNat = (v / 2 ^ 32 % 2 ^ 32).toNat := by
    rw [slotHigh, if_pos isWide', toNat_four, ← bytesNat_four]
    rw [next 0 (by omega), next 1 (by omega), next 2 (by omega), next 3 (by omega)]
    rfl
  have value : (v % 2 ^ 32).toNat + 2 ^ 32 * (v / 2 ^ 32 % 2 ^ 32).toNat = (v % 2 ^ 64).toNat := by
    omega
  rw [insnIn, slotInsn_congr own, slotInsn_imm_write first, upper, value]
  rfl

theorem insnIn_poison (h : poisonInsn buf idx = .ok buf') :
    insnIn relocs buf' idx = poisonCall (relocs (idx * 8)) := by
  have length : ([0x85, 0, 0, 0] ++ intBytes 4 poisonCallImm).length = 8 := rfl
  have byte (k : Nat) (small : k < 8) :
      slotByte buf' idx k = (([0x85, 0, 0, 0] ++ intBytes 4 poisonCallImm)[k]?).getD 0 :=
    slotByte_write_inside h k rfl (by omega)
  have narrow : slotHigh buf' idx = 0 := by
    rw [slotHigh, isWide, byte 0 (by omega)]
    rfl
  rw [insnIn, narrow, slotInsn, byte 0 (by omega), byte 1 (by omega), byte 2 (by omega),
    byte 3 (by omega), byte 4 (by omega), byte 5 (by omega), byte 6 (by omega), byte 7 (by omega)]
  rfl

theorem slotInsn_off (reloc : Option Reloc) (i : Nat) (hi : BitVec 32) :
    (slotInsn reloc buf i hi).off = bytesInt [slotByte buf i 2, slotByte buf i 3] :=
  toInt_two _ _

theorem slotInsn_imm (reloc : Option Reloc) (i : Nat) (hi : BitVec 32) :
    (slotInsn reloc buf i hi).imm =
      bytesInt [slotByte buf i 4, slotByte buf i 5, slotByte buf i 6, slotByte buf i 7] :=
  toInt_four _ _ _ _

theorem slotInsn_imm64 (reloc : Option Reloc) (i : Nat) (hi : BitVec 32) :
    (slotInsn reloc buf i hi).imm64 =
      bytesNat [slotByte buf i 4, slotByte buf i 5, slotByte buf i 6, slotByte buf i 7] +
        2 ^ 32 * hi.toNat := by
  simp only [slotInsn, insnOf]
  rw [Flat.toNat_append, toNat_four, Nat.add_comm]

theorem writeBytes_ok {off : Nat} {bs : List Byte} (room : off + bs.length ≤ buf.length) :
    ∃ buf', writeBytes buf off bs = .ok buf' :=
  ⟨_, if_pos room⟩

theorem length_write (h : writeBytes buf off bs = .ok buf') :
    buf'.length = buf.length := by
  unfold writeBytes at h
  split at h
  · cases h
    simp only [length_append, length_take, length_drop]
    omega
  · cases h

/-- A patch of bytes and the patch of the decoded instruction. -/
def PatchAgrees (relocs : Nat → Option Reloc) (buf : List Byte) (idx : Nat) (v : Int)
    (localVal : Option Int) (validate : Bool) (res : R (Except String (List Byte))) : Prop :=
  (∃ msg, res = .ok (.error msg) ∧ patchTo (insnIn relocs buf idx) v localVal validate = none) ∨
  ∃ buf', res = .ok (.ok buf') ∧
    patchTo (insnIn relocs buf idx) v localVal validate = some (insnIn relocs buf' idx)

variable {localVal : Option Int} {validate : Bool}

theorem map_expected {ins : Insn} (narrow : ins.op ≠ 0x18) :
    localVal.map (expectedValue ins) = localVal := by
  cases localVal with
  | none => rfl
  | some l => exact congrArg some (if_neg narrow)

theorem patchTo_memory {ins : Insn} (memory : ins.op % 8 = 1 ∨ ins.op % 8 = 2 ∨ ins.op % 8 = 3) :
    patchTo ins v localVal validate =
      if (stale validate localVal ins.off).isSome then none
      else if -32768 ≤ v ∧ v ≤ 32767 then some { ins with off := v } else none := by
  rw [patchTo, map_expected (by omega), heldValue, if_pos memory, putValue, if_pos memory]

theorem patchTo_alu {ins : Insn} (alu : ins.op % 8 = 4 ∨ ins.op % 8 = 7)
    (constant : ¬ ins.op / 8 % 2 = 1) :
    patchTo ins v localVal validate =
      if (stale validate localVal ins.imm).isSome then none
      else if -2147483648 ≤ v ∧ v < 2147483648 then
        some { ins with imm := v, imm64 := (v % 2 ^ 32).toNat }
      else none := by
  have notMemory : ¬ (ins.op % 8 = 1 ∨ ins.op % 8 = 2 ∨ ins.op % 8 = 3) := by omega
  have narrow : ¬ ins.op = 0x18 := by omega
  rw [patchTo, map_expected narrow, heldValue, if_neg notMemory, if_neg narrow, putValue,
    if_neg notMemory, if_pos alu, if_neg constant]

theorem patchTo_wide {ins : Insn} (wide : ins.op = 0x18) :
    patchTo ins v localVal validate =
      if (stale validate (localVal.map fun l => l % 2 ^ 64) ins.imm64).isSome then none
      else some { ins with imm := Int.bmod v (2 ^ 32), imm64 := (v % 2 ^ 64).toNat } := by
  have expected : expectedValue ins = fun l => l % 2 ^ 64 := funext fun l => if_pos wide
  have notMemory : ¬ (ins.op % 8 = 1 ∨ ins.op % 8 = 2 ∨ ins.op % 8 = 3) := by omega
  have notAlu : ¬ (ins.op % 8 = 4 ∨ ins.op % 8 = 7) := by omega
  rw [patchTo, expected, heldValue, if_neg notMemory, if_pos wide, putValue, if_neg notMemory,
    if_neg notAlu, if_pos wide]

theorem patchTo_none {ins : Insn} (none' : putValue ins v = none) :
    patchTo ins v localVal validate = none := by
  rw [patchTo, none', ite_self]

section Slot
variable {code : Byte} (here : buf[idx * 8]? = some code) (room : idx * 8 + 8 ≤ buf.length)
include here

theorem insnIn_op : (insnIn relocs buf idx).op = code.toNat := by
  simp only [insnIn, slotInsn, insnOf]
  rw [slotByte_eq, Nat.add_zero, here]
  rfl

theorem isWide_code : isWide buf idx = decide (code = 0x18) := by
  rw [isWide, slotByte_eq, Nat.add_zero, here]
  rfl

include room

theorem patch_memory (memory : code.toNat % 8 = 1 ∨ code.toNat % 8 = 2 ∨ code.toNat % 8 = 3) :
    PatchAgrees relocs buf idx v localVal validate (patchInsn buf idx v localVal validate) := by
  have op := @insnIn_op relocs buf idx code here
  have old : (insnIn relocs buf idx).off = bytesInt [slotByte buf idx 2, slotByte buf idx 3] :=
    slotInsn_off ..
  rw [PatchAgrees, patchTo_memory (by rwa [op])]
  unfold patchInsn
  simp only [here, if_pos memory, readBytes_off room]
  dsimp only [bind, Except.bind]
  rw [← old]
  cases stale validate localVal (insnIn relocs buf idx).off with
  | some l => exact .inl ⟨_, rfl, rfl⟩
  | none =>
    by_cases fits : -32768 ≤ v ∧ v ≤ 32767
    · obtain ⟨buf', wrote⟩ := @writeBytes_ok buf (idx * 8 + 2) (intBytes 2 v)
        (by rw [length_intBytes]; omega)
      refine .inr ⟨buf', ?_, ?_⟩
      · simp only [if_neg (not_not_intro fits), wrote]
        rfl
      · rw [insnIn_off fits.1 fits.2 wrote]
        simp [fits]
    · exact .inl ⟨_, if_pos fits, if_neg fits⟩

theorem patch_alu (alu : code.toNat % 8 = 4 ∨ code.toNat % 8 = 7) :
    PatchAgrees relocs buf idx v localVal validate (patchInsn buf idx v localVal validate) := by
  have op := @insnIn_op relocs buf idx code here
  have notMemory : ¬ (code.toNat % 8 = 1 ∨ code.toNat % 8 = 2 ∨ code.toNat % 8 = 3) := by omega
  unfold patchInsn
  simp only [here, if_neg notMemory, if_pos alu]
  by_cases register : code.toNat / 8 % 2 = 1
  · rw [if_pos register]
    refine .inl ⟨_, rfl, patchTo_none ?_⟩
    rw [putValue, op, if_neg notMemory, if_pos alu, if_pos register]
  have old : (insnIn relocs buf idx).imm = bytesInt [slotByte buf idx 4, slotByte buf idx 5,
      slotByte buf idx 6, slotByte buf idx 7] := slotInsn_imm ..
  have narrow : isWide buf idx = false := by
    refine (isWide_code here).trans (decide_eq_false fun same => ?_)
    subst same
    revert alu
    decide
  rw [PatchAgrees, patchTo_alu (by rwa [op]) (by rwa [op]), if_neg register,
    readBytes_imm room]
  dsimp only [bind, Except.bind]
  rw [← old]
  cases stale validate localVal (insnIn relocs buf idx).imm with
  | some l => exact .inl ⟨_, rfl, rfl⟩
  | none =>
    by_cases fits : -2147483648 ≤ v ∧ v < 2147483648
    · obtain ⟨buf', wrote⟩ := @writeBytes_ok buf (idx * 8 + 4) (intBytes 4 v)
        (by rw [length_intBytes]; omega)
      refine .inr ⟨buf', ?_, ?_⟩
      · simp only [if_neg (not_not_intro fits), wrote]
        rfl
      · rw [insnIn_imm fits.1 fits.2 narrow wrote]
        simp [fits]
    · exact .inl ⟨_, if_pos fits, if_neg fits⟩

theorem patch_wide (isCode : code = 0x18) (second : idx * 8 + 16 ≤ buf.length) :
    PatchAgrees relocs buf idx v localVal validate (patchInsn buf idx v localVal validate) := by
  have op := @insnIn_op relocs buf idx code here
  subst isCode
  have wide : isWide buf idx = true := isWide_code here
  have old : ((insnIn relocs buf idx).imm64 : Int) = bytesNat ([slotByte buf idx 4,
      slotByte buf idx 5, slotByte buf idx 6, slotByte buf idx 7] ++ [slotByte buf (idx + 1) 4,
      slotByte buf (idx + 1) 5, slotByte buf (idx + 1) 6, slotByte buf (idx + 1) 7]) := by
    rw [insnIn, slotInsn_imm64, slotHigh, if_pos wide, toNat_four]
    simp only [bytesNat, cons_append, nil_append]
    push_cast
    ring
  unfold patchInsn
  simp only [here]
  rw [PatchAgrees, patchTo_wide op, if_neg (by decide), if_neg (by decide), if_pos trivial,
    if_neg (by omega), readBytes_imm room]
  dsimp only [bind, Except.bind]
  have upper := @readBytes_imm buf (idx + 1) (by omega)
  rw [show (idx + 1) * 8 + 4 = idx * 8 + 12 by omega] at upper
  rw [upper]
  dsimp only
  rw [← old]
  cases stale validate (localVal.map fun l => l % 2 ^ 64) ((insnIn relocs buf idx).imm64 : Int) with
  | some l => exact .inl ⟨_, rfl, rfl⟩
  | none =>
    obtain ⟨mid, first⟩ := @writeBytes_ok buf (idx * 8 + 4) (intBytes 4 v)
      (by rw [length_intBytes]; omega)
    obtain ⟨buf', wrote⟩ := @writeBytes_ok mid (idx * 8 + 12) (intBytes 4 (v / 2 ^ 32))
      (by rw [length_intBytes, length_write first]; omega)
    refine .inr ⟨buf', ?_, ?_⟩
    · simp only [first, wrote]
      rfl
    · rw [insnIn_imm64 wide first wrote]
      rfl

/-- A patch of the bytes is the patch of the decoded instruction. -/
theorem patchInsn_agrees (second : isWide buf idx = true → idx * 8 + 16 ≤ buf.length) :
    PatchAgrees relocs buf idx v localVal validate (patchInsn buf idx v localVal validate) := by
  by_cases memory : code.toNat % 8 = 1 ∨ code.toNat % 8 = 2 ∨ code.toNat % 8 = 3
  · exact patch_memory here room memory
  by_cases alu : code.toNat % 8 = 4 ∨ code.toNat % 8 = 7
  · exact patch_alu here room alu
  by_cases wide : code = 0x18
  · exact patch_wide here room wide (second ((isWide_code here).trans (decide_eq_true wide)))
  have number : code.toNat ≠ 0x18 := fun same => wide (BitVec.eq_of_toNat_eq same)
  unfold patchInsn
  simp only [here, if_neg memory, if_neg alu, if_neg wide]
  refine .inl ⟨_, rfl, patchTo_none ?_⟩
  rw [putValue, insnIn_op here, if_neg memory, if_neg alu, if_neg number]

end Slot

end Bytes

/-! Records on bytes. -/

/-- What a record may change: its own slot, and the second one of a 64-bit immediate. -/
structure Rewrites (buf buf' : List Byte) (idx : Nat) : Prop where
  length : buf'.length = buf.length
  outside : ∀ p, ¬ (idx * 8 ≤ p ∧ p < idx * 8 + 8) →
    ¬ (isWide buf idx = true ∧ idx * 8 + 12 ≤ p ∧ p < idx * 8 + 16) → buf'[p]? = buf[p]?
  wide : isWide buf' idx = true → isWide buf idx = true

section Records
variable {relocs : Nat → Option Reloc} {data buf buf' : List Byte} {idx i : Nat} {v : Int}
  {localVal : Option Int} {validate : Bool} {ap : Applier} {lbtf : Btf} {secname : String}
  {rep rep' : Report} {r : Record} {rs : List Record}

theorem Rewrites.refl (buf : List Byte) (idx : Nat) : Rewrites buf buf idx :=
  ⟨rfl, fun _ _ _ => rfl, id⟩

theorem isWide_of_opcode (same : buf'[i * 8]? = buf[i * 8]?) : isWide buf' i = isWide buf i := by
  rw [isWide, isWide, slotByte_eq, slotByte_eq, Nat.add_zero, same]

theorem patch_rewrites (h : patchInsn buf idx v localVal validate = .ok (.ok buf')) :
    Rewrites buf buf' idx := by
  have wide : isWide buf' idx = true → isWide buf idx = true := by
    rw [isWide_of_opcode (patchInsn_opcode h idx)]
    exact id
  obtain ⟨code, here, ⟨_, _, wrote⟩ | ⟨_, _, wrote⟩ | ⟨rfl, mid, first, second⟩⟩ :=
    patchInsn_cases h
  · refine ⟨length_write wrote, fun p own _ => writeBytes_outside wrote ?_, wide⟩
    rw [length_intBytes]
    omega
  · refine ⟨length_write wrote, fun p own _ => writeBytes_outside wrote ?_, wide⟩
    rw [length_intBytes]
    omega
  have isWide' : isWide buf idx = true := isWide_code here
  refine ⟨(length_write second).trans (length_write first), fun p own next => ?_, wide⟩
  have apart : ¬ (idx * 8 + 12 ≤ p ∧ p < idx * 8 + 16) := fun inside => next ⟨isWide', inside⟩
  rw [writeBytes_outside second (by rw [length_intBytes]; omega),
    writeBytes_outside first (by rw [length_intBytes]; omega)]

theorem poison_rewrites (h : poisonInsn buf idx = .ok buf') : Rewrites buf buf' idx := by
  have length : ([0x85, 0, 0, 0] ++ intBytes 4 poisonCallImm).length = 8 := rfl
  refine ⟨length_write h, fun p own _ => writeBytes_outside h (by omega), fun wide => ?_⟩
  have op : slotByte buf' idx 0 = 0x85 := slotByte_write_inside h 0 rfl (by omega)
  rw [isWide, op] at wide
  cases wide

theorem poisoned_cons {poison : List ((String × Nat) × String)} {notes notes' : List String}
    {name' : String} {j : Nat} :
    (⟨((name', j), why) :: poison, notes⟩ : Report).Poisoned name i ↔
      (name = name' ∧ i = j) ∨ (⟨poison, notes'⟩ : Report).Poisoned name i := by
  constructor
  · rintro ⟨why', listed⟩
    cases listed with
    | head => exact .inl ⟨rfl, rfl⟩
    | tail _ earlier => exact .inr ⟨why', earlier⟩
  · rintro (⟨rfl, rfl⟩ | ⟨why', listed⟩)
    · exact ⟨why, (.head _)⟩
    · exact ⟨why', .tail _ listed⟩

theorem poisoned_add {note : String} {j : Nat} :
    (rep.add secname j why note).Poisoned name i ↔ (name = secname ∧ i = j) ∨ rep.Poisoned name i :=
  poisoned_cons

/-- One record changes its own instruction in bytes and report only. -/
theorem applyRecord_frame (h : ap.applyRecord lbtf secname (buf, rep) r = .ok (buf', rep')) :
    Rewrites buf buf' r.insnIdx ∧ ∀ name i, ¬ (name = secname ∧ i = r.insnIdx) →
      (rep'.Poisoned name i ↔ rep.Poisoned name i) := by
  obtain ⟨res, _, h⟩ := Exc.bind_eq_ok.mp h
  cases res with
  | poison why =>
    obtain ⟨_, wrote, h⟩ := Exc.bind_eq_ok.mp h
    cases h
    exact ⟨poison_rewrites wrote, fun name i other => poisoned_add.trans (or_iff_right other)⟩
  | localId id =>
    obtain ⟨out, patched, h⟩ := Exc.bind_eq_ok.mp h
    cases out with
    | error err =>
      cases h
      exact ⟨.refl _ _, fun name i other => poisoned_cons.trans (or_iff_right other)⟩
    | ok _ =>
      cases h
      exact ⟨patch_rewrites patched, fun name i other => poisoned_cons.trans (or_iff_right other)⟩
  | value val l validate =>
    obtain ⟨out, patched, h⟩ := Exc.bind_eq_ok.mp h
    cases out with
    | error err =>
      obtain ⟨_, wrote, h⟩ := Exc.bind_eq_ok.mp h
      cases h
      exact ⟨poison_rewrites wrote, fun name i other => poisoned_add.trans (or_iff_right other)⟩
    | ok _ =>
      cases h
      exact ⟨patch_rewrites patched, fun _ _ _ => Iff.rfl⟩

/-- One record on the bytes is the record on the decoded instruction. -/
theorem applyRecord_insn (h : ap.applyRecord lbtf secname (buf, rep) r = .ok (buf', rep'))
    (room : r.insnIdx * 8 + 8 ≤ buf.length)
    (second : isWide buf r.insnIdx = true → r.insnIdx * 8 + 16 ≤ buf.length) {listed : Bool}
    (was : rep.Poisoned secname r.insnIdx ↔ listed = true) :
    ∃ res, ap.outcome lbtf r = .ok res ∧
      insnIn relocs buf' r.insnIdx = (onRecord (insnIn relocs buf r.insnIdx, listed) res).1 ∧
      (rep'.Poisoned secname r.insnIdx ↔
        (onRecord (insnIn relocs buf r.insnIdx, listed) res).2 = true) := by
  have here : buf[r.insnIdx * 8]? = some buf[r.insnIdx * 8] := List.getElem?_eq_getElem (by omega)
  obtain ⟨res, found, h⟩ := Exc.bind_eq_ok.mp h
  refine ⟨res, found, ?_⟩
  cases res with
  | poison why =>
    obtain ⟨_, wrote, h⟩ := Exc.bind_eq_ok.mp h
    cases h
    exact ⟨insnIn_poison wrote, iff_of_true (poisoned_add.mpr (.inl ⟨rfl, rfl⟩)) rfl⟩
  | localId id =>
    obtain ⟨out, patched, h⟩ := Exc.bind_eq_ok.mp h
    have agrees := @patchInsn_agrees relocs buf r.insnIdx id none false _ here room second
    rw [patched] at agrees
    obtain ⟨msg, same, none'⟩ | ⟨_, same, some'⟩ := agrees
    · cases same
      cases h
      refine ⟨?_, iff_of_true ⟨_, (.head _)⟩ rfl⟩
      rw [onRecord, none', Option.getD_none]
    cases same
    cases h
    refine ⟨?_, iff_of_true ⟨_, (.head _)⟩ rfl⟩
    rw [onRecord, some', Option.getD_some]
  | value val l validate =>
    obtain ⟨out, patched, h⟩ := Exc.bind_eq_ok.mp h
    have agrees := @patchInsn_agrees relocs buf r.insnIdx val (some l) validate _ here room second
    rw [patched] at agrees
    obtain ⟨msg, same, none'⟩ | ⟨_, same, some'⟩ := agrees
    · cases same
      obtain ⟨_, wrote, h⟩ := Exc.bind_eq_ok.mp h
      cases h
      simp only [onRecord, none']
      exact ⟨insnIn_poison wrote, iff_of_true (poisoned_add.mpr (.inl ⟨rfl, rfl⟩)) trivial⟩
    · cases same
      cases h
      simp only [onRecord, some']
      exact ⟨trivial, was⟩

/-! The records of a section. -/

/-- Bytes that records made of others: no 64-bit immediate is new. -/
structure Derived (data buf : List Byte) : Prop where
  length : buf.length = data.length
  wide : ∀ i, isWide buf i = true → isWide data i = true

theorem Derived.refl (data : List Byte) : Derived data data := ⟨rfl, fun _ => id⟩

theorem Derived.step (before : Derived data buf) (change : Rewrites buf buf' idx) :
    Derived data buf' := by
  refine ⟨change.length.trans before.length, fun i wide => before.wide i ?_⟩
  by_cases own : i = idx
  · subst own
    exact change.wide wide
  · rwa [isWide_of_opcode (change.outside (i * 8) (by omega) (by omega))] at wide

/-- The slots of a section: 64-bit immediates have their second slot. -/
def Closed (data : List Byte) : Prop :=
  ∀ i, isStart data i = true → isWide data i = true → i * 8 + 16 ≤ data.length

theorem isStart_second (start : isStart data i = true) (wide : isWide data i = true) :
    isStart data (i + 1) = false := by
  rw [isStart, start, wide]
  rfl

theorem insnIn_other (before : Derived data buf) (change : Rewrites buf buf' idx)
    (startIdx : isStart data idx = true) (start : isStart data i = true) (other : i ≠ idx) :
    insnIn relocs buf' i = insnIn relocs buf i := by
  have notSecond : isWide buf idx = true → i ≠ idx + 1 := by
    rintro wide rfl
    rw [isStart_second startIdx (before.wide idx wide)] at start
    cases start
  have notFirst : isWide buf i = true → idx ≠ i + 1 := by
    rintro wide rfl
    rw [isStart_second start (before.wide i wide)] at startIdx
    cases startIdx
  have same (k : Nat) (small : k < 8) : slotByte buf' i k = slotByte buf i k := by
    rw [slotByte_eq, slotByte_eq, change.outside _ (by omega)]
    rintro ⟨wide, inside⟩
    have := notSecond wide
    omega
  have upper : slotHigh buf' i = slotHigh buf i := by
    refine slotHigh_congr (same 0 (by omega)) fun k low high wide => ?_
    have := notFirst wide
    rw [slotByte_eq, slotByte_eq, change.outside _ (by omega) (by omega)]
  rw [insnIn, upper, slotInsn_congr same, insnIn]

theorem records_derived {st st' : List Byte × Report}
    (ran : rs.foldlM (ap.applyRecord lbtf secname) st = .ok st') (before : Derived data st.1) :
    Derived data st'.1 :=
  Exc.foldlM_keeps (I := fun st => Derived data st.1)
    (fun _ _ _ _ step derived => derived.step (applyRecord_frame step).1) ran before

theorem records_insn {st st' : List Byte × Report}
    (ran : rs.foldlM (ap.applyRecord lbtf secname) st = .ok st') (before : Derived data st.1)
    (closed : Closed data)
    (placed : ∀ r ∈ rs, isStart data r.insnIdx = true ∧ r.insnIdx * 8 + 8 ≤ data.length)
    (start : isStart data i = true) {listed : Bool}
    (was : st.2.Poisoned secname i ↔ listed = true) :
    ∃ listed', ap.onInsn lbtf i rs (insnIn relocs st.1 i, listed) =
        .ok (insnIn relocs st'.1 i, listed') ∧ (st'.2.Poisoned secname i ↔ listed' = true) := by
  induction rs generalizing st listed with
  | nil =>
    cases ran
    exact ⟨listed, rfl, was⟩
  | cons r rs ih =>
    obtain ⟨buf, rep⟩ := st
    rw [foldlM_cons] at ran
    obtain ⟨⟨mid, rep'⟩, first, rest⟩ := Exc.bind_eq_ok.mp ran
    obtain ⟨change, others⟩ := applyRecord_frame first
    obtain ⟨⟨startIdx, room⟩, later⟩ := forall_mem_cons.mp placed
    rw [Applier.onInsn]
    by_cases here : r.insnIdx = i
    · subst here
      obtain ⟨res, found, insn, poisoned⟩ := @applyRecord_insn relocs _ _ _ _ _ _ _ _ first
        (by rwa [before.length])
        (fun wide => by rw [before.length]; exact closed _ startIdx (before.wide _ wide)) _ was
      rw [if_pos rfl, found]
      have next := ih rest (before.step change) later poisoned
      rwa [insn] at next
    · rw [if_neg here, ← insnIn_other before change startIdx start (Ne.symm here)]
      refine ih rest (before.step change) later ((others secname i fun same => ?_).trans was)
      exact here same.2.symm

theorem records_outside {st st' : List Byte × Report}
    (ran : rs.foldlM (ap.applyRecord lbtf secname) st = .ok st') (before : Derived data st.1)
    {p : Nat} (own : ∀ r ∈ rs, ¬ (r.insnIdx * 8 ≤ p ∧ p < r.insnIdx * 8 + 8))
    (second : ∀ r ∈ rs, isWide data r.insnIdx = true →
      ¬ (r.insnIdx * 8 + 12 ≤ p ∧ p < r.insnIdx * 8 + 16)) :
    st'.1[p]? = st.1[p]? := by
  have kept : Derived data st'.1 ∧ st'.1[p]? = st.1[p]? := by
    refine Exc.foldlM_keeps (I := fun x => Derived data x.1 ∧ x.1[p]? = st.1[p]?)
      (fun r member x x' step keep => ?_) ran ⟨before, rfl⟩
    have change := (applyRecord_frame step).1
    refine ⟨keep.1.step change, ?_⟩
    rw [change.outside p (own r member) fun ⟨wide, inside⟩ =>
      second r member (keep.1.wide _ wide) inside, keep.2]
  exact kept.2

theorem records_report {st st' : List Byte × Report}
    (ran : rs.foldlM (ap.applyRecord lbtf secname) st = .ok st')
    (other : name ≠ secname) (i : Nat) : st'.2.Poisoned name i ↔ st.2.Poisoned name i := by
  refine Exc.foldlM_keeps (I := fun x => x.2.Poisoned name i ↔ st.2.Poisoned name i)
    (fun r _ x x' step keep => ?_) ran Iff.rfl
  exact ((applyRecord_frame step).2 name i fun same => other same.1).trans keep

end Records

/-! The sections of an object. -/

section Object
variable {ap : Applier} {lbtf : Btf} {entry : String × List Record}
  {recs : List (String × List Record)} {st st' : List Section × Report} {sec : Section}

/-- What the records of a section came to: its new bytes, and the report of its instructions.
An empty section is passed over. -/
def SectionRun (ap : Applier) (lbtf : Btf) (entry : String × List Record) (sec : Section)
    (rep rep' : Report) (data' : List Byte) : Prop :=
  (sec.data = [] ∧ data' = [] ∧ ∀ i, rep'.Poisoned entry.1 i ↔ rep.Poisoned entry.1 i) ∨
    ∃ rep₁ rep₂, entry.2.foldlM (ap.applyRecord lbtf entry.1) (sec.data, rep₁) = .ok (data', rep₂) ∧
      (∀ i, rep₁.Poisoned entry.1 i ↔ rep.Poisoned entry.1 i) ∧
      ∀ i, rep'.Poisoned entry.1 i ↔ rep₂.Poisoned entry.1 i

/-- What one entry of the records leaves of an object. -/
structure EntryRun (ap : Applier) (lbtf : Btf) (entry : String × List Record)
    (st st' : List Section × Report) : Prop where
  indexed : Indexed st'.1
  names : ∀ name, name ≠ entry.1 →
    st'.1.find? (·.name = name) = st.1.find? (·.name = name) ∧
      ∀ i, st'.2.Poisoned name i ↔ st.2.Poisoned name i
  others : ∀ k, (∀ sec, st.1.find? (·.name = entry.1) = some sec → sec.idx ≠ k) →
    st'.1[k]? = st.1[k]?
  own : ∀ sec, st.1.find? (·.name = entry.1) = some sec → ∃ data',
    st'.1.find? (·.name = entry.1) = some { sec with data := data' } ∧
      SectionRun ap lbtf entry sec st.2 st'.2 data'

theorem entryRun_idle (indexed : Indexed st.1)
    (idle : ∀ sec, st.1.find? (·.name = entry.1) = some sec → sec.data = []) :
    EntryRun ap lbtf entry st st := by
  refine ⟨indexed, fun _ _ => ⟨rfl, fun _ => Iff.rfl⟩, fun _ _ => rfl, fun sec found => ?_⟩
  have empty := idle sec found
  exact ⟨[], by rw [found, ← empty], .inl ⟨empty, rfl, fun _ => Iff.rfl⟩⟩

theorem applySection_run (indexed : Indexed st.1) (h : ap.applySection lbtf st entry = .ok st') :
    EntryRun ap lbtf entry st st' := by
  unfold Applier.applySection at h
  split at h
  · rename_i none'
    cases h
    exact entryRun_idle indexed fun sec found => absurd (none'.symm.trans found) nofun
  rename_i sec found
  split at h
  · rename_i empty
    cases h
    refine entryRun_idle indexed fun sec' found' => ?_
    cases found.symm.trans found'
    exact empty
  · obtain ⟨⟨data', rep⟩, ran, h⟩ := Exc.bind_eq_ok.mp h
    cases h
    have named : sec.name = entry.1 := by simpa using List.find?_some found
    have find (name : String) := indexed.find_modify (i := sec.idx)
      (f := fun s => { s with data := data' }) (fun _ => rfl) name
    refine ⟨indexed.modify fun _ => rfl, fun name other => ⟨?_, records_report ran other⟩, ?_, ?_⟩
    · rw [find name]
      cases there : st.1.find? (·.name = name) with
      | none => rfl
      | some s =>
        have asked : s.name = name := by simpa using List.find?_some there
        have apart : s.idx ≠ sec.idx := by
          intro same
          obtain rfl := indexed.eq_of_idx (mem_of_find?_eq_some there)
            (mem_of_find?_eq_some found) same
          exact other (asked.symm.trans named)
        simp [apart]
    · intro k apart
      exact List.getElem?_modify_ne _ _ (apart sec found)
    · intro sec' found'
      cases found.symm.trans found'
      refine ⟨data', ?_, .inr ⟨_, _, ran, fun _ => Iff.rfl, fun _ => Iff.rfl⟩⟩
      rw [find entry.1, found]
      simp

/-- What all records leave of an object. -/
structure ObjectRun (ap : Applier) (lbtf : Btf) (recs : List (String × List Record))
    (st st' : List Section × Report) : Prop where
  indexed : Indexed st'.1
  names : ∀ name, (∀ entry ∈ recs, name ≠ entry.1) →
    st'.1.find? (·.name = name) = st.1.find? (·.name = name) ∧
      ∀ i, st'.2.Poisoned name i ↔ st.2.Poisoned name i
  others : ∀ k, (∀ entry ∈ recs, ∀ sec, st.1.find? (·.name = entry.1) = some sec → sec.idx ≠ k) →
    st'.1[k]? = st.1[k]?
  own : ∀ entry ∈ recs, ∀ sec, st.1.find? (·.name = entry.1) = some sec → ∃ data',
    st'.1.find? (·.name = entry.1) = some { sec with data := data' } ∧
      SectionRun ap lbtf entry sec st.2 st'.2 data'

theorem SectionRun.congr {rep rep' rep₀ rep₀' : Report} {data' : List Byte}
    (run : SectionRun ap lbtf entry sec rep rep' data')
    (first : ∀ i, rep.Poisoned entry.1 i ↔ rep₀.Poisoned entry.1 i)
    (last : ∀ i, rep₀'.Poisoned entry.1 i ↔ rep'.Poisoned entry.1 i) :
    SectionRun ap lbtf entry sec rep₀ rep₀' data' := by
  obtain ⟨empty, none', report⟩ | ⟨rep₁, rep₂, ran, before, after⟩ := run
  · exact .inl ⟨empty, none', fun i => (last i).trans ((report i).trans (first i))⟩
  · exact .inr ⟨rep₁, rep₂, ran, fun i => (before i).trans (first i),
      fun i => (last i).trans (after i)⟩

theorem apply_run (keys : (recs.map Prod.fst).Nodup) (indexed : Indexed st.1)
    (ran : recs.foldlM (ap.applySection lbtf) st = .ok st') : ObjectRun ap lbtf recs st st' := by
  induction recs generalizing st with
  | nil =>
    cases ran
    exact ⟨indexed, fun _ _ => ⟨rfl, fun _ => Iff.rfl⟩, fun _ _ => rfl, nofun⟩
  | cons entry recs ih =>
    rw [foldlM_cons] at ran
    obtain ⟨mid, first, rest⟩ := Exc.bind_eq_ok.mp ran
    rw [map_cons, nodup_cons] at keys
    have apart : ∀ later ∈ recs, later.1 ≠ entry.1 := fun later member same =>
      keys.1 (same ▸ mem_map_of_mem member)
    have one := applySection_run indexed first
    have more := ih keys.2 one.indexed rest
    refine ⟨more.indexed, fun name other => ?_, fun k other => ?_, fun e member sec found => ?_⟩
    · obtain ⟨notFirst, notLater⟩ := forall_mem_cons.mp other
      obtain ⟨find, report⟩ := one.names name notFirst
      obtain ⟨find', report'⟩ := more.names name notLater
      exact ⟨find'.trans find, fun i => (report' i).trans (report i)⟩
    · obtain ⟨notFirst, notLater⟩ := forall_mem_cons.mp other
      rw [more.others k fun later member sec found => ?_, one.others k notFirst]
      rw [(one.names later.1 (apart later member)).1] at found
      exact notLater later member sec found
    cases member with
    | head =>
      obtain ⟨data', found', run⟩ := one.own sec found
      obtain ⟨find, report⟩ := more.names entry.1 fun later member => (apart later member).symm
      exact ⟨data', find.trans found', run.congr (fun _ => .rfl) report⟩
    | tail _ later =>
      obtain ⟨find, report⟩ := one.names e.1 (apart e later)
      obtain ⟨data', found', run⟩ := more.own e later sec (find.trans found)
      exact ⟨data', found', run.congr report fun _ => .rfl⟩

end Object

/-! Decoding the patched sections. -/

/-- The records of a section stand at its instructions, and no second slot of a 64-bit
immediate has the opcode of one. -/
structure Placed (data : List Byte) (insns : List (Option Insn)) (rs : List Record) : Prop where
  records : ∀ r ∈ rs, ∃ ins, insns[r.insnIdx]? = some (some ins)
  seconds : ∀ i, insns[i]? = some none → slotByte data i 0 ≠ 0x18

/-- What has become of one instruction. -/
structure InsnFate (ap : Applier) (lbtf : Btf) (rs : List Record) (i : Nat) (ins ins' : Insn)
    (poisoned : Prop) : Prop where
  /-- The records are taken one after the other. -/
  steps : ∃ listed, ap.onInsn lbtf i rs (ins, false) = .ok (ins', listed) ∧
    (poisoned ↔ listed = true)
  /-- An instruction that is not poisoned has the value of its last record. -/
  patched : ¬ poisoned → (ins' = ins ∧ ∀ r ∈ rs, r.insnIdx ≠ i) ∨
    ∃ v, ap.LastValue lbtf i rs v ∧ putValue ins v = some ins'
  /-- A record that cannot be resolved leaves the poison call. -/
  unresolvable : ∀ r ∈ rs, r.insnIdx = i → ∀ why, ap.outcome lbtf r = .ok (.poison why) →
    ins' = poisonCall ins.reloc ∧ poisoned
  /-- A poisoned instruction is the poison call, or has a record for the number of a local type. -/
  listed : poisoned → ins' = poisonCall ins.reloc ∨
    ∃ r ∈ rs, r.insnIdx = i ∧ ∃ id, ap.outcome lbtf r = .ok (.localId id)

theorem insnFate_of_steps {ap : Applier} {lbtf : Btf} {rs : List Record} {i : Nat} {ins ins' : Insn}
    {poisoned : Prop} {listed : Bool}
    (steps : ap.onInsn lbtf i rs (ins, false) = .ok (ins', listed))
    (report : poisoned ↔ listed = true) : InsnFate ap lbtf rs i ins ins' poisoned where
  steps := ⟨listed, steps, report⟩
  patched clean := by
    have unlisted : listed = false := eq_false_iff.mpr fun is => clean (report.mpr is)
    refine (onInsn_unlisted steps unlisted).imp (fun ⟨same, none'⟩ => ⟨?_, none'⟩) id
    exact congrArg Prod.fst same
  unresolvable r member here why poison := by
    have out := onInsn_unresolvable steps member here poison
    exact ⟨congrArg Prod.fst out, report.mpr (congrArg Prod.snd out)⟩
  listed is := onInsn_poisoned steps rfl (report.mp is)

section Decode
variable {elf : Elf} {ap : Applier} {lbtf : Btf} {entry : String × List Record} {sec : Section}
  {rep : Report} {data data' : List Byte} {insns : List (Option Insn)}

theorem Derived.start (derived : Derived data data')
    (seconds : ∀ i, isStart data i = false → isWide data i = false) {i : Nat}
    (start : isStart data i = true) : isStart data' i = true := by
  cases i with
  | zero => rfl
  | succ i =>
    have narrow : isWide data i = false := by
      cases first : isStart data i with
      | false => exact seconds i first
      | true =>
        rw [isStart, first, Bool.true_and, Bool.not_eq_true'] at start
        exact start
    have still : isWide data' i = false := Bool.eq_false_iff.mpr fun wide => by
      rw [derived.wide i wide] at narrow
      cases narrow
    rw [isStart, still, Bool.and_false, Bool.not_false]

theorem isWide_outside {i : Nat} (aligned : data.length % 8 = 0) (outside : data.length / 8 ≤ i) :
    isWide data i = false := by
  rw [isWide, slotByte_eq, List.getElem?_eq_none (by omega)]
  rfl

theorem decode_insnIn (decoded : decode elf sec = .ok insns) {i : Nat} {ins : Insn} :
    insns[i]? = some (some ins) ↔
      i < sec.data.length / 8 ∧ isStart sec.data i = true ∧
        ins = insnIn (elf.relocs sec.idx) sec.data i := by
  obtain ⟨_, length, each⟩ := decode_at decoded
  constructor
  · intro found
    have inside : i < sec.data.length / 8 := by
      rw [← length]
      exact (List.getElem?_eq_some_iff.mp found).1
    rw [each i inside, slotAt] at found
    split at found
    · next start => exact ⟨inside, start, (Option.some.inj (Option.some.inj found)).symm⟩
    · cases found
  · rintro ⟨inside, start, rfl⟩
    rw [each i inside, slotAt, if_pos start]
    rfl

theorem closed_of_decode (decoded : decode elf sec = .ok insns) : Closed sec.data := by
  intro i start wide
  obtain ⟨aligned, _, _⟩ := decode_at decoded
  have inside : i < sec.data.length / 8 := by
    by_contra outside
    rw [isWide_outside aligned (Nat.le_of_not_lt outside)] at wide
    cases wide
  unfold decode at decoded
  split at decoded
  · cases decoded
  · have next := decodeSlots_ok.mp ⟨_, decoded⟩ i inside start wide
    omega

theorem Placed.narrow (decoded : decode elf sec = .ok insns) {rs : List Record}
    (placed : Placed sec.data insns rs) (i : Nat) (second : isStart sec.data i = false) :
    isWide sec.data i = false := by
  obtain ⟨aligned, _, each⟩ := decode_at decoded
  by_cases inside : i < sec.data.length / 8
  · refine decide_eq_false (placed.seconds i ?_)
    rw [each i inside, slotAt, second]
    rfl
  · exact isWide_outside aligned (Nat.le_of_not_lt inside)

/-- The patched section decodes, with every instruction in its place. -/
theorem decode_patched (decoded : decode elf sec = .ok insns)
    (seconds : ∀ i, isStart sec.data i = false → isWide sec.data i = false)
    (derived : Derived sec.data data') :
    ∃ insns', decode elf { sec with data := data' } = .ok insns' ∧
      ∀ i ins, insns[i]? = some (some ins) →
        insns'[i]? = some (some (insnIn (elf.relocs sec.idx) data' i)) := by
  obtain ⟨aligned, _, _⟩ := decode_at decoded
  obtain ⟨insns', decoded'⟩ : ∃ insns', decode elf { sec with data := data' } = .ok insns' := by
    refine decode_ok (by rwa [derived.length]) fun i inside start wide => ?_
    have wideBefore := derived.wide i wide
    have startBefore : isStart sec.data i = true := by
      by_contra second
      rw [seconds i (eq_false_iff.mpr second)] at wideBefore
      cases wideBefore
    have room := closed_of_decode decoded i startBefore wideBefore
    dsimp only
    rw [derived.length]
    omega
  refine ⟨insns', decoded', fun i ins found => (decode_insnIn decoded').mpr ?_⟩
  obtain ⟨inside, start, _⟩ := (decode_insnIn decoded).mp found
  exact ⟨by rwa [derived.length], derived.start seconds start, rfl⟩

/-- The instructions of a section after its records. -/
theorem section_fates (decoded : decode elf sec = .ok insns)
    (placed : Placed sec.data insns entry.2)
    (run : SectionRun ap lbtf entry sec ⟨[], []⟩ rep data') :
    ∃ insns', decode elf { sec with data := data' } = .ok insns' ∧
      ∀ i ins, insns[i]? = some (some ins) → ∃ ins', insns'[i]? = some (some ins') ∧
        InsnFate ap lbtf entry.2 i ins ins' (rep.Poisoned entry.1 i) := by
  obtain ⟨empty, none', _⟩ | ⟨rep₁, rep₂, ran, before, after⟩ := run
  · refine ⟨insns, ?_, fun i ins found => ?_⟩
    · rw [none', ← empty]
      exact decoded
    · obtain ⟨inside, _⟩ := (decode_insnIn decoded).mp found
      rw [empty] at inside
      exact absurd inside (Nat.not_lt_zero _)
  · obtain ⟨insns', decoded', each⟩ := decode_patched decoded (placed.narrow decoded)
      (records_derived ran (.refl sec.data))
    refine ⟨insns', decoded', fun i ins found => ⟨_, each i ins found, ?_⟩⟩
    obtain ⟨_, start, rfl⟩ := (decode_insnIn decoded).mp found
    have starts : ∀ r ∈ entry.2, isStart sec.data r.insnIdx = true ∧
        r.insnIdx * 8 + 8 ≤ sec.data.length := by
      intro r member
      obtain ⟨own, there⟩ := placed.records r member
      obtain ⟨inside, start, _⟩ := (decode_insnIn decoded).mp there
      exact ⟨start, by omega⟩
    have clean : rep₁.Poisoned entry.1 i ↔ false = true := by
      rw [before i]
      exact iff_of_false (fun ⟨_, listed⟩ => nomatch listed) false_ne_true
    obtain ⟨listed, steps, report⟩ :=
      records_insn ran (.refl sec.data) (closed_of_decode decoded) starts
      start clean
    exact insnFate_of_steps steps ((after i).trans report)

end Decode

/-- After a run the sections without records are as before, and so are the bytes of the others
outside of the instructions with a record. Every instruction decodes to what its records, one
after the other, make of it. -/
theorem patch_decode_round_trip (ap : Applier) (lbtf : Btf) (elf : Elf)
    (recs : List (String × List Record)) (sections sections' : List Section) (rep : Report)
    (indexed : Indexed sections) (keys : (recs.map Prod.fst).Nodup)
    (ran : ap.apply lbtf recs sections = .ok (sections', rep)) :
    (∀ k, (∀ entry ∈ recs, ∀ sec, sections.find? (·.name = entry.1) = some sec → sec.idx ≠ k) →
      sections'[k]? = sections[k]?) ∧
    ∀ entry ∈ recs, ∀ sec, sections.find? (·.name = entry.1) = some sec → ∃ data',
      sections'.find? (·.name = entry.1) = some { sec with data := data' } ∧
      (∀ p, (∀ r ∈ entry.2, ¬ (r.insnIdx * 8 ≤ p ∧ p < r.insnIdx * 8 + 8)) →
        (∀ r ∈ entry.2, isWide sec.data r.insnIdx = true →
          ¬ (r.insnIdx * 8 + 12 ≤ p ∧ p < r.insnIdx * 8 + 16)) → data'[p]? = sec.data[p]?) ∧
      ∀ insns, decode elf sec = .ok insns → Placed sec.data insns entry.2 →
        ∃ insns', decode elf { sec with data := data' } = .ok insns' ∧
          ∀ i ins, insns[i]? = some (some ins) → ∃ ins', insns'[i]? = some (some ins') ∧
            InsnFate ap lbtf entry.2 i ins ins' (rep.Poisoned entry.1 i) := by
  have run : ObjectRun ap lbtf recs (sections, ⟨[], []⟩) (sections', rep) :=
    apply_run keys indexed ran
  refine ⟨run.others, fun entry member sec found => ?_⟩
  obtain ⟨data', found', own⟩ := run.own entry member sec found
  refine ⟨data', found', fun p first second => ?_, fun insns decoded placed =>
    section_fates decoded placed own⟩
  obtain ⟨empty, none', _⟩ | ⟨rep₁, rep₂, records, _⟩ := own
  · rw [none', empty]
  · exact records_outside records (.refl sec.data) first second

/-! One record, and two on one instruction. -/

/-- A load of the field a of the struct s, and the exit. -/
def loadA (off : Byte) : Section :=
  ⟨0, "tc", 1, 6, 16, [0x61, 0x10, off, 0, 0, 0, 0, 0, 0x95, 0, 0, 0, 0, 0, 0, 0]⟩

def loadRecs : List (String × List Record) := [("tc", [⟨0, 2, [0, 0], .fieldByteOffset⟩])]

theorem loadA_indexed : Indexed [loadA 0] := by
  intro i s here
  cases i with
  | zero =>
    cases here
    rfl
  | succ i => cases here

def plainObject (sections : List Section) : Elf where
  sections := sections
  symbols := []
  relocs _ _ := none
  mapDefs _ := none
  kconfigExterns _ := none
  kconfig := none
  coreReloSections := []
  coreApplied := true
  corePoison _ _ := none
  btfFuncs := none
  declTags := []
  funcRetBits _ := none

def loadInsn (off : Int) : Insn := ⟨0x61, 0, 1, off, 0, none, 0⟩

theorem loadA_decoded : decode (plainObject [loadA 0]) (loadA 0) =
    .ok [some (loadInsn 0), some ⟨0x95, 0, 0, 0, 0, none, 0⟩] := by
  decide +kernel

theorem loadA_placed : Placed (loadA 0).data [some (loadInsn 0), some ⟨0x95, 0, 0, 0, 0, none, 0⟩]
    [⟨0, 2, [0, 0], .fieldByteOffset⟩] := by
  refine ⟨by simp, fun i none' => ?_⟩
  match i with
  | 0 | 1 => cases none'
  | i + 2 => cases none'

theorem round_trip_load : ∃ sections' rep,
    (⟨paddedTarget, []⟩ : Applier).apply flatStruct loadRecs [loadA 0] = .ok (sections', rep) ∧
      ∃ insns', decode (plainObject [loadA 0]) (loadA 4) = .ok insns' ∧
        ∃ ins', insns'[0]? = some (some ins') ∧ ins'.off = 4 ∧ ins'.op = 0x61 := by
  have ran : (⟨paddedTarget, []⟩ : Applier).apply flatStruct loadRecs [loadA 0] =
      .ok ([loadA 4], ⟨[], []⟩) := rfl
  refine ⟨_, _, ran, ?_⟩
  obtain ⟨_, own⟩ := patch_decode_round_trip _ _ (plainObject [loadA 0]) _ _ _ _ loadA_indexed
    (by decide) ran
  obtain ⟨data', found, _, fates⟩ := own _ (.head _) (loadA 0) rfl
  cases found
  obtain ⟨insns', decoded', each⟩ := fates _ loadA_decoded loadA_placed
  obtain ⟨ins', found', fate⟩ := each 0 _ rfl
  refine ⟨insns', decoded', ins', found', ?_⟩
  obtain ⟨_, none'⟩ | ⟨v, ⟨before, r, after, l, ok, shape, _, _, value⟩, put⟩ :=
    fate.patched fun ⟨_, listed⟩ => nomatch listed
  · exact absurd rfl (none' _ (.head _))
  obtain rfl : r = ⟨0, 2, [0, 0], .fieldByteOffset⟩ := by
    have member : r ∈ before ++ r :: after := by simp
    rw [← shape] at member
    exact mem_singleton.mp member
  have relocated : (⟨paddedTarget, []⟩ : Applier).outcome flatStruct
      ⟨0, 2, [0, 0], .fieldByteOffset⟩ = .ok (.value 4 0 true) := rfl
  cases relocated.symm.trans value
  cases put
  exact ⟨rfl, rfl⟩

def poisonedLoad : Section :=
  { loadA 0 with data := [0x85, 0, 0, 0, 0x10, 0x23, 0xad, 0x0b, 0x95, 0, 0, 0, 0, 0, 0, 0] }

def wideLoad (hi : List Byte) : Section :=
  { loadA 0 with data := [0x18, 1, 0, 0, 5, 0, 0, 0] ++ hi }

/-- A record that patches the load on its own poisons it when it comes a second time. A record
on the second slot of a 64-bit immediate changes the immediate, and the slot it reports does
not decode to the poison call. -/
theorem records_interfere :
    (⟨paddedTarget, []⟩ : Applier).apply flatStruct loadRecs [loadA 0] = .ok ([loadA 4], ⟨[], []⟩) ∧
    (∃ rep, (⟨paddedTarget, []⟩ : Applier).apply flatStruct
        [("tc", [⟨0, 2, [0, 0], .fieldByteOffset⟩, ⟨0, 2, [0, 0], .fieldByteOffset⟩])] [loadA 0] =
          .ok ([poisonedLoad], rep) ∧ rep.Poisoned "tc" 0) ∧
    (∃ rep, (⟨paddedTarget, []⟩ : Applier).apply flatStruct
        [("tc", [⟨1, 2, [0, 0], .fieldByteOffset⟩])] [wideLoad [0, 0, 0, 0, 0, 0, 0, 0]] =
          .ok ([wideLoad [0x85, 0, 0, 0, 0x10, 0x23, 0xad, 0x0b]], rep) ∧ rep.Poisoned "tc" 1) ∧
    decode (plainObject []) (wideLoad [0x85, 0, 0, 0, 0x10, 0x23, 0xad, 0x0b]) =
      .ok [some ⟨0x18, 1, 0, 0, 5, none, 0xbad231000000005⟩, none] := by
  refine ⟨rfl, ⟨_, rfl, _, (.head _)⟩, ⟨_, rfl, _, (.head _)⟩, ?_⟩
  decide +kernel

end BpfEquiv.Core
