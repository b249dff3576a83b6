import BpfEquiv.CoreAnon

/-!
Patched instructions.

A record writes its value into the offset or the immediate of an instruction, or replaces the
instruction by the poison call. No patch touches an opcode. The sections of an object stand at
their own indices, so that the patched bytes go back to the section they came from.
-/
namespace BpfEquiv.Core

open List

variable {buf buf' : List Byte} {idx : Nat} {sections : List Section}

/-! Bytes. -/

theorem length_intBytes (n : Nat) (v : Int) : (intBytes n v).length = n := by
  induction n generalizing v with
  | zero => rfl
  | succ n ih => rw [intBytes, length_cons, ih]

theorem writeBytes_get {bs : List Byte} {off : Nat} (h : writeBytes buf off bs = .ok buf')
    (i : Nat) : buf'[i]? = if off ≤ i ∧ i < off + bs.length then bs[i - off]? else buf[i]? := by
  unfold writeBytes at h
  split at h
  · rename_i room
    cases h
    have front : (buf.take off).length = off := by
      rw [length_take]
      omega
    rw [append_assoc]
    by_cases low : i < off
    · rw [if_neg (by omega), List.getElem?_append_left (by omega), List.getElem?_take_of_lt low]
    rw [List.getElem?_append_right (by omega), front]
    by_cases inside : i < off + bs.length
    · rw [if_pos (by omega), List.getElem?_append_left (by omega)]
    · rw [if_neg (by omega), List.getElem?_append_right (by omega), List.getElem?_drop]
      congr 1
      omega
  · cases h

theorem writeBytes_outside {bs : List Byte} {off i : Nat}
    (h : writeBytes buf off bs = .ok buf') (outside : i < off ∨ off + bs.length ≤ i) :
    buf'[i]? = buf[i]? := by
  rw [writeBytes_get h, if_neg (by omega)]

/-! One instruction. -/

theorem patchInsn_cases {val : Int} {localVal : Option Int}
    {validate : Bool} (h : patchInsn buf idx val localVal validate = .ok (.ok buf')) :
    ∃ code, buf[idx * 8]? = some code ∧
      ((code.toNat % 8 ∈ [1, 2, 3] ∧ (-32768 ≤ val ∧ val ≤ 32767) ∧
          writeBytes buf (idx * 8 + 2) (intBytes 2 val) = .ok buf') ∨
        (code.toNat % 8 ∈ [4, 7] ∧ (-2147483648 ≤ val ∧ val < 2147483648) ∧
          writeBytes buf (idx * 8 + 4) (intBytes 4 val) = .ok buf') ∨
        (code = 0x18 ∧ ∃ mid, writeBytes buf (idx * 8 + 4) (intBytes 4 val) = .ok mid ∧
          writeBytes mid (idx * 8 + 12) (intBytes 4 (val / 2 ^ 32)) = .ok buf')) := by
  unfold patchInsn at h
  dsimp only at h
  split at h
  · cases h
  rename_i code here
  refine ⟨code, here, ?_⟩
  split_ifs at h with memory fits alu register fits wide short <;> try cases h
  all_goals obtain ⟨old, _, h⟩ := Exc.bind_eq_ok.mp h
  · split at h
    · cases h
    obtain ⟨out, wrote, ⟨⟩⟩ := Exc.bind_eq_ok.mp h
    exact .inl ⟨by simpa using memory, fits, wrote⟩
  · split at h <;> cases h
  · split at h
    · cases h
    obtain ⟨out, wrote, ⟨⟩⟩ := Exc.bind_eq_ok.mp h
    exact .inr (.inl ⟨by simpa using alu, fits, wrote⟩)
  · split at h <;> cases h
  · obtain ⟨hi, _, h⟩ := Exc.bind_eq_ok.mp h
    split at h
    · cases h
    obtain ⟨mid, first, h⟩ := Exc.bind_eq_ok.mp h
    obtain ⟨out, second, ⟨⟩⟩ := Exc.bind_eq_ok.mp h
    exact .inr (.inr ⟨wide, mid, first, second⟩)

theorem patchInsn_opcode {val : Int} {localVal : Option Int}
    {validate : Bool} (h : patchInsn buf idx val localVal validate = .ok (.ok buf')) (j : Nat) :
    buf'[j * 8]? = buf[j * 8]? := by
  obtain ⟨code, _, ⟨_, _, wrote⟩ | ⟨_, _, wrote⟩ | ⟨_, mid, first, second⟩⟩ := patchInsn_cases h
  · exact writeBytes_outside wrote (by rw [length_intBytes]; omega)
  · exact writeBytes_outside wrote (by rw [length_intBytes]; omega)
  · rw [writeBytes_outside second (by rw [length_intBytes]; omega),
      writeBytes_outside first (by rw [length_intBytes]; omega)]

/-! The object. -/

def Report.Poisoned (rep : Report) (secname : String) (idx : Nat) : Prop :=
  ∃ why, ((secname, idx), why) ∈ rep.poison

/-- Every section stands at its own index. -/
def Indexed (sections : List Section) : Prop :=
  ∀ (i : Nat) (s : Section), sections[i]? = some s → s.idx = i

theorem Indexed.modify_eq_map (indexed : Indexed sections) (i : Nat)
    (f : Section → Section) :
    sections.modify i f = sections.map fun s => if s.idx = i then f s else s := by
  refine ext_getElem? fun j => ?_
  rw [List.getElem?_modify, List.getElem?_map]
  cases here : sections[j]? with
  | none => rfl
  | some s =>
    have at' := indexed j s here
    by_cases same : i = j
    · simp [same, at']
    · have apart : s.idx ≠ i := by omega
      simp [same, apart]

theorem Indexed.modify {sections : List Section} (indexed : Indexed sections) {i : Nat}
    {f : Section → Section} (idx : ∀ s, (f s).idx = s.idx) : Indexed (sections.modify i f) := by
  intro j s there
  rw [indexed.modify_eq_map, List.getElem?_map] at there
  obtain ⟨s', here, rfl⟩ := Option.map_eq_some_iff.mp there
  split
  · rw [idx, indexed j s' here]
  · exact indexed j s' here

theorem Indexed.find_modify (indexed : Indexed sections) {i : Nat}
    {f : Section → Section} (name : ∀ s, (f s).name = s.name) (asked : String) :
    (sections.modify i f).find? (·.name = asked) =
      (sections.find? (·.name = asked)).map fun s => if s.idx = i then f s else s := by
  rw [indexed.modify_eq_map, List.find?_map]
  congr 2
  funext s
  simp only [Function.comp]
  split
  · rw [name]
  · rfl

theorem Indexed.eq_of_idx (indexed : Indexed sections) {s s' : Section}
    (here : s ∈ sections) (there : s' ∈ sections) (same : s.idx = s'.idx) : s = s' := by
  obtain ⟨i, at'⟩ := mem_iff_getElem?.mp here
  obtain ⟨j, at''⟩ := mem_iff_getElem?.mp there
  rw [indexed i s at', indexed j s' at''] at same
  subst same
  exact Option.some.inj (at'.symm.trans at'')

end BpfEquiv.Core
