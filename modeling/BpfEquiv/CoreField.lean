import BpfEquiv.BitField
import BpfEquiv.CoreRelo

/-!
What a field relocation makes a program read.

The search by name returns the member it found, but the access it records has no step for the
anonymous members it went through. The size of a bitfield is looked up again with the index of
the found member in the type of the step before, which is another type if the member was
inside an anonymous one. The load window and the shifts follow from that size.
-/
namespace BpfEquiv.Core

open List

variable {lbtf tbtf btf : Btf} {lacc acc : Accessor} {tspec tspec' spec : Spec}
  {tid bitOff bitSz : Nat} {steps : List Accessor}

/-! The recorded access. -/

theorem searchMembers_found {descend : Nat → Spec → R (Option Found)} {m : BtfMember}
    (inner : ∀ tid spec spec' m, descend tid spec = .ok (some (m, spec')) →
      (∃ i, spec'.accessors = spec.accessors ++ [⟨i, some m.name, m.type⟩]) ∧
        fieldsAreCompat lbtf lacc.typeId tbtf m.type = true)
    {i : Nat} {ms : List BtfMember}
    (h : searchMembers descend lbtf lacc tbtf tspec i ms = .ok (some (m, tspec'))) :
    (∃ k, tspec'.accessors = tspec.accessors ++ [⟨k, some m.name, m.type⟩]) ∧
      fieldsAreCompat lbtf lacc.typeId tbtf m.type = true := by
  induction ms generalizing i with
  | nil => cases h
  | cons x ms ih =>
    rw [searchMembers] at h
    split at h
    · obtain ⟨found, went, rest⟩ := Exc.bind_eq_ok.mp h
      cases found with
      | none => exact ih rest
      | some hit =>
        cases rest
        have hit := inner _ _ _ _ went
        exact hit
    · split at h
      · split at h
        · cases h
        · rename_i passed
          cases h
          exact ⟨⟨i, rfl⟩, by simpa using passed⟩
      · exact ih h

/-- A found member is compatible and ends the access; nothing is recorded of the way to it. -/
theorem matchMember_found {fuel : Nat} {m : BtfMember}
    (h : matchMemberFrom lbtf lacc tbtf fuel tid tspec = .ok (some (m, tspec'))) :
    (∃ i, tspec'.accessors = tspec.accessors ++ [⟨i, some m.name, m.type⟩]) ∧
      fieldsAreCompat lbtf lacc.typeId tbtf m.type = true := by
  induction fuel generalizing tid tspec tspec' m with
  | zero => cases h
  | succ fuel ih =>
    rw [matchMemberFrom] at h
    split at h
    · cases h
    · exact searchMembers_found (fun _ _ _ _ went => ih went) h

/-- The last step of an access leads to a type. -/
def Spec.EndsAt (spec : Spec) (tid : Nat) : Prop :=
  ∃ acc, spec.accessors.getLast? = some acc ∧ acc.typeId = tid

theorem Spec.endsAt_push (spec : Spec) (acc : Accessor) (bits : Nat) :
    (spec.push acc bits).EndsAt acc.typeId :=
  ⟨acc, List.getLast?_concat, rfl⟩

theorem matchStep_endsAt {tid' : Nat}
    (h : matchStep lbtf lacc tbtf tid tspec = .ok (some (tid', tspec'))) : tspec'.EndsAt tid' := by
  unfold matchStep at h
  split at h
  · obtain ⟨found, went, rest⟩ := Exc.bind_eq_ok.mp h
    cases found with
    | none => cases rest
    | some hit =>
      cases rest
      obtain ⟨⟨i, accessors⟩, _⟩ := matchMember_found went
      exact ⟨_, by rw [accessors, List.getLast?_concat], rfl⟩
  · unfold matchIndex at h
    dsimp only at h
    split at h
    · split at h
      · cases h
      obtain ⟨size, _, rest⟩ := Exc.bind_eq_ok.mp h
      cases size with
      | none => cases rest
      | some es =>
        cases rest
        exact Spec.endsAt_push _ _ _
    · split at h
      · split at h
        · cases h
        split at h
        · cases h
        · cases h
          exact Spec.endsAt_push _ _ _
      · cases h

theorem matchSteps_endsAt {tid' : Nat}
    (h : matchSteps lbtf tbtf steps tid tspec = .ok (some (tid', tspec')))
    (start : tspec.EndsAt tid) : tspec'.EndsAt tid' := by
  induction steps generalizing tid tspec with
  | nil =>
    cases h
    exact start
  | cons lacc rest ih =>
    obtain ⟨next, step, later⟩ := Exc.bind_eq_ok.mp h
    cases next with
    | none => cases later
    | some hit => exact ih later (matchStep_endsAt step)

theorem matchSteps_snoc {out : Nat × Spec}
    (h : matchSteps lbtf tbtf (steps ++ [lacc]) tid tspec = .ok (some out)) :
    ∃ mid, matchSteps lbtf tbtf steps tid tspec = .ok (some mid) ∧
      matchStep lbtf lacc tbtf mid.1 mid.2 = .ok (some out) := by
  induction steps generalizing tid tspec with
  | nil =>
    obtain ⟨next, step, later⟩ := Exc.bind_eq_ok.mp h
    cases next with
    | none => cases later
    | some hit =>
      cases later
      exact ⟨(tid, tspec), rfl, step⟩
  | cons first rest ih =>
    rw [cons_append, matchSteps] at h
    obtain ⟨next, step, later⟩ := Exc.bind_eq_ok.mp h
    cases next with
    | none => cases later
    | some hit =>
      obtain ⟨mid, steps', last⟩ := ih later
      refine ⟨mid, ?_, last⟩
      rw [matchSteps]
      exact Exc.bind_eq_ok.mpr ⟨some hit, step, steps'⟩

/-- The access to an element of an array of the root type. -/
def startSpec (tRoot idx tsz : Nat) : Spec := ⟨tRoot, [⟨idx, none, tRoot⟩], idx * tsz * 8⟩

/-- The member that the search by name found for the last step of a local access, and the
step before it in the access that was recorded. -/
structure Matched (lbtf : Btf) (lacc0 : Accessor) (steps : List Accessor) (lacc : Accessor)
    (tbtf : Btf) (tRoot : Nat) (tspec : Spec) (m : BtfMember) (before : Accessor) (i : Nat) :
    Prop where
  found : ∃ tsz tid tspec₀, tbtf.typeSize tRoot = .ok (some tsz) ∧
    matchSteps lbtf tbtf steps tRoot (startSpec tRoot lacc0.idx tsz) = .ok (some (tid, tspec₀)) ∧
    matchMember lbtf lacc tbtf tid tspec₀ = .ok (some (m, tspec)) ∧
    tspec₀.accessors.getLast? = some before ∧ before.typeId = tid ∧
    tspec.accessors = tspec₀.accessors ++ [⟨i, some m.name, m.type⟩]

theorem matchSpec_matched {lspec : Spec} {tRoot : Nat}
    (h : matchSpec lbtf lspec tbtf tRoot = .ok (some tspec))
    (field : (lbtf.resolve lspec.rootId).kind.isEnum = false) {lacc0 : Accessor}
    (shape : lspec.accessors = lacc0 :: (steps ++ [lacc])) {n : String}
    (named : lacc.name = some n) :
    ∃ m before i, Matched lbtf lacc0 steps lacc tbtf tRoot tspec m before i := by
  unfold matchSpec at h
  simp only [shape, field, Bool.false_eq_true, if_false] at h
  obtain ⟨size, sized, h⟩ := Exc.bind_eq_ok.mp h
  cases size with
  | none => cases h
  | some tsz =>
    obtain ⟨out, matched, h⟩ := Exc.bind_eq_ok.mp h
    cases out with
    | none => cases h
    | some out =>
      cases h
      obtain ⟨mid, steps', last⟩ := matchSteps_snoc matched
      rw [matchStep, named] at last
      obtain ⟨hit, went, last⟩ := Exc.bind_eq_ok.mp last
      cases hit with
      | none => cases last
      | some hit =>
        cases last
        obtain ⟨⟨i, accessors⟩, _⟩ := matchMember_found went
        obtain ⟨before, isLast, leads⟩ :=
          matchSteps_endsAt steps' ⟨⟨lacc0.idx, none, tRoot⟩, rfl, rfl⟩
        exact ⟨hit.1, before, i, tsz, mid.1, mid.2, sized, steps', went, isLast, leads,
          accessors⟩

/-! Windows. -/

theorem widen_contains {fuel size byteOff byteSz : Nat}
    (h : widen bitOff bitSz fuel size = .ok (byteOff, byteSz)) :
    8 * byteOff ≤ bitOff ∧ bitOff + bitSz ≤ 8 * byteOff + 8 * byteSz := by
  induction fuel generalizing size with
  | zero => cases h
  | succ fuel ih =>
    rw [widen] at h
    split at h
    · split at h
      · cases h
      · exact ih h
    rename_i inside
    cases h
    have down := Nat.div_mul_le_self (bitOff / 8) byteSz
    omega

/-- The window of a named step, by the size that is looked up for it. -/
theorem fieldWindow_cases {before : Accessor} {w : Window}
    (isBefore : spec.accessors.dropLast.getLast? = some before)
    (h : fieldWindow btf spec acc = .ok w) :
    (recordedBitfield btf before acc = 0 ∧ btf.typeSize acc.typeId = .ok (some w.byteSz) ∧
        w.byteOff = spec.bitOffset / 8 ∧ w.bitSz = 8 * w.byteSz) ∨
      (recordedBitfield btf before acc ≠ 0 ∧ w.bitSz = recordedBitfield btf before acc ∧
        8 * w.byteOff ≤ spec.bitOffset ∧
        spec.bitOffset + w.bitSz ≤ 8 * w.byteOff + 8 * w.byteSz) := by
  unfold fieldWindow at h
  simp only [isBefore] at h
  split at h
  · rename_i none'
    obtain ⟨size, sized, h⟩ := Exc.bind_eq_ok.mp h
    cases size with
    | none => cases h
    | some byteSz =>
      cases h
      exact .inl ⟨none', sized, rfl, Nat.mul_comm _ _⟩
  · rename_i some'
    split at h
    · cases h
    · obtain ⟨window, widened, h⟩ := Exc.bind_eq_ok.mp h
      cases h
      exact .inr ⟨some', rfl, widen_contains widened⟩

/-! Reading a field. -/

/-- The values of the relocations with which a program reads one field. -/
structure FieldRelos where
  byteOff : Int
  byteSz : Int
  lshift : Int
  rshift : Int
  signed : Bool

/-- A field that is neither a number nor an enumeration has no sign. -/
def fieldRelos (btf : Btf) (spec : Spec) : R FieldRelos := do
  let byteOff ← fieldInfo btf spec .fieldByteOffset
  let byteSz ← fieldInfo btf spec .fieldByteSize
  let lshift ← fieldInfo btf spec .fieldLshiftU64
  let rshift ← fieldInfo btf spec .fieldRshiftU64
  let signed := match fieldInfo btf spec .fieldSigned with
    | .ok (v, _) => decide (v ≠ 0)
    | .error _ => false
  pure ⟨byteOff.1, byteSz.1, lshift.1, rshift.1, signed⟩

def FieldRelos.read (f : FieldRelos) (mem : BitField.Mem) : Int :=
  BitField.shifts (BitField.load mem f.byteOff.toNat f.byteSz.toNat) f.lshift f.rshift f.signed

def MemberWidth (btf : Btf) (m : BtfMember) (width : Nat) : Prop :=
  if m.bitfieldSize = 0 then ∃ sz, btf.typeSize m.type = .ok (some sz) ∧ width = 8 * sz
  else width = m.bitfieldSize

/-- The bitfield that was looked up is as wide as the member; if none was, the storage unit
ends with the member, and begins with it if it is signed. -/
def RecordFits (recorded start byteSz width : Nat) (signed : Bool) : Prop :=
  if recorded = 0 then
    start % 8 + width = 8 * byteSz ∧ (signed = true → start % 8 = 0) ∧ start % 8 + 8 * byteSz ≤ 64
  else recorded = width

theorem fieldInfo_named {btf : Btf} {spec : Spec} {acc : Accessor} {n : String}
    (last : spec.accessors.getLast? = some acc) (named : acc.name = some n) (kind : ReloKind) :
    fieldInfo btf spec kind =
      fieldWindow btf spec acc >>= fun w => windowInfo btf spec acc w kind := by
  unfold fieldInfo
  simp only [last, named]

theorem fieldRelos_window {n : String} {f : FieldRelos}
    (last : spec.accessors.getLast? = some acc) (named : acc.name = some n)
    (h : fieldRelos btf spec = .ok f) :
    ∃ w, fieldWindow btf spec acc = .ok w ∧ f.byteOff = w.byteOff ∧ f.byteSz = w.byteSz ∧
      f.lshift = 64 - (w.bitSz : Int) - ((spec.bitOffset : Int) - w.byteOff * 8) ∧
      f.rshift = 64 - (w.bitSz : Int) := by
  have info := @fieldInfo_named btf spec acc n last named
  unfold fieldRelos at h
  cases window : fieldWindow btf spec acc with
  | error e =>
    simp only [info, window] at h
    cases h
  | ok w =>
    simp only [info, window] at h
    cases h
    exact ⟨w, rfl, rfl, rfl, rfl, rfl⟩

/-- The first bit of a field that starts inside a byte is lost by an eight-byte load whose
shift count is negative. -/
theorem shifts_negative {start : Nat} (inside : 0 < start % 8) (signed : Bool) :
    BitField.shifts (BitField.load (BitField.oneBit start) (start / 8) 8)
      (64 - (64 : Nat) - ((start : Int) - (start / 8 : Nat) * 8)) (64 - (64 : Nat)) signed = 0 := by
  have left : (((64 : Int) - (64 : Nat) - ((start : Int) - (start / 8 : Nat) * 8)) % 64).toNat =
      64 - start % 8 := by omega
  have moved : BitVec.ofNat 64 (BitField.load (BitField.oneBit start) (start / 8) 8) <<<
      (64 - start % 8) = 0#64 := by
    refine BitVec.eq_of_getLsbD_eq fun i bound => ?_
    rw [BitVec.getLsbD_shiftLeft, BitVec.getLsbD_ofNat, BitField.testBit_load, BitField.bit_oneBit,
      BitVec.getLsbD_zero]
    by_cases low : i < 64 - start % 8
    · rw [decide_eq_true low, Bool.not_true, Bool.and_false, Bool.false_and]
    · rw [decide_eq_false (show ¬ 8 * (start / 8) + (i - (64 - start % 8)) = start by omega)]
      simp
  simp only [BitField.shifts, left, moved]
  cases signed <;> simp

/-- The relocations of an accepted access read the member that was found, in every memory,
just if the size that is looked up fits it; a member found outside anonymous ones is looked
up as itself. -/
theorem field_read_exact_iff (lbtf tbtf : Btf) (lspec tspec : Spec) (tRoot : Nat)
    (accepted : matchSpec lbtf lspec tbtf tRoot = .ok (some tspec))
    (field : (lbtf.resolve lspec.rootId).kind.isEnum = false) (lacc0 lacc : Accessor)
    (steps : List Accessor) (shape : lspec.accessors = lacc0 :: (steps ++ [lacc])) (n : String)
    (named : lacc.name = some n) :
    ∃ m before i, Matched lbtf lacc0 steps lacc tbtf tRoot tspec m before i ∧
      (∀ f width, fieldRelos tbtf tspec = .ok f → MemberWidth tbtf m width →
        f.byteSz ∈ [1, 2, 4, 8] →
        ((∀ mem, f.read mem = BitField.value mem tspec.bitOffset width f.signed) ↔
          RecordFits (recordedBitfield tbtf before ⟨i, some m.name, m.type⟩) tspec.bitOffset
            f.byteSz.toNat width f.signed)) ∧
      ((tbtf.resolve before.typeId).members[i]? = some m →
        (tbtf.resolve before.typeId).kind.isComposite = true →
        recordedBitfield tbtf before ⟨i, some m.name, m.type⟩ = m.bitfieldSize) := by
  obtain ⟨m, before, i, matched⟩ := matchSpec_matched accepted field shape named
  refine ⟨m, before, i, matched, fun f width relos wide loads => ?_, fun here composite => ?_⟩
  · obtain ⟨tsz, tid, tspec₀, _, _, _, isLast, _, accessors⟩ := matched.found
    have last : tspec.accessors.getLast? = some ⟨i, some m.name, m.type⟩ := by
      rw [accessors, List.getLast?_concat]
    have isBefore : tspec.accessors.dropLast.getLast? = some before := by
      rw [accessors, dropLast_concat, isLast]
    obtain ⟨w, window, offIs, sizeIs, leftIs, rightIs⟩ := fieldRelos_window last rfl relos
    have small : w.byteSz ≤ 8 ∧ 0 < w.byteSz := by
      rw [sizeIs] at loads
      simp only [mem_cons, not_mem_nil, or_false] at loads
      omega
    have read (mem : BitField.Mem) : f.read mem =
        BitField.shifts (BitField.load mem w.byteOff w.byteSz)
          (64 - (w.bitSz : Int) - ((tspec.bitOffset : Int) - w.byteOff * 8)) (64 - (w.bitSz : Int))
          f.signed := by
      rw [FieldRelos.read, offIs, sizeIs, leftIs, rightIs, Int.toNat_natCast, Int.toNat_natCast]
    rw [sizeIs, Int.toNat_natCast]
    obtain ⟨none', sized, off, whole⟩ | ⟨some', exact', low, high⟩ :=
      fieldWindow_cases isBefore window
    · -- no bitfield was looked up: the storage unit is read from the byte of the first bit
      rw [RecordFits, if_pos none']
      have positive : 0 < width := by
        unfold MemberWidth at wide
        split at wide
        · obtain ⟨sz, size, rfl⟩ := wide
          cases sized.symm.trans size
          omega
        · omega
      by_cases fits : tspec.bitOffset % 8 + 8 * w.byteSz ≤ 64
      · have step (mem : BitField.Mem) := @BitField.shifts_load mem tspec.bitOffset w.byteOff
          w.byteSz w.bitSz small.1 (by omega) (by omega) (by omega) (by omega) f.signed
        simp only [read, step]
        rw [BitField.value_eq_iff (by omega)]
        cases f.signed with
        | false => simp; omega
        | true => simp; omega
      · refine iff_of_false (fun same => ?_) fun good => fits good.2.2
        have eight : w.byteSz = 8 := by
          rw [sizeIs] at loads
          simp only [mem_cons, not_mem_nil, or_false] at loads
          omega
        have lost := same (BitField.oneBit tspec.bitOffset)
        rw [read, off, whole, eight, shifts_negative (by omega)] at lost
        refine @BitField.value_oneBit_ne 0 tspec.bitOffset width positive f.signed ?_
        rw [Nat.add_zero, ← lost]
    · rw [RecordFits, if_neg some']
      have step (mem : BitField.Mem) := @BitField.shifts_load mem tspec.bitOffset w.byteOff
        w.byteSz w.bitSz small.1 low (by omega) (by omega) (by omega) f.signed
      simp only [read, step]
      rw [BitField.value_eq_iff (by omega)]
      have inside : tspec.bitOffset - 8 * w.byteOff + w.bitSz ≤ 8 * w.byteSz := by omega
      rw [decide_eq_true inside, Bool.and_true, ← exact']
      simp only [and_true]
      omega
  · rw [recordedBitfield, if_pos composite, here]
    rfl

/-! A bitfield beside others, and the same bitfield inside an anonymous struct. -/

def intType : BtfType := { kind := .int, name := "int", size := 4, intSigned := true }

/-- The struct s with the bitfield b only. -/
def plainBitfield : Btf :=
  .ofTypes [intType,
    { kind := .struct, name := "s", kflag := true, size := 4, members := [⟨"b", 1, 0, 5⟩] }]

/-- The struct s with b behind another bitfield, both directly in it. -/
def besideBitfield : Btf :=
  .ofTypes [intType,
    { kind := .struct, name := "s", kflag := true, size := 4,
      members := [⟨"a", 1, 0, 3⟩, ⟨"b", 1, 3, 5⟩] }]

/-- The struct s with both bitfields in an anonymous struct in front of a plain member. -/
def anonBitfield : Btf :=
  .ofTypes [intType,
    { kind := .struct, kflag := true, size := 4, members := [⟨"a", 1, 0, 3⟩, ⟨"b", 1, 3, 5⟩] },
    { kind := .struct, name := "s", size := 8, members := [⟨"", 2, 0, 0⟩, ⟨"x", 1, 32, 0⟩] }]

def bSpec : Spec := ⟨2, [⟨0, none, 2⟩, ⟨0, some "b", 1⟩], 0⟩

theorem field_read_exact_beside :
    parseSpec plainBitfield 2 [0, 0] .fieldByteOffset = .ok bSpec ∧
      ∃ tspec f, matchSpec plainBitfield bSpec besideBitfield 2 = .ok (some tspec) ∧
        fieldRelos besideBitfield tspec = .ok f ∧
        ∀ mem, f.read mem = BitField.value mem tspec.bitOffset 5 f.signed := by
  have accepted : matchSpec plainBitfield bSpec besideBitfield 2 =
      .ok (some ⟨2, [⟨0, none, 2⟩, ⟨1, some "b", 1⟩], 3⟩) := by decide +kernel
  have relos : fieldRelos besideBitfield ⟨2, [⟨0, none, 2⟩, ⟨1, some "b", 1⟩], 3⟩ =
      .ok ⟨0, 4, 56, 59, true⟩ := by rfl
  refine ⟨by decide +kernel, _, _, accepted, relos, ?_⟩
  obtain ⟨m, before, i, matched, exact', _⟩ := field_read_exact_iff plainBitfield besideBitfield
    bSpec _ 2 accepted (by decide +kernel) ⟨0, none, 2⟩ ⟨0, some "b", 1⟩ [] rfl "b" rfl
  obtain ⟨tsz, tid, tspec₀, sized, steps, found, isLast, leads, accessors⟩ := matched.found
  cases steps
  cases isLast
  have size : besideBitfield.typeSize 2 = .ok (some 4) := by decide +kernel
  cases size.symm.trans sized
  have hit : matchMember plainBitfield ⟨0, some "b", 1⟩ besideBitfield 2 (startSpec 2 0 4) =
      .ok (some (⟨"b", 1, 3, 5⟩, ⟨2, [⟨0, none, 2⟩, ⟨1, some "b", 1⟩], 3⟩)) := by decide +kernel
  cases hit.symm.trans found
  obtain rfl : 1 = i := by simpa [startSpec] using accessors
  exact (exact' _ 5 relos (by simp [MemberWidth]) (by decide)).mpr rfl

/-- The relocations of b take the plain member x for it, load four bytes and do not cut off
the bits behind b. -/
theorem bitfield_misread :
    (⟨anonBitfield, []⟩ : Applier).relocate plainBitfield 2 [0, 0] .fieldRshiftU64 =
        .ok (.value 32 59 true) ∧
      ∃ tspec f, matchSpec plainBitfield bSpec anonBitfield 3 = .ok (some tspec) ∧
        matchMember plainBitfield ⟨0, some "b", 1⟩ anonBitfield 3 (startSpec 3 0 8) =
          .ok (some (⟨"b", 1, 3, 5⟩, tspec)) ∧
        fieldRelos anonBitfield tspec = .ok f ∧ f.read (fun _ => 1) = 2105376 ∧
        BitField.value (fun _ => 1) tspec.bitOffset 5 f.signed = 0 := by
  refine ⟨by decide +kernel, ⟨3, [⟨0, none, 3⟩, ⟨1, some "b", 1⟩], 3⟩, ⟨0, 4, 29, 32, true⟩,
    ?_, ?_, ?_,
    ?_, ?_⟩
  · decide +kernel
  · decide +kernel
  · rfl
  · decide +kernel
  · decide +kernel

/-! Windows of bitfields. -/

/-- A window of bytes that can be loaded at once and has all bits of a field. -/
structure LoadWindow (bitOff bitSz byteOff byteSz : Nat) : Prop where
  loads : byteSz ∈ [1, 2, 4, 8]
  aligned : byteSz ∣ byteOff
  starts : 8 * byteOff ≤ bitOff
  ends : bitOff + bitSz ≤ 8 * byteOff + 8 * byteSz

/-- The window of eight bytes around the first bit has every smaller window in it. -/
theorem no_window (some_bit : 0 < bitSz)
    (spans : bitOff / 8 / 8 * 8 * 8 + 8 * 8 < bitOff + bitSz) (byteOff byteSz : Nat) :
    ¬ LoadWindow bitOff bitSz byteOff byteSz := by
  intro ⟨loads, aligned, starts, ends⟩
  obtain ⟨k, rfl⟩ := aligned
  simp only [mem_cons, not_mem_nil, or_false] at loads
  rcases loads with rfl | rfl | rfl | rfl <;> omega

/-- The loop ends with a window, or at eight bytes that do not have the field. -/
theorem widen_ends {bitOff bitSz k fuel : Nat} (small : k ≤ 3) (enough : 4 ≤ k + fuel) :
    (widen bitOff bitSz fuel (2 ^ k) = coreError "bitfield spans >8 bytes" ∧
      bitOff / 8 / 8 * 8 * 8 + 8 * 8 < bitOff + bitSz) ∨
    ∃ byteOff byteSz, widen bitOff bitSz fuel (2 ^ k) = .ok (byteOff, byteSz) ∧
      LoadWindow bitOff bitSz byteOff byteSz := by
  induction fuel generalizing k with
  | zero => omega
  | succ fuel ih =>
    have loads : 2 ^ k ∈ [1, 2, 4, 8] := by interval_cases k <;> decide
    rw [widen]
    split
    · rename_i outside
      by_cases last : k = 3
      · subst last
        exact .inl ⟨if_pos (Nat.le_refl 8), outside⟩
      · have smaller : k ≤ 2 := by omega
        rw [if_neg (by interval_cases k <;> decide), ← Nat.pow_succ]
        exact ih (by omega) (by omega)
    · rename_i inside
      have down := Nat.div_mul_le_self (bitOff / 8) (2 ^ k)
      exact .inr ⟨_, _, rfl, loads, Nat.dvd_mul_left _ _, by omega, by omega⟩

/-- The shifts keep the field of a window and nothing else. -/
theorem LoadWindow.read {byteOff byteSz : Nat}
    (window : LoadWindow bitOff bitSz byteOff byteSz) (some_bit : 0 < bitSz) (signed : Bool)
    (mem : BitField.Mem) :
    BitField.shifts (BitField.load mem byteOff byteSz) (64 - bitSz - ((bitOff : Int) - byteOff * 8))
        (64 - bitSz) signed = BitField.value mem bitOff bitSz signed := by
  obtain ⟨loads, _, starts, ends⟩ := window
  have small : byteSz ≤ 8 := by
    simp only [mem_cons, not_mem_nil, or_false] at loads
    omega
  rw [BitField.shifts_load small starts (by omega) (by omega) some_bit,
    decide_eq_true (show bitOff - 8 * byteOff + bitSz ≤ 8 * byteSz by omega), Bool.and_true,
    Nat.min_eq_left (by omega)]

/-- The relocations of a bitfield whose window was found. -/
structure ExactRelos (f : FieldRelos) (bitOff bitSz byteOff byteSz : Nat) : Prop where
  offset : f.byteOff = byteOff
  size : f.byteSz = byteSz
  lshift : 0 ≤ f.lshift ∧ f.lshift ≤ 63
  rshift : 0 ≤ f.rshift ∧ f.rshift ≤ 63
  exact : ∀ mem signed,
    BitField.shifts (BitField.load mem f.byteOff.toNat f.byteSz.toNat) f.lshift f.rshift signed =
      BitField.value mem bitOff bitSz signed

theorem fieldWindow_bitfield {before : Accessor}
    (isBefore : spec.accessors.dropLast.getLast? = some before)
    (recorded : recordedBitfield btf before acc = bitSz) (some_bit : 0 < bitSz)
    (sized : (btf.resolve acc.typeId).size ≠ 0) :
    fieldWindow btf spec acc =
      widen spec.bitOffset bitSz 4 (btf.resolve acc.typeId).size >>= fun window =>
        pure ⟨window.1, window.2, bitSz, false⟩ := by
  unfold fieldWindow
  simp only [isBefore, recorded, if_neg (Nat.ne_of_gt some_bit), if_neg sized]

/-- The window of a bitfield in a unit of one, two, four or eight bytes. It
is missing only where no window has the field; else the relocations read the field, in every
memory. -/
theorem bitfield_window_exact (btf : Btf) (spec : Spec) (before acc : Accessor) (n : String)
    (last : spec.accessors.getLast? = some acc)
    (isBefore : spec.accessors.dropLast.getLast? = some before) (named : acc.name = some n)
    (bitSz : Nat) (recorded : recordedBitfield btf before acc = bitSz) (some_bit : 1 ≤ bitSz)
    (storage : (btf.resolve acc.typeId).size ∈ [1, 2, 4, 8]) :
    ((∀ kind, fieldInfo btf spec kind = coreError "bitfield spans >8 bytes") ∧
      ∀ byteOff byteSz, ¬ LoadWindow spec.bitOffset bitSz byteOff byteSz) ∨
    ∃ byteOff byteSz f, fieldRelos btf spec = .ok f ∧
      LoadWindow spec.bitOffset bitSz byteOff byteSz ∧
      ExactRelos f spec.bitOffset bitSz byteOff byteSz := by
  obtain ⟨k, small, unit⟩ : ∃ k ≤ 3, (btf.resolve acc.typeId).size = 2 ^ k := by
    simp only [mem_cons, not_mem_nil, or_false] at storage
    rcases storage with size | size | size | size
    · exact ⟨0, by decide, size⟩
    · exact ⟨1, by decide, size⟩
    · exact ⟨2, by decide, size⟩
    · exact ⟨3, by decide, size⟩
  have nonzero : (btf.resolve acc.typeId).size ≠ 0 := by
    rw [unit]
    exact Nat.ne_of_gt (Nat.two_pow_pos k)
  have window := fieldWindow_bitfield isBefore recorded some_bit nonzero
  rw [unit] at window
  obtain ⟨raised, spans⟩ | ⟨byteOff, byteSz, found, loads⟩ :=
    @widen_ends spec.bitOffset bitSz k 4 small (by omega)
  · refine .inl ⟨fun kind => ?_, no_window some_bit spans⟩
    rw [fieldInfo_named last named, window, raised]
    rfl
  rw [found] at window
  obtain ⟨f, relos⟩ : ∃ f, fieldRelos btf spec = .ok f := by
    unfold fieldRelos
    simp only [fieldInfo_named last named, window]
    exact ⟨_, rfl⟩
  obtain ⟨w, same, offset, size, left, right⟩ := fieldRelos_window last named relos
  cases window.symm.trans same
  obtain ⟨starts, ends, bytes⟩ : 8 * byteOff ≤ spec.bitOffset ∧
      spec.bitOffset + bitSz ≤ 8 * byteOff + 8 * byteSz ∧ byteSz ≤ 8 := by
    refine ⟨loads.starts, loads.ends, ?_⟩
    have one := loads.loads
    simp only [mem_cons, not_mem_nil, or_false] at one
    omega
  refine .inr ⟨byteOff, byteSz, f, relos, loads, offset, size, ?_, ?_, fun mem signed => ?_⟩
  · rw [left]
    dsimp only
    omega
  · rw [right]
    dsimp only
    omega
  · rw [offset, size, left, right]
    exact loads.read some_bit signed mem

theorem bitfield_window_beside : ∃ byteOff byteSz f,
    fieldRelos besideBitfield ⟨2, [⟨0, none, 2⟩, ⟨1, some "b", 1⟩], 3⟩ = .ok f ∧
      LoadWindow 3 5 byteOff byteSz ∧ ExactRelos f 3 5 byteOff byteSz := by
  have either := bitfield_window_exact besideBitfield ⟨2, [⟨0, none, 2⟩, ⟨1, some "b", 1⟩], 3⟩
    ⟨0, none, 2⟩ ⟨1, some "b", 1⟩ "b" rfl rfl rfl 5 (by decide +kernel) (by decide)
    (by decide +kernel)
  exact either.resolve_left fun ⟨_, none'⟩ => none' 0 1 ⟨by decide, by decide, by decide, by decide⟩

end BpfEquiv.Core
