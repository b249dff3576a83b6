import BpfEquiv.CoreDecode
import BpfEquiv.CoreModules
import BpfEquiv.Alu

/-!
Access sizes.

The size of a load or store is in its opcode. A record with the byte offset of a field puts
the offset of the target into the instruction and leaves the opcode. So an instruction that is
not poisoned accesses the field at its place in the target with the size of the field in the
object, and the two sizes agree just if the compiler found the field as large as it is.
-/
namespace BpfEquiv.Core

open List

variable {ap : Applier} {lbtf : Btf} {r : Record} {spec : Spec} {cands : List Cand}
  {matched : List Match} {vals : List Int} {validate : Bool} {v l off : Int} {res : Relocated}

/-! Fields of the target. -/

def Kind.isScalar (k : Kind) : Bool :=
  k = .int || k = .ptr || k = .enum || k = .enum64 || k = .float

/-- The access finds a scalar or pointer of n bytes that is no bitfield. -/
structure FieldSize (lbtf : Btf) (spec : Spec) (c : Cand) (tspec : Spec) (acc : Accessor)
    (n : Nat) :
    Prop where
  found : matchSpec lbtf spec c.1 c.2 = .ok (some tspec)
  last : tspec.accessors.getLast? = some acc
  scalar : (c.1.resolve acc.typeId).kind.isScalar = true
  size : c.1.typeSize acc.typeId = .ok (some n)
  whole : ∀ lacc0 steps lacc m before i, spec.accessors = lacc0 :: (steps ++ [lacc]) →
    Matched lbtf lacc0 steps lacc c.1 c.2 tspec m before i → m.bitfieldSize = 0

/-- In a candidate of the target the field of the record is a scalar or pointer of n bytes. -/
def FieldBytes (ap : Applier) (lbtf : Btf) (r : Record) (n : Nat) : Prop :=
  ∃ spec, parseSpec lbtf r.typeId r.idxs r.kind = .ok spec ∧
    ∃ c ∈ ap.candidates lbtf r.typeId, ∃ tspec acc, FieldSize lbtf spec c tspec acc n

/-- Where the target has the field of an access: the candidates that the access fits, of
which there is one, all give it this byte offset. -/
structure FieldAt (ap : Applier) (lbtf : Btf) (r : Record) (spec : Spec) (v : Int) : Prop where
  searched : ∀ c ∈ ap.candidates lbtf r.typeId, ∃ found, matchSpec lbtf spec c.1 c.2 = .ok found
  some_fits : ∃ c ∈ ap.candidates lbtf r.typeId, ∃ tspec,
    matchSpec lbtf spec c.1 c.2 = .ok (some tspec)
  offset : ∀ c ∈ ap.candidates lbtf r.typeId, ∀ tspec,
    matchSpec lbtf spec c.1 c.2 = .ok (some tspec) →
    ∃ ok, fieldInfo c.1 tspec .fieldByteOffset = .ok (v, ok)

/-- The instruction is checked against the offset that the object has for the field: neither
there nor in the target the field is loaded as a bitfield. -/
def Checked (ap : Applier) (lbtf : Btf) (r : Record) (spec : Spec) (l : Int) : Prop :=
  fieldInfo lbtf spec .fieldByteOffset = .ok (l, true) ∧
    ∀ c ∈ ap.candidates lbtf r.typeId, ∀ tspec,
      matchSpec lbtf spec c.1 c.2 = .ok (some tspec) →
      ∃ v, fieldInfo c.1 tspec .fieldByteOffset = .ok (v, true)

/-- A load or store with this offset in it can be given the offset v: the target has the field
there, the offset fits into 16 bits, and the compiled one is as expected where it is checked. -/
def Accepts (ap : Applier) (lbtf : Btf) (r : Record) (off v : Int) : Prop :=
  ∃ spec, parseSpec lbtf r.typeId r.idxs r.kind = .ok spec ∧ FieldAt ap lbtf r spec v ∧
    (-32768 ≤ v ∧ v ≤ 32767) ∧ ∀ l, Checked ap lbtf r spec l → off = l

/-! What a record comes to. -/

theorem matchCand_offset {c : Cand} :
    matchCand lbtf spec .fieldByteOffset c =
      (matchSpec lbtf spec c.1 c.2).map fun found => found.map fun tspec => (c, some tspec) := by
  unfold matchCand
  simp only [reduceCtorEq, if_false, ReloKind.isType, Bool.false_eq_true]
  cases matchSpec lbtf spec c.1 c.2 with
  | error e => rfl
  | ok found => cases found <;> rfl

theorem matchCands_offset (h : matchCands lbtf spec .fieldByteOffset cands = .ok matched) :
    (∀ c ∈ cands, ∃ found, matchSpec lbtf spec c.1 c.2 = .ok found) ∧
      ∀ mt, mt ∈ matched ↔ ∃ c ∈ cands, ∃ tspec,
        matchSpec lbtf spec c.1 c.2 = .ok (some tspec) ∧ mt = (c, some tspec) := by
  induction cands generalizing matched with
  | nil =>
    cases h
    simp
  | cons c cs ih =>
    obtain ⟨found, first, h⟩ := Exc.bind_eq_ok.mp h
    obtain ⟨rest, more, h⟩ := Exc.bind_eq_ok.mp h
    cases h
    obtain ⟨searched, members⟩ := ih more
    rw [matchCand_offset] at first
    cases here : matchSpec lbtf spec c.1 c.2 with
    | error e =>
      rw [here] at first
      cases first
    | ok found' =>
      rw [here] at first
      cases first
      refine ⟨forall_mem_cons.mpr ⟨⟨found', here⟩, searched⟩, fun mt => ?_⟩
      rw [mem_append, members]
      cases found' with
      | none => simp [here]
      | some tspec => simp [here]

theorem matchCands_ok (searched : ∀ c ∈ cands, ∃ found, matchSpec lbtf spec c.1 c.2 = .ok found) :
    ∃ matched, matchCands lbtf spec .fieldByteOffset cands = .ok matched := by
  induction cands with
  | nil => exact ⟨[], rfl⟩
  | cons c cs ih =>
    obtain ⟨⟨found, here⟩, later⟩ := forall_mem_cons.mp searched
    obtain ⟨rest, more⟩ := ih later
    refine ⟨_, Exc.bind_eq_ok.mpr ⟨found.map fun tspec => (c, some tspec), ?_,
      Exc.bind_eq_ok.mpr ⟨rest, more, rfl⟩⟩⟩
    rw [matchCand_offset, here]
    rfl

theorem matchValues_offset (h : matchValues .fieldByteOffset matched = .ok (vals, validate)) :
    (∀ mt ∈ matched, ∃ v ∈ vals, ∃ ok, matchValue .fieldByteOffset mt = .ok (v, ok)) ∧
      (∀ v ∈ vals, ∃ mt ∈ matched, ∃ ok, matchValue .fieldByteOffset mt = .ok (v, ok)) ∧
      (validate = true ↔ ∀ mt ∈ matched, ∃ v, matchValue .fieldByteOffset mt = .ok (v, true)) := by
  induction matched generalizing vals validate with
  | nil =>
    cases h
    simp
  | cons mt mts ih =>
    obtain ⟨v, ok, vs, oks, here, more, rfl, rfl⟩ := matchValues_cons.mp h
    obtain ⟨each, sources, checked⟩ := ih more
    refine ⟨forall_mem_cons.mpr ⟨⟨v, .head _, ok, here⟩, fun mt' later => ?_⟩,
      forall_mem_cons.mpr ⟨⟨mt, .head _, ok, here⟩, fun v' later => ?_⟩, ?_⟩
    · obtain ⟨v', member, rest⟩ := each mt' later
      exact ⟨v', .tail v member, rest⟩
    · obtain ⟨mt', member, rest⟩ := sources v' later
      exact ⟨mt', .tail mt member, rest⟩
    · rw [Bool.and_eq_true, checked, forall_mem_cons, here]
      simp

theorem matchValues_ok (each : ∀ mt ∈ matched, ∃ ok, matchValue .fieldByteOffset mt = .ok (v, ok)) :
    ∃ vals validate, matchValues .fieldByteOffset matched = .ok (vals, validate) ∧
      ∀ w ∈ vals, w = v := by
  induction matched with
  | nil => exact ⟨[], true, rfl, nofun⟩
  | cons mt mts ih =>
    obtain ⟨⟨ok, here⟩, later⟩ := forall_mem_cons.mp each
    obtain ⟨vs, oks, more, same⟩ := ih later
    exact ⟨v :: vs, ok && oks, matchValues_cons.mpr ⟨v, ok, vs, oks, here, more, rfl, rfl⟩,
      forall_mem_cons.mpr ⟨rfl, same⟩⟩

theorem settle_offset {typeId : Nat} {idxs : List Nat} :
    settle lbtf spec typeId idxs .fieldByteOffset matched = .ok (.value v l validate) ↔
      matched ≠ [] ∧ ∃ vals oks ok, matchValues .fieldByteOffset matched = .ok (vals, oks) ∧
        vals.dedup = [v] ∧ localValue lbtf spec .fieldByteOffset = .ok (l, ok) ∧
        validate = (oks && ok) := by
  unfold settle
  cases matched with
  | nil => simp [ReloKind.asksExists, ReloKind.isType, pure, Except.pure]
  | cons mt mts =>
    simp only [isEmpty_cons, Bool.false_eq_true, if_false, ReloKind.asksExists, ne_eq,
      reduceCtorEq, not_false_eq_true, true_and]
    cases values : matchValues .fieldByteOffset (mt :: mts) with
    | error e => cases e <;> simp [pure, Except.pure]
    | ok out =>
      obtain ⟨vals, oks⟩ := out
      dsimp only
      constructor
      · intro h
        split at h
        · rename_i w only
          obtain ⟨⟨l', ok⟩, found, h⟩ := Exc.bind_eq_ok.mp h
          cases h
          exact ⟨vals, oks, ok, rfl, only, found, rfl⟩
        · cases h
      · rintro ⟨_, _, ok, ⟨⟩, only, found, rfl⟩
        rw [only]
        exact Exc.bind_eq_ok.mpr ⟨(l, ok), found, rfl⟩

theorem localValue_offset :
    fieldInfo lbtf spec .fieldByteOffset = .ok (l, true) ↔
      localValue lbtf spec .fieldByteOffset = .ok (l, true) := by
  unfold localValue
  dsimp only
  cases fieldInfo lbtf spec .fieldByteOffset with
  | error e => cases e <;> simp [pure, Except.pure]
  | ok out => rfl

theorem localValue_ne_core (msg : String) :
    localValue lbtf spec .fieldByteOffset ≠ .error (.core msg) := by
  unfold localValue
  dsimp only
  cases fieldInfo lbtf spec .fieldByteOffset with
  | error e => cases e <;> simp [pure, Except.pure]
  | ok out => simp

/-- A record is settled over its matches. -/
theorem relocate_offset (kind : r.kind = .fieldByteOffset)
    (parsed : parseSpec lbtf r.typeId r.idxs r.kind = .ok spec)
    (found : matchCands lbtf spec .fieldByteOffset (ap.candidates lbtf r.typeId) = .ok matched) :
    ap.relocate lbtf r.typeId r.idxs r.kind =
      settle lbtf spec r.typeId r.idxs .fieldByteOffset matched := by
  unfold Applier.relocate
  rw [parsed, kind]
  simp only [bind, Except.bind, reduceCtorEq, if_false, found]

theorem outcome_value (kind : r.kind = .fieldByteOffset)
    (out : ap.outcome lbtf r = .ok (.value v l validate)) :
    ∃ spec matched, parseSpec lbtf r.typeId r.idxs r.kind = .ok spec ∧
      matchCands lbtf spec .fieldByteOffset (ap.candidates lbtf r.typeId) = .ok matched ∧
      settle lbtf spec r.typeId r.idxs .fieldByteOffset matched = .ok (.value v l validate) := by
  cases parsed : parseSpec lbtf r.typeId r.idxs r.kind with
  | error e =>
    rw [Applier.outcome, Applier.relocate, parsed] at out
    cases e <;> cases out
  | ok spec =>
    cases found : matchCands lbtf spec .fieldByteOffset (ap.candidates lbtf r.typeId) with
    | error e =>
      rw [Applier.outcome, Applier.relocate, parsed, kind] at out
      simp only [bind, Except.bind, reduceCtorEq, if_false, found] at out
      cases e <;> cases out
    | ok matched =>
      rw [Applier.outcome, relocate_offset kind parsed found] at out
      refine ⟨spec, matched, rfl, found, ?_⟩
      split at out
      · cases out
      · exact out

theorem stale_isSome :
    (stale validate (some l) off).isSome = false ↔ (validate = true → off = l) := by
  unfold stale
  by_cases same : off = l <;> cases validate <;> simp [same]

/-- The value of a record that has one, and that the instruction may be given, is the offset of
the field in the target. -/
theorem accepts_iff (kind : r.kind = .fieldByteOffset) (out : ap.outcome lbtf r = .ok res) :
    Accepts ap lbtf r off v ↔ ∃ l validate, res = .value v l validate ∧
      (stale validate (some l) off).isSome = false ∧ (-32768 ≤ v ∧ v ≤ 32767) := by
  constructor
  · rintro ⟨spec, parsed, target, small, checked⟩
    obtain ⟨matched, found⟩ := matchCands_ok target.searched
    obtain ⟨_, members⟩ := matchCands_offset found
    have each : ∀ mt ∈ matched, ∃ ok, matchValue .fieldByteOffset mt = .ok (v, ok) := by
      intro mt member
      obtain ⟨c, cand, tspec, fits, rfl⟩ := (members mt).mp member
      exact target.offset c cand tspec fits
    obtain ⟨c, cand, tspec, fits⟩ := target.some_fits
    have first : (c, some tspec) ∈ matched := (members _).mpr ⟨c, cand, tspec, fits, rfl⟩
    obtain ⟨vals, oks, values, same⟩ := matchValues_ok each
    obtain ⟨listed, _, allChecked⟩ := matchValues_offset values
    obtain ⟨w, member, _⟩ := listed _ first
    have only : vals.dedup = [v] := by
      rw [eq_replicate_of_mem same]
      exact replicate_dedup (length_pos_of_mem member).ne'
    -- the run has a result, so the local offset did not crash
    cases localOk : localValue lbtf spec .fieldByteOffset with
    | error e =>
      have nonempty : matched.isEmpty = false := isEmpty_eq_false_iff.mpr (ne_nil_of_mem first)
      rw [Applier.outcome, relocate_offset kind parsed found, settle, nonempty, values] at out
      simp only [ReloKind.asksExists, Bool.false_eq_true, if_false, only, localOk, bind,
        Except.bind] at out
      cases e with
      | core msg => exact absurd localOk (localValue_ne_core msg)
      | crash exn => cases out
    | ok own =>
      obtain ⟨l, ok⟩ := own
      have settled : settle lbtf spec r.typeId r.idxs .fieldByteOffset matched =
          .ok (.value v l (oks && ok)) :=
        settle_offset.mpr ⟨ne_nil_of_mem first, vals, oks, ok, values, only, localOk, rfl⟩
      rw [Applier.outcome, relocate_offset kind parsed found, settled] at out
      cases out
      refine ⟨l, oks && ok, rfl, stale_isSome.mpr fun both => ?_, small⟩
      obtain ⟨all, rfl⟩ := Bool.and_eq_true_iff.mp both
      refine checked l ⟨localValue_offset.mpr localOk, fun c cand tspec fits => ?_⟩
      exact allChecked.mp all _ ((members _).mpr ⟨c, cand, tspec, fits, rfl⟩)
  · rintro ⟨l, validate, rfl, fresh, small⟩
    obtain ⟨spec, matched, parsed, found, settled⟩ := outcome_value kind out
    obtain ⟨some', vals, oks, ok, values, only, localOk, rfl⟩ := settle_offset.mp settled
    obtain ⟨searched, members⟩ := matchCands_offset found
    obtain ⟨listed, _, allChecked⟩ := matchValues_offset values
    have value : ∀ w ∈ vals, w = v := fun w member =>
      mem_singleton.mp (only ▸ mem_dedup.mpr member)
    refine ⟨spec, parsed, ⟨searched, ?_, fun c cand tspec fits => ?_⟩, small, ?_⟩
    · obtain ⟨mt, member⟩ := exists_mem_of_ne_nil matched some'
      obtain ⟨c, cand, tspec, fits, _⟩ := (members mt).mp member
      exact ⟨c, cand, tspec, fits⟩
    · obtain ⟨w, member, isOk, here⟩ := listed _ ((members _).mpr ⟨c, cand, tspec, fits, rfl⟩)
      rw [value w member] at here
      exact ⟨isOk, here⟩
    · rintro l' ⟨own, targets⟩
      rw [localValue_offset, localOk] at own
      cases own
      refine stale_isSome.mp fresh ?_
      rw [Bool.and_true, allChecked]
      intro mt member
      obtain ⟨c, cand, tspec, fits, rfl⟩ := (members mt).mp member
      exact targets c cand tspec fits

theorem outcome_ne_localId (kind : r.kind = .fieldByteOffset) (id : Nat) :
    ap.outcome lbtf r ≠ .ok (.localId id) := by
  have settled (spec : Spec) (matched : List Match) :
      settle lbtf spec r.typeId r.idxs .fieldByteOffset matched ≠ .ok (.localId id) := by
    intro h
    unfold settle at h
    simp only [ReloKind.asksExists, ReloKind.isType, Bool.false_eq_true, or_self, if_false] at h
    repeat' split at h
    all_goals try cases h
    obtain ⟨_, _, h⟩ := Exc.bind_eq_ok.mp h
    cases h
  intro h
  unfold Applier.outcome at h
  split at h
  · cases h
  · obtain ⟨spec, _, h⟩ := Exc.bind_eq_ok.mp h
    rw [kind] at h
    simp only [reduceCtorEq, if_false] at h
    obtain ⟨matched, _, h⟩ := Exc.bind_eq_ok.mp h
    exact settled spec matched h

/-! Loads and stores. -/

theorem onInsn_filter {i : Nat} {rs : List Record} {st : Insn × Bool} :
    ap.onInsn lbtf i rs st = ap.onInsn lbtf i (rs.filter (·.insnIdx = i)) st := by
  induction rs generalizing st with
  | nil => rfl
  | cons r rs ih =>
    by_cases here : r.insnIdx = i
    · rw [filter_cons_of_pos (by simpa using here), Applier.onInsn, Applier.onInsn, if_pos here,
        if_pos here]
      exact congrArg _ (funext fun res => ih)
    · rw [filter_cons_of_neg (by simpa using here), Applier.onInsn, if_neg here, ih]

section Fate
variable {i : Nat} {rs : List Record} {ins ins' : Insn} {poisoned : Prop}

/-- A load or store with one record gets the offset that it can be given, or becomes the
poison call. -/
theorem fate_alone (kind : r.kind = .fieldByteOffset)
    (memory : ins.op % 8 = 1 ∨ ins.op % 8 = 2 ∨ ins.op % 8 = 3)
    (alone : rs.filter (·.insnIdx = i) = [r]) (fate : InsnFate ap lbtf rs i ins ins' poisoned) :
    (∃ v, Accepts ap lbtf r ins.off v ∧ ¬ poisoned ∧ ins' = { ins with off := v }) ∨
      (¬ ∃ v, Accepts ap lbtf r ins.off v) ∧ poisoned ∧ ins' = poisonCall ins.reloc := by
  obtain ⟨listed, steps, report⟩ := fate.steps
  have here : r.insnIdx = i := by
    have member : r ∈ rs.filter (·.insnIdx = i) := alone ▸ .head _
    simpa using (mem_filter.mp member).2
  rw [onInsn_filter, alone, Applier.onInsn, if_pos here] at steps
  obtain ⟨res, out, done⟩ := Exc.bind_eq_ok.mp steps
  have done : onRecord (ins, false) res = (ins', listed) := Except.ok.inj done
  simp only [accepts_iff kind out]
  cases res with
  | poison why =>
    cases done
    refine .inr ⟨?_, report.mpr rfl, rfl⟩
    rintro ⟨v, l, validate, ⟨⟩, _⟩
  | localId id => exact absurd out (outcome_ne_localId kind id)
  | value v l validate =>
    simp only [onRecord, patchTo_memory memory] at done
    by_cases old : (stale validate (some l) ins.off).isSome = true
    · rw [if_pos old] at done
      cases done
      refine .inr ⟨?_, report.mpr rfl, rfl⟩
      rintro ⟨_, _, _, ⟨⟩, fresh, _⟩
      rw [old] at fresh
      cases fresh
    rw [if_neg old] at done
    by_cases small : -32768 ≤ v ∧ v ≤ 32767
    · rw [if_pos small] at done
      cases done
      refine .inl ⟨v, ⟨l, validate, rfl, Bool.eq_false_iff.mpr old, small⟩, fun is => ?_, rfl⟩
      cases report.mp is
    · rw [if_neg small] at done
      cases done
      refine .inr ⟨?_, report.mpr rfl, rfl⟩
      rintro ⟨_, _, _, ⟨⟩, _, fits⟩
      exact small fits

/-- The instruction is the poison call, or accesses the field of the target: at its offset
there and with its size. -/
def Fits (ap : Applier) (lbtf : Btf) (r : Record) (poisoned : Prop) (ins : Insn) : Prop :=
  (poisoned ∧ ins = poisonCall ins.reloc) ∨
    (∃ spec, parseSpec lbtf r.typeId r.idxs r.kind = .ok spec ∧ FieldAt ap lbtf r spec ins.off) ∧
      ∀ n, FieldBytes ap lbtf r n → (sizeOfOp ins.op).bytes = n

theorem fits_iff (kind : r.kind = .fieldByteOffset)
    (memory : ins.op % 8 = 1 ∨ ins.op % 8 = 2 ∨ ins.op % 8 = 3)
    (alone : rs.filter (·.insnIdx = i) = [r]) (fate : InsnFate ap lbtf rs i ins ins' poisoned) :
    Fits ap lbtf r poisoned ins' ↔ (¬ ∃ v, Accepts ap lbtf r ins.off v) ∨
      ∀ n, FieldBytes ap lbtf r n → (sizeOfOp ins.op).bytes = n := by
  obtain ⟨v, accepted, clean, rfl⟩ | ⟨refused, is, rfl⟩ := fate_alone kind memory alone fate
  · have patched : Fits ap lbtf r poisoned { ins with off := v } ↔
        ∀ n, FieldBytes ap lbtf r n → (sizeOfOp ins.op).bytes = n := by
      obtain ⟨spec, parsed, target, _⟩ := accepted
      constructor
      · rintro (⟨is, _⟩ | ⟨_, sizes⟩)
        · exact absurd is clean
        · exact sizes
      · exact fun sizes => .inr ⟨⟨spec, parsed, target⟩, sizes⟩
    rw [patched, or_iff_right (not_not_intro ⟨v, accepted⟩)]
  · exact iff_of_true (.inl ⟨is, rfl⟩) (.inl refused)

end Fate

/-- After a run every load or store with a record of its own for the offset of a field is
poisoned or accesses the field as the target has it, just if it could not be given an offset
of the target or was compiled with the size that the field has there. -/
theorem apply_sizes_iff (ap : Applier) (lbtf : Btf) (elf : Elf)
    (recs : List (String × List Record)) (sections sections' : List Section) (rep : Report)
    (indexed : Indexed sections) (keys : (recs.map Prod.fst).Nodup)
    (ran : ap.apply lbtf recs sections = .ok (sections', rep)) (entry : String × List Record)
    (listed : entry ∈ recs) (sec : Section)
    (found : sections.find? (·.name = entry.1) = some sec) (insns : List (Option Insn))
    (decoded : decode elf sec = .ok insns) (placed : Placed sec.data insns entry.2) :
    ∃ data' insns', sections'.find? (·.name = entry.1) = some { sec with data := data' } ∧
      decode elf { sec with data := data' } = .ok insns' ∧
      ∀ r ins, r.kind = .fieldByteOffset →
        entry.2.filter (·.insnIdx = r.insnIdx) = [r] → insns[r.insnIdx]? = some (some ins) →
        ins.op % 8 = 1 ∨ ins.op % 8 = 2 ∨ ins.op % 8 = 3 →
        ∃ ins', insns'[r.insnIdx]? = some (some ins') ∧
          (Fits ap lbtf r (rep.Poisoned entry.1 r.insnIdx) ins' ↔
            (¬ ∃ v, Accepts ap lbtf r ins.off v) ∨
              ∀ n, FieldBytes ap lbtf r n → (sizeOfOp ins.op).bytes = n) := by
  have run : ObjectRun ap lbtf recs (sections, ⟨[], []⟩) (sections', rep) :=
    apply_run keys indexed ran
  obtain ⟨data', found', own⟩ := run.own entry listed sec found
  obtain ⟨insns', decoded', fates⟩ := section_fates decoded placed own
  refine ⟨data', insns', found', decoded', fun r ins kind alone here memory => ?_⟩
  obtain ⟨ins', there, fate⟩ := fates r.insnIdx ins here
  exact ⟨ins', there, fits_iff kind memory alone fate⟩

def loadRecord : Record := ⟨0, 2, [0, 0], .fieldByteOffset⟩

/-- The field keeps its four bytes at another offset, and the load gets the offset. -/
theorem apply_sizes_same : ∃ data' insns' ins',
    (⟨paddedTarget, []⟩ : Applier).apply flatStruct loadRecs [loadA 0] =
      .ok ([{ loadA 0 with data := data' }], ⟨[], []⟩) ∧
    decode (plainObject [loadA 0]) { loadA 0 with data := data' } = .ok insns' ∧
    insns'[0]? = some (some ins') ∧
    Fits ⟨paddedTarget, []⟩ flatStruct loadRecord ((⟨[], []⟩ : Report).Poisoned "tc" 0) ins' := by
  have ran : (⟨paddedTarget, []⟩ : Applier).apply flatStruct loadRecs [loadA 0] =
      .ok ([loadA 4], ⟨[], []⟩) := rfl
  obtain ⟨data', insns', found, decoded, each⟩ :=
    apply_sizes_iff _ _ (plainObject [loadA 0]) _ _ _ _
    loadA_indexed (by decide) ran _ (.head _) (loadA 0) rfl _ loadA_decoded loadA_placed
  obtain ⟨ins', there, fits⟩ := each loadRecord (loadInsn 0) rfl rfl rfl (.inl rfl)
  refine ⟨data', insns', ins', ?_, decoded, there, fits.mpr (.inr ?_)⟩
  · rw [ran]
    cases found
    rfl
  rintro n ⟨spec, parsed, c, cand, tspec, acc, field⟩
  have own : parseSpec flatStruct 2 [0, 0] .fieldByteOffset = .ok flatAccess.spec := rfl
  cases own.symm.trans parsed
  have cands : (⟨paddedTarget, []⟩ : Applier).candidates flatStruct 2 = [(paddedTarget, 2)] := rfl
  rw [loadRecord, cands] at cand
  cases mem_singleton.mp cand
  have hit : matchSpec flatStruct flatAccess.spec paddedTarget 2 =
      .ok (some ⟨2, [⟨0, none, 2⟩, ⟨1, some "a", 1⟩], 32⟩) := rfl
  cases hit.symm.trans field.found
  cases field.last
  have four : paddedTarget.typeSize 1 = .ok (some 4) := rfl
  cases four.symm.trans field.size
  rfl

/-- The struct s with a of eight bytes behind another field. -/
def wideTarget : Btf :=
  .ofTypes [{ kind := .int, name := "long", size := 8, intSigned := true },
    { kind := .struct, name := "s", size := 16, members := [⟨"x", 1, 0, 0⟩, ⟨"a", 1, 64, 0⟩] }]

theorem wideTarget_field : FieldSize flatStruct flatAccess.spec (wideTarget, 2)
    ⟨2, [⟨0, none, 2⟩, ⟨1, some "a", 1⟩], 64⟩ ⟨1, some "a", 1⟩ 8 := by
  refine ⟨rfl, rfl, rfl, rfl, fun lacc0 steps lacc m before i shape matched => ?_⟩
  obtain ⟨tsz, tid, tspec₀, sized, stepped, found, _⟩ := matched.found
  have only : steps = [] ∧ lacc = ⟨0, some "a", 1⟩ := by
    cases steps with
    | nil => exact ⟨rfl, (List.cons.inj (List.cons.inj shape).2).1.symm⟩
    | cons a as => simp [flatAccess] at shape
  obtain ⟨rfl, rfl⟩ := only
  cases stepped
  have hit : matchMember flatStruct ⟨0, some "a", 1⟩ wideTarget 2 (startSpec 2 lacc0.idx tsz) =
      .ok (some (⟨"a", 1, 64, 0⟩, (startSpec 2 lacc0.idx tsz).push ⟨1, some "a", 1⟩ 64)) := rfl
  have member : ⟨"a", 1, 64, 0⟩ = m :=
    congrArg Prod.fst (Option.some.inj (Except.ok.inj (hit.symm.trans found)))
  rw [← member]

/-- The load of four bytes gets the offset of a field of eight, is not poisoned and still
loads four. -/
theorem load_not_widened :
    (⟨wideTarget, []⟩ : Applier).apply flatStruct loadRecs [loadA 0] = .ok ([loadA 8], ⟨[], []⟩) ∧
      decode (plainObject [loadA 0]) (loadA 8) =
        .ok [some (loadInsn 8), some ⟨0x95, 0, 0, 0, 0, none, 0⟩] ∧
      (sizeOfOp (loadInsn 8).op).bytes = 4 ∧ FieldBytes ⟨wideTarget, []⟩ flatStruct loadRecord 8 ∧
      ¬ Fits ⟨wideTarget, []⟩ flatStruct loadRecord ((⟨[], []⟩ : Report).Poisoned "tc" 0)
        (loadInsn 8) := by
  have cands : (⟨wideTarget, []⟩ : Applier).candidates flatStruct 2 = [(wideTarget, 2)] := rfl
  have field : FieldBytes ⟨wideTarget, []⟩ flatStruct loadRecord 8 :=
    ⟨flatAccess.spec, rfl, (wideTarget, 2), cands ▸ .head _, _, _, wideTarget_field⟩
  refine ⟨rfl, by decide +kernel, rfl, field, ?_⟩
  rintro (⟨⟨_, listed⟩, _⟩ | ⟨_, sizes⟩)
  · cases listed
  · cases sizes 8 field

end BpfEquiv.Core
