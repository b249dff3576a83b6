import BpfEquiv.Asm
import BpfEquiv.Crc
import BpfEquiv.TraceSpec
import BpfEquiv.Verdict
import BpfEquiv.RegionNames

/-!
Addresses of kernel symbols.

The executor puts a constant in the place of the address of a kernel symbol plus an
addend, computed from a checksum of both. The constants lie above all small values and
do not depend on the object; they tell two references apart just if the checksum does.
-/
namespace BpfEquiv
open Smt Hoare BitVec

/-- A load of the address of a kernel symbol plus an addend. -/
structure KsymRef (cfg : Config) (ins : Insn) (ref : String × Nat) : Prop where
  undefined : ∃ rel, ins.reloc = some rel ∧ rel.sym.shndx = 0 ∧ rel.sym.name = ref.1
  notConfig : cfg.elf.kconfigExterns ref.1 = none
  addend : ins.imm64 = ref.2

/-- The load gives a constant in every state and under every assignment. -/
def LoadsConst (cfg : Config) (ins : Insn) (x : BitVec 64) : Prop :=
  ∀ s, ∃ t, Returns (resolveLd64 cfg ins) s (.data t) s ∧ ∀ σ, t.eval σ = x

def ksymKey (ref : String × Nat) : List Byte := utf8 (ref.1 ++ "\x00" ++ toString ref.2)

def ksymCrc (ref : String × Nat) : BitVec 32 := crc32 (ksymKey ref)

def ksymConst (ref : String × Nat) : BitVec 64 :=
  BitVec.ofNat 64 (0x100000000000 + (ksymCrc ref).toNat * 256)

theorem eval_ksymAddr (σ : Assignment) (ref : String × Nat) :
    (ksymAddr ref.1 ref.2).eval σ = ksymConst ref := by
  have value (n : Nat) : (bv64 (0x100000000000 + ((n <<< 8 : Nat) : Int))).eval σ =
      BitVec.ofNat 64 (0x100000000000 + n * 256) := by
    rw [Nat.shiftLeft_eq]
    exact eval_bv64 σ (0x100000000000 + n * 2 ^ 8)
  rw [ksymAddr, value]
  rfl

theorem KsymRef.loadsConst {cfg : Config} {ins : Insn} {ref : String × Nat}
    (h : KsymRef cfg ins ref) : LoadsConst cfg ins (ksymConst ref) := by
  intro s
  obtain ⟨rel, reloc, undefined, name⟩ := h.undefined
  refine ⟨ksymAddr ref.1 ref.2, ?_, fun σ => eval_ksymAddr σ ref⟩
  simp only [resolveLd64, reloc, undefined, if_true, name, h.notConfig, h.addend]
  exact returns_pure.mpr ⟨rfl, rfl⟩

theorem ksymConst_eq_iff (ref ref' : String × Nat) :
    ksymConst ref = ksymConst ref' ↔ ksymCrc ref = ksymCrc ref' := by
  constructor
  · intro same
    have bits := congrArg BitVec.toNat same
    rw [ksymConst, ksymConst, toNat_ofNat, toNat_ofNat] at bits
    have := (ksymCrc ref).isLt
    have := (ksymCrc ref').isLt
    exact eq_of_toNat_eq (by omega)
  · intro same
    rw [ksymConst, same, ksymConst]

theorem ksymConst_large (ref : String × Nat) : 0x100000000000 ≤ (ksymConst ref).toNat := by
  rw [ksymConst, toNat_ofNat]
  have := (ksymCrc ref).isLt
  omega

/-! Keys. -/

/-- Symbol and addend are read back from the key: digits contain no NUL. -/
theorem ksymKey_injective : Function.Injective ksymKey := by
  intro ref ref' same
  have nul (n : Nat) : '\x00' ∉ n.repr.toList := fun member =>
    absurd (isDigit_of_mem_repr member) (by decide)
  have chars := congrArg String.toList (utf8_inj same)
  simp only [String.toList_append, show ("\x00" : String).toList = ['\x00'] from rfl,
    List.append_assoc, List.singleton_append] at chars
  obtain ⟨names, addends⟩ := cut_last chars (nul ref.2) (nul ref'.2)
  exact Prod.ext (String.toList_inj.mp names) (Nat.repr_inj.mp (String.toList_inj.mp addends))

/-- Keys of one length that differ only within four consecutive bytes, like those of
numbered symbols. -/
def NearKeys (ref ref' : String × Nat) : Prop :=
  ∃ p u v s, ksymKey ref = p ++ u ++ s ∧ ksymKey ref' = p ++ v ++ s ∧
    u.length = v.length ∧ u.length ≤ 4

theorem crc32_digest (bs : List Byte) :
    crc32 bs = Crc.digest 0xEDB88320 0xFFFFFFFF bs ^^^ 0xFFFFFFFF := rfl

theorem ksymCrc_near {ref ref' : String × Nat} (near : NearKeys ref ref')
    (same : ksymCrc ref = ksymCrc ref') : ref = ref' := by
  obtain ⟨p, u, v, s, key, key', length, short⟩ := near
  rw [ksymCrc, ksymCrc, crc32_digest, crc32_digest, xor_left_inj, key, key'] at same
  have windows := Crc.digest_window (by decide) length short same
  exact ksymKey_injective (by rw [key, key', windows])

/-- What the constants of a set of references do. -/
theorem ksym_constants_distinct_iff (refs : Finset (String × Nat)) :
    (∀ cfg ins ref, KsymRef cfg ins ref → LoadsConst cfg ins (ksymConst ref)) ∧
      (∀ ref, 0x100000000000 ≤ (ksymConst ref).toNat) ∧
      (Set.InjOn ksymConst refs ↔ Set.InjOn ksymCrc refs) ∧
      ((∀ ref ∈ refs, ∀ ref' ∈ refs, NearKeys ref ref') → Set.InjOn ksymConst refs) := by
  have crcs : Set.InjOn ksymConst refs ↔ Set.InjOn ksymCrc refs := by
    simp only [Set.InjOn, ksymConst_eq_iff]
  refine ⟨fun cfg ins ref h => h.loadsConst, ksymConst_large, crcs, fun near => crcs.mpr ?_⟩
  intro ref member ref' member' same
  exact ksymCrc_near (near ref member ref' member') same

/-- A program that returns the address of a kernel symbol. -/
def addressSide (name : String) : Side :=
  let ws := [word 0x18 0 0 0 0, word 0 0 0 0 0, word 0x95 0 0 0 0]
  objectSide (object "tc" ws [(0, symbolAt name 0 0 0)] [] (some 64)) "tc" ws

/-- Programs that return the addresses of two different symbols are found equivalent. -/
theorem ksym_collision :
    ksymConst ("plumless", 0) = ksymConst ("buckeroo", 0) ∧
      verdictOn (addressSide "plumless") (addressSide "buckeroo") = some .equiv := by
  refine ⟨(ksymConst_eq_iff _ _).mpr (by decide +kernel), by decide +kernel⟩

end BpfEquiv
