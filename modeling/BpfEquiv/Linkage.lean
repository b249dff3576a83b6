import BpfEquiv.Concrete
import BpfEquiv.Isa
import BpfEquiv.Run

/-!
What the loader makes of an instruction.

A relocated immediate is the address of its symbol and the addend, and a relocated call goes
to its symbol. The regions of the layout lie where the loader has put what they stand for. The
executor's resolution of an immediate or a call then is the loader's.
-/
namespace BpfEquiv
open Smt Hoare Option

/-- Where the loader has put an object: the places of its sections, and what its undefined
symbols stand for. -/
structure Image where
  place : Nat → Nat → BitVec 64
  ksym : String → BitVec 64

/-- An immediate is loaded as it is, or as the address of its symbol and the addend. -/
def Image.imm64 (img : Image) (ins : Insn) : BitVec 64 :=
  match ins.reloc with
  | none => BitVec.ofNat 64 ins.imm64
  | some rel =>
    if rel.sym.shndx = 0 then img.ksym rel.sym.name + BitVec.ofNat 64 ins.imm64
    else img.place rel.sym.shndx (rel.sym.value + ins.imm64)

/-- Where libbpf points a call of a BPF function: the immediate counts slots from behind the
call, or from behind the symbol the call is relocated against. -/
def Elf.linkedCallee (elf : Elf) (ins : Insn) (sec : String) (pc : Int) : Option (String × Int) :=
  match ins.reloc with
  | none => some (sec, pc + 1 + ins.imm)
  | some rel => (elf.sections[rel.sym.shndx]?).map fun s =>
      (s.name, (rel.sym.value / 8 : Nat) + ins.imm + 1)

/-- A section of writable data. -/
def Section.isData (sec : Section) : Bool :=
  sec.isAlloc && !sec.isExec && decide (sec.name ≠ ".maps") && !".rodata".isPrefixOf sec.name

/-- The regions lie where the loader has put what they stand for: the variable and the map of
a symbol, the slots of a code section, the data of a read-only one, a configuration extern. -/
structure Placed (cfg : Config) (L : Layout) (img : Image) : Prop where
  globals : ∀ sym ∈ cfg.elf.symbols, ∀ sec, cfg.elf.sections[sym.shndx]? = some sec →
    sec.isData = true → ∀ a, L.base (.g (normalizeName sym.name)) + BitVec.ofNat 64 a =
      img.place sym.shndx (sym.value + a)
  maps : ∀ sym ∈ cfg.elf.symbols, ∀ sec, cfg.elf.sections[sym.shndx]? = some sec →
    sec.name = ".maps" → ∀ a, L.base (.map (normalizeName sym.name)) + BitVec.ofNat 64 a =
      img.place sym.shndx (sym.value + a)
  code : ∀ k sec, cfg.elf.sections[k]? = some sec → sec.isExec = true → ∀ i : Nat,
    L.base (.func sec.name i) = img.place k (8 * i)
  rodata : ∀ k sec, cfg.elf.sections[k]? = some sec →
    ".rodata".isPrefixOf sec.name = true ∨ hasInfix ".rodata".toList sec.name.toList = true →
    ∀ a, L.base (.ro cfg.tag sec.name) + BitVec.ofNat 64 a = img.place k a
  kconfig : ∀ name decl, cfg.elf.kconfigExterns name = some decl →
    L.base (.kcfg cfg.tag name) = img.ksym name

variable {cfg : Config} {L : Layout} {σ : Assignment} {img : Image} {ins : Insn} {rel : Reloc}
  {sym : Symbol} {s s' : St} {v : Val} {addend : Nat} {mem : Flat.Memory}

/-- What resolving an immediate leaves behind: nothing, or the bytes of a configuration extern
in the table. -/
inductive Resolved (cfg : Config) (L : Layout) (mem : Flat.Memory) (s : St) : St → Prop
  | same : Resolved cfg L mem s s
  | kconfig (name : String) (bytes : List Byte) (fits : bytes.length ≤ 2 ^ 64)
      (loaded : ∀ o ∈ L.dom (.kcfg cfg.tag name),
        mem (L.base (.kcfg cfg.tag name) + o) = bytes.getD o.toNat 0) :
      Resolved cfg L mem s { s with exec := { s.exec with
        kcfgBytes := (.kcfg cfg.tag name, bytes) :: s.exec.kcfgBytes } }

end BpfEquiv
