import BpfEquiv.Check
import BpfEquiv.Flat

/-!
Assembling small objects: instruction words are encoded to section bytes.
-/
namespace BpfEquiv
open Smt

/-- An instruction word before it is placed in a section. -/
structure Word where
  op : BitVec 8
  dst : BitVec 4
  src : BitVec 4
  off : BitVec 16
  imm : BitVec 32

def word (op dst src : Nat) (off imm : Int) : Word :=
  ⟨BitVec.ofNat 8 op, BitVec.ofNat 4 dst, BitVec.ofNat 4 src, BitVec.ofInt 16 off,
    BitVec.ofInt 32 imm⟩

def Word.bytes (w : Word) : List Byte :=
  [w.op, w.src ++ w.dst, w.off.extractLsb' 0 8, w.off.extractLsb' 8 8,
    w.imm.extractLsb' 0 8, w.imm.extractLsb' 8 8, w.imm.extractLsb' 16 8, w.imm.extractLsb' 24 8]

/-- The instruction a word stands for at a place with a given relocation. -/
def Word.insn (w : Word) (reloc : Option Reloc) : Insn where
  op := w.op.toNat
  dst := w.dst.toNat
  src := w.src.toNat
  off := w.off.toInt
  imm := w.imm.toInt
  reloc := reloc
  imm64 := w.imm.toNat

/-! Objects. -/

/-- Relocations of the code section, by slot. -/
abbrev Relocs := List (Nat × Symbol)

def symbolAt (name : String) (type shndx value : Nat) : Symbol := ⟨name, value, 0, 1, type, shndx⟩

def codeSection (name : String) (ws : List Word) : Section where
  idx := 1
  name := name
  type := 1
  flags := 6
  size := 8 * ws.length
  data := ws.flatMap Word.bytes

def mapsSection : Section := ⟨2, ".maps", 1, 2, 0, []⟩

def object (secname : String) (ws : List Word) (relocs : Relocs)
    (maps : List (String × MapDef)) (retBits : Option Nat) : Elf where
  sections := [⟨0, "", 0, 0, 0, []⟩, codeSection secname ws, mapsSection]
  symbols := [symbolAt "prog" sttFunc 1 0]
  relocs idx off := if idx = 1 then (relocs.lookup (off / 8)).map Reloc.mk else none
  mapDefs name := maps.lookup name
  kconfigExterns _ := none
  kconfig := none
  coreReloSections := []
  coreApplied := true
  corePoison _ _ := none
  btfFuncs := none
  declTags := []
  funcRetBits _ := retBits

def objectSide (elf : Elf) (secname : String) (ws : List Word) : Side :=
  ⟨elf, codeSection secname ws, 0⟩

/-- No prototypes, and a solver that only folds constants. -/
def plainTables : Tables := ⟨.folding, fun _ => none, fun _ => none⟩

def verdictOn (a b : Side) : Option Verdict :=
  match checkProgram plainTables "prog" a b false 200 ⟨baseShared, 0⟩ with
  | some (.ok ((verdict, _), _)) => some verdict
  | _ => none

def plainConfig (secname : String) (ws : List Word) : Config :=
  executor plainTables (fun _ => none)
    (objectSide (object secname ws [] [] none) secname ws) "A"

def baseExec : Exec := freshExec ⟨baseShared, 0⟩

end BpfEquiv
