import Mathlib

/-!
The slice of a BPF object that the executor and the driver touch: sections,
symbols, relocations and the answers of the BTF accessors. Instructions are
decoded from section bytes.
-/
namespace BpfEquiv

abbrev Byte := BitVec 8

def shtNobits : Nat := 8
def shfAlloc : Nat := 0x2
def shfExecinstr : Nat := 0x4
def sttObject : Nat := 1
def sttFunc : Nat := 2
def sttSection : Nat := 3

structure Section where
  idx : Nat
  name : String
  type : Nat
  flags : Nat
  size : Nat
  data : List Byte
  deriving DecidableEq

def Section.isExec (s : Section) : Bool := s.flags &&& shfExecinstr != 0
def Section.isAlloc (s : Section) : Bool := s.flags &&& shfAlloc != 0

structure Symbol where
  name : String
  value : Nat
  size : Nat
  bind : Nat
  type : Nat
  shndx : Nat
  deriving DecidableEq

structure Reloc where
  sym : Symbol
  deriving DecidableEq

/-- One parsed map definition; a field is absent when the definition does not carry it. -/
structure MapDef where
  keySize : Option Nat
  valueSize : Option Nat
  mapType : Option Nat
  maxEntries : Option Nat
  inner : Option MapDef

structure KcfgDecl where
  kind : String
  size : Nat
  signed : Bool
  deriving DecidableEq

/-- One FUNC of the object's own BTF. The prototype is absent when the type it
refers to is not a FUNC_PROTO; a parameter is (is a pointer, size). -/
structure BtfFunc where
  name : String
  proto : Option (List (Bool × Option Nat) × Bool × Bool)

structure Elf where
  sections : List Section
  symbols : List Symbol
  relocs : Nat → Nat → Option Reloc
  mapDefs : String → Option MapDef
  kconfigExterns : String → Option KcfgDecl
  kconfig : Option (String → KcfgDecl → Bool → Except String (List Byte))
  coreReloSections : List String
  coreApplied : Bool
  corePoison : String → Int → Option String
  btfFuncs : Option (List BtfFunc)
  declTags : List (String × String)
  funcRetBits : String → Option Nat

def Elf.sectionByName (elf : Elf) (name : String) : Option Section :=
  elf.sections.find? (·.name = name)

def Elf.execSections (elf : Elf) : List Section :=
  elf.sections.filter fun s => s.isExec && decide (s.size > 0)

/-- Best named OBJECT/FUNC symbol in a section that contains an offset: the last
start wins, and the first of equal starts. -/
def Elf.namedSymbolAt (elf : Elf) (shndx : Nat) (offset : Int) : Option Symbol :=
  elf.symbols.foldl (fun best sym =>
    if sym.shndx ≠ shndx ∨ sym.name = "" ∨ sym.type = sttSection then best
    else if sym.value ≤ offset ∧ (sym.size = 0 ∨ offset < sym.value + sym.size) then
      match best with
      | none => some sym
      | some b => if sym.value > b.value then some sym else best
    else best) none

/-! Symbol names. -/

/-- Fields of a text between separators. -/
def splitOn (sep : Char) : List Char → List (List Char)
  | [] => [[]]
  | c :: cs =>
    if c = sep then [] :: splitOn sep cs
    else match splitOn sep cs with
      | [] => [[c]]
      | f :: fs => (c :: f) :: fs

def isIdent : List Char → Bool
  | [] => false
  | c :: cs => (c.isAlpha || c = '_') && cs.all fun d => d.isAlphanum || d = '_'

def digitsValue (ds : List Char) : Nat :=
  ds.foldl (fun n d => 10 * n + (d.toNat - '0'.toNat)) 0

/-- The item name of a v0 path: what follows the first digit run that equals the
length of the rest. The run read so far is an accumulator. -/
def rustItem : List Char → List Char → Option (List Char)
  | _, [] => none
  | run, c :: cs =>
    if c.isDigit then
      match cs with
      | [] => none
      | d :: _ =>
        if d.isDigit then rustItem (run ++ [c]) cs
        else if cs.length = digitsValue (run ++ [c]) ∧ isIdent cs then some cs
        else rustItem [] cs
    else rustItem [] cs

def normalizeName (name : String) : String :=
  let cs := name.toList
  let base := cs.takeWhile (· ≠ '.')
  if ['_', 'R'].isPrefixOf base then
    match rustItem [] base with
    | some tail => String.ofList tail
    | none => name
  else if cs.contains '.' then
    match ((splitOn '.' cs).filter fun p => p.isEmpty || !p.all Char.isDigit).getLast? with
    | some p => String.ofList p
    | none => name
  else name

/-! Instructions. -/

structure Insn where
  op : Nat
  dst : Nat
  src : Nat
  off : Int
  imm : Int
  reloc : Option Reloc
  imm64 : Nat
  deriving DecidableEq

def insnOf (reloc : Option Reloc) (b0 b1 b2 b3 b4 b5 b6 b7 : Byte) (hi : BitVec 32) : Insn where
  op := b0.toNat
  dst := b1.toNat % 16
  src := b1.toNat / 16
  off := (b3 ++ b2 : BitVec 16).toInt
  imm := (b7 ++ b6 ++ b5 ++ b4 : BitVec 32).toInt
  reloc := reloc
  imm64 := (hi ++ (b7 ++ b6 ++ b5 ++ b4 : BitVec 32) : BitVec 64).toNat

/-- Instruction slots from the i-th on; the second slot of a ld_imm64 is none. -/
def decodeSlots (relocs : Nat → Option Reloc) : Nat → List Byte → Except String (List (Option Insn))
  | i, b0 :: b1 :: b2 :: b3 :: b4 :: b5 :: b6 :: b7 :: rest =>
    if b0 = 0x18 then
      match rest with
      | _ :: _ :: _ :: _ :: c4 :: c5 :: c6 :: c7 :: rest' => do
        let tl ← decodeSlots relocs (i + 2) rest'
        pure (some (insnOf (relocs (i * 8)) b0 b1 b2 b3 b4 b5 b6 b7 (c7 ++ c6 ++ c5 ++ c4)) ::
          none :: tl)
      | _ => .error "truncated ld_imm64"
    else do
      let tl ← decodeSlots relocs (i + 1) rest
      pure (some (insnOf (relocs (i * 8)) b0 b1 b2 b3 b4 b5 b6 b7 0) :: tl)
  | _, _ => pure []

def decode (elf : Elf) (sec : Section) : Except String (List (Option Insn)) :=
  if sec.data.length % 8 ≠ 0 then .error s!"section {sec.name} size not insn-aligned"
  else decodeSlots (elf.relocs sec.idx) 0 sec.data

end BpfEquiv
