import BpfEquiv.Memory

/-!
Data processing: relocated immediates, arithmetic, byte swaps, atomic
read-modify-write and jump conditions.
-/
namespace BpfEquiv
open Smt

def pyHex (x : Int) : String :=
  (if x < 0 then "-0x" else "0x") ++ String.ofList (Nat.toDigits 16 x.natAbs)

/-! Relocated immediates. -/

def hasInfix (needle : List Char) (hay : List Char) : Bool :=
  hay.tails.any needle.isPrefixOf

def sectionPtr (cfg : Config) (secname : String) (addend : Nat) : M Val :=
  if hasInfix ".rodata".toList secname.toList then
    pure (.ptr ⟨.ro cfg.tag secname, bv64 addend⟩)
  else bail s!"anonymous reloc into {secname}+{pyHex addend}"

def ksymAddr (name : String) (addend : Nat) : Term (.bv 64) :=
  bv64 (0x100000000000 + ((crc32 (utf8 (name ++ "\x00" ++ toString addend))).toNat <<< 8 : Nat))

def kconfigPtr (cfg : Config) (sym : Symbol) (decl : KcfgDecl) (addend : Nat) : M Val :=
  match cfg.elf.kconfig with
  | none => bail s!"__kconfig extern {sym.name} in ld_imm64"
  | some value =>
    match value sym.name decl (sym.bind = 2) with
    | .error e => bail s!"__kconfig extern: {e}"
    | .ok bs => do
      let region := Region.kcfg cfg.tag sym.name
      modifyExec fun e => { e with kcfgBytes := (region, bs) :: e.kcfgBytes }
      pure (.ptr ⟨region, bv64 addend⟩)

/-- A defined symbol: a map handle, a function, read-only data or a global. -/
def symbolPtr (cfg : Config) (sym : Symbol) (addend : Nat) : M Val :=
  match cfg.elf.sections[sym.shndx]? with
  | none => crash "IndexError: list index out of range"
  | some sec =>
    if sec.name = ".maps" then pure (.ptr ⟨.map (normalizeName sym.name), bv64 addend⟩)
    else if sec.isExec then
      if sym.type = sttFunc ∨ sym.type = sttSection then
        pure (.ptr ⟨.func sec.name ((sym.value + addend) / 8 : Nat), bv64 0⟩)
      else bail s!"reloc into unsupported section {sec.name}"
    else if !sec.isAlloc then bail s!"reloc into unsupported section {sec.name}"
    else if ".rodata".isPrefixOf sec.name then
      pure (.ptr ⟨.ro cfg.tag sec.name, bv64 (sym.value + addend : Nat)⟩)
    else pure (.ptr ⟨.g (normalizeName sym.name), bv64 addend⟩)

def resolveLd64 (cfg : Config) (ins : Insn) : M Val :=
  match ins.reloc with
  | none => pure (.data (bv64 ins.imm64))
  | some rel =>
    let sym := rel.sym
    if sym.shndx = 0 then
      match cfg.elf.kconfigExterns sym.name with
      | some decl => kconfigPtr cfg sym decl ins.imm64
      | none => pure (.data (ksymAddr sym.name ins.imm64))
    else if sym.type = sttSection then
      match cfg.elf.sections[sym.shndx]? with
      | none => crash "IndexError: list index out of range"
      | some sec =>
        match cfg.elf.namedSymbolAt sym.shndx ins.imm64 with
        | some named => symbolPtr cfg named (ins.imm64 - named.value)
        | none => sectionPtr cfg sec.name ins.imm64
    else symbolPtr cfg sym ins.imm64

/-! Arithmetic. -/

/-- The operators on two scalars of one width. Division by zero gives zero, the
remainder by zero leaves the dividend, shift counts are masked to the width. -/
def aluData {w : Nat} (code : Nat) (soff : Int) (a b : Term (.bv w)) : Option (Term (.bv w)) :=
  let count := b &&& .bvVal (BitVec.ofNat w (w - 1))
  let isZero : Term .bool := .rel .eq b (.bvVal 0)
  match code with
  | 0 => some (a + b)
  | 1 => some (a - b)
  | 2 => some (a * b)
  | 3 => some (.ite isZero (.bvVal 0) (.bin (if soff = 1 then .sdiv else .udiv) a b))
  | 4 => some (a ||| b)
  | 5 => some (a &&& b)
  | 6 => some (.bin .shl a count)
  | 7 => some (.bin .lshr a count)
  | 8 => some (-a)
  | 9 => some (.ite isZero a (.bin (if soff = 1 then .srem else .urem) a b))
  | 10 => some (a ^^^ b)
  | 12 => some (.bin .ashr a count)
  | _ => none

def aluMov (is64 : Bool) (src : Val) (soff : Int) (what : String) : M Val :=
  if is64 ∧ soff = 1 then pure src
  else
    match src with
    | .data t =>
      if soff = 8 ∨ soff = 16 ∨ soff = 32 then
        let s : Term (.bv 64) := .sext 64 (.extract 0 soff.toNat t)
        pure (.data (if is64 then s else zext64 (lo32 s)))
      else if is64 then pure src
      else pure (.data (zext64 (lo32 t)))
    | .ptr _ =>
      if is64 then pure src
      else do
        let t ← needData src what
        pure (.data (zext64 (lo32 t)))

def aluScalar (code : Nat) (is64 : Bool) (dst src : Val) (soff : Int) (what : String) :
    M Val := do
  let a ← needData dst what
  let b ← needData src what
  match (if is64 then aluData code soff a b
      else (aluData code soff (lo32 a) (lo32 b)).map zext64) with
  | some t => pure (.data t)
  | none => bail s!"ALU opcode {code} in {what}"

def alu (code : Nat) (is64 : Bool) (dst src : Val) (soff : Int) (what : String) : M Val :=
  if code = 11 then aluMov is64 src soff what
  else
    match dst, src with
    | .ptr d, .data t =>
      if code = 0 ∧ is64 then pure (.ptr ⟨d.region, d.off + t⟩)
      else if code = 1 ∧ is64 then pure (.ptr ⟨d.region, d.off - t⟩)
      else aluScalar code is64 dst src soff what
    | .data t, .ptr s =>
      if code = 0 ∧ is64 then pure (.ptr ⟨s.region, s.off + t⟩)
      else aluScalar code is64 dst src soff what
    | .ptr d, .ptr s =>
      if code = 1 ∧ is64 then
        if s.region ≠ d.region then bail "pointer difference across regions"
        else pure (.data (d.off - s.off))
      else aluScalar code is64 dst src soff what
    | .data _, .data _ => aluScalar code is64 dst src soff what

def endianOp (op : Nat) (is64Cls : Bool) (v : Term (.bv 64)) (width : Int) (what : String) :
    M (Term (.bv 64)) :=
  let swap := is64Cls || op &&& 8 != 0
  if width = 16 then pure (if swap then swapTerm .h v else .zext 64 (.extract 0 16 v))
  else if width = 32 then pure (if swap then swapTerm .w v else .zext 64 (.extract 0 32 v))
  else if width = 64 then pure (if swap then swapTerm .dw v else .extract 0 64 v)
  else bail s!"bswap width {width} in {what}"

/-! Atomics. -/

def sizeOfOp (op : Nat) : Size :=
  match op / 8 % 4 with
  | 0 => .w
  | 1 => .h
  | 2 => .b
  | _ => .dw

/-- The operator of an ADD, OR, AND or XOR, with or without FETCH. -/
def atomicOp (aop : Int) : Option BvOp :=
  if aop = 0x00 ∨ aop = 0x01 then some .add
  else if aop = 0x40 ∨ aop = 0x41 then some .or
  else if aop = 0x50 ∨ aop = 0x51 then some .and
  else if aop = 0xA0 ∨ aop = 0xA1 then some .xor
  else none

def cmpxchg (cfg : Config) (p : Val) (size : Size) (srcv old : Term (.bv 64)) (regs : Regs) :
    M Regs :=
  match regs 0 with
  | .ptr _ => crash "z3.z3types.Z3Exception: Symbolic expressions expected"
  | .data r0 => do
    let eq : Term .bool :=
      if size = .dw then .rel .eq (Term.extract 0 64 old) (.extract 0 64 r0)
      else .rel .eq (lo32 old) (lo32 r0)
    store cfg p size (.data (.ite eq srcv old))
    pure (regs.set 0 (.data old))

/-- Read-modify-write on [dst + off]; the old value is zero-extended. -/
def atomic (cfg : Config) (ins : Insn) (regs : Regs) (what : String) : M Regs := do
  let size := sizeOfOp ins.op
  let aop := ins.imm
  if aop = 0x100 then
    let v ← load cfg (addrAdd (regs ins.src) ins.off) size
    pure (regs.set ins.dst v)
  else if aop = 0x110 then
    let t ← needData (regs ins.src) what
    store cfg (addrAdd (regs ins.dst) ins.off) size (.data t)
    pure regs
  else if size ≠ .w ∧ size ≠ .dw then bail s!"atomic size {size.bytes} in {what}"
  else
    let p := addrAdd (regs ins.dst) ins.off
    let srcv ← needData (regs ins.src) what
    let old ← needData (← load cfg p size) what
    if aop = 0xF1 then cmpxchg cfg p size srcv old regs
    else if aop = 0xE1 then
      store cfg p size (.data srcv)
      pure (regs.set ins.src (.data old))
    else
      match atomicOp aop with
      | none => bail s!"atomic imm {pyHex aop} in {what}"
      | some op =>
        store cfg p size (.data (.bin op old srcv))
        pure (if aop % 2 = 1 then regs.set ins.src (.data old) else regs)

/-! Jump conditions. -/

def condData {w : Nat} (code : Nat) (a b : Term (.bv w)) : Option (Term .bool) :=
  match code with
  | 1 => some (.rel .eq a b)
  | 2 => some (.rel .ugt a b)
  | 3 => some (.rel .uge a b)
  | 4 => some (.rel .ne (a &&& b) (.bvVal 0))
  | 5 => some (.rel .ne a b)
  | 6 => some (.rel .sgt a b)
  | 7 => some (.rel .sge a b)
  | 10 => some (.rel .ult a b)
  | 11 => some (.rel .ule a b)
  | 12 => some (.rel .slt a b)
  | 13 => some (.rel .sle a b)
  | _ => none

def condScalar (code : Nat) (is32 : Bool) (a b : Term (.bv 64)) (what : String) :
    M (Term .bool) :=
  match (if is32 then condData code (lo32 a) (lo32 b) else condData code a b) with
  | some c => pure c
  | none => bail s!"JMP opcode {code} in {what}"

/-- Pointers into one region are compared by offset; a pointer is never equal to a
scalar. -/
def cond (code : Nat) (is32 : Bool) (dst src : Val) (what : String) : M (Term .bool) :=
  match dst, src with
  | .data a, .data b => condScalar code is32 a b what
  | .ptr d, .ptr s =>
    if d.region = s.region then condScalar code is32 d.off s.off what
    else bail s!"pointer compare across regions in {what}"
  | .ptr _, .data _ =>
    if code = 1 then pure (.boolVal false)
    else if code = 5 then pure (.boolVal true)
    else bail s!"pointer/scalar compare in {what}"
  | .data _, .ptr _ => bail s!"pointer compare across regions in {what}"

end BpfEquiv
