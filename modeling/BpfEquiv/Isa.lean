import BpfEquiv.Flat

/-!
The BPF instruction set over registers and a flat memory.

Decoding follows RFC 9669 and three kernel extensions: address-space casts, may_goto
and the load-acquire and store-release forms. A word with a reserved encoding, or
with an unused field that is not zero, has no meaning. Executing an instruction
gives the next state of the machine, except where control leaves the program: a
call of the kernel, or a return to it.
-/
namespace Isa

open Function

/-- The fields of an instruction word. -/
structure Word where
  op : Nat
  dst : Nat
  src : Nat
  off : Int
  imm : Int

/-! Operators. -/

inductive AluOp where
  | add | sub | mul | div | sdiv | or | and | lsh | rsh | mod | smod | xor | arsh
  deriving DecidableEq

def AluOp.eval {w : Nat} (a b : BitVec w) : AluOp → BitVec w
  | .add => a + b
  | .sub => a - b
  | .mul => a * b
  | .div => if b = 0 then 0 else a.udiv b
  | .sdiv => if b = 0 then 0 else a.sdiv b
  | .or => a ||| b
  | .and => a &&& b
  | .lsh => a <<< (b.toNat % w)
  | .rsh => a >>> (b.toNat % w)
  | .mod => if b = 0 then a else a.umod b
  | .smod => if b = 0 then a else a.srem b
  | .xor => a ^^^ b
  | .arsh => a.sshiftRight (b.toNat % w)

inductive Cond where
  | eq | gt | ge | set | ne | sgt | sge | lt | le | slt | sle
  deriving DecidableEq

def Cond.eval {w : Nat} (a b : BitVec w) : Cond → Bool
  | .eq => a == b
  | .gt => b.ult a
  | .ge => b.ule a
  | .set => a &&& b != 0
  | .ne => a != b
  | .sgt => b.slt a
  | .sge => b.sle a
  | .lt => a.ult b
  | .le => a.ule b
  | .slt => a.slt b
  | .sle => a.sle b

inductive AtomicOp where
  | add | or | and | xor
  deriving DecidableEq

def AtomicOp.eval (a b : BitVec 64) : AtomicOp → BitVec 64
  | .add => a + b
  | .or => a ||| b
  | .and => a &&& b
  | .xor => a ^^^ b

/-! Instructions. -/

inductive Operand where
  | reg (r : Nat)
  | imm (i : Int)

/-- An instruction. Wide means 64-bit; memory accesses carry their size in bytes. -/
inductive Instr where
  | ldImm64 (dst : Nat)
  | alu (wide : Bool) (op : AluOp) (dst : Nat) (src : Operand)
  | neg (wide : Bool) (dst : Nat)
  | mov (wide : Bool) (dst : Nat) (src : Operand)
  | movsx (wide : Bool) (bits dst src : Nat)
  | addrSpaceCast (dst src : Nat)
  | toLe (bytes dst : Nat)
  | swap (bytes dst : Nat)
  | load (bytes : Nat) (signed : Bool) (dst src : Nat) (off : Int)
  | store (bytes dst : Nat) (off : Int) (src : Operand)
  | atomic (bytes : Nat) (op : AtomicOp) (fetch : Bool) (dst src : Nat) (off : Int)
  | xchg (bytes dst src : Nat) (off : Int)
  | cmpxchg (bytes dst src : Nat) (off : Int)
  | jump (off : Int)
  | jumpReg (dst : Nat)
  | branch (wide : Bool) (cond : Cond) (dst : Nat) (src : Operand) (off : Int)
  | mayGoto
  | callHelper (id : Int)
  | callLocal
  | callKfunc
  | callReg (dst : Nat)
  | exit

/-! Decoding. -/

def plainOp : Nat → Option AluOp
  | 0 => some .add
  | 1 => some .sub
  | 2 => some .mul
  | 4 => some .or
  | 5 => some .and
  | 6 => some .lsh
  | 7 => some .rsh
  | 10 => some .xor
  | 12 => some .arsh
  | _ => none

/-- The operator of an arithmetic code; the offset selects signed division. -/
def aluOp (code : Nat) (off : Int) : Option AluOp :=
  if code = 3 then
    if off = 0 then some .div else if off = 1 then some .sdiv else none
  else if code = 9 then
    if off = 0 then some .mod else if off = 1 then some .smod else none
  else if off = 0 then plainOp code
  else none

def condOf : Nat → Option Cond
  | 1 => some .eq
  | 2 => some .gt
  | 3 => some .ge
  | 4 => some .set
  | 5 => some .ne
  | 6 => some .sgt
  | 7 => some .sge
  | 10 => some .lt
  | 11 => some .le
  | 12 => some .slt
  | 13 => some .sle
  | _ => none

variable (wide : Bool) (w : Word)

/-- Whether the source bit of an opcode asks for a register. -/
def Word.regSource : Bool := w.op / 8 % 2 = 1

/-- The second operand, with the field that it does not use cleared. -/
def Word.operand : Option Operand :=
  if w.regSource then if w.imm = 0 then some (.reg w.src) else none
  else if w.src = 0 then some (.imm w.imm) else none

def decodeMov : Option Instr :=
  if w.off = 0 then w.operand.map (.mov wide w.dst)
  else if !w.regSource then none
  else if w.off = 8 ∨ w.off = 16 ∨ (w.off = 32 ∧ wide = true) then
    if w.imm = 0 then some (.movsx wide w.off.toNat w.dst w.src) else none
  else if w.off = 1 ∧ wide = true ∧ (w.imm = 1 ∨ w.imm = 65536) then
    some (.addrSpaceCast w.dst w.src)
  else none

def decodeEndian : Option Instr :=
  if w.src ≠ 0 ∨ w.off ≠ 0 ∨ (wide = true ∧ w.regSource = true) then none
  else if w.imm = 16 ∨ w.imm = 32 ∨ w.imm = 64 then
    let bytes := w.imm.toNat / 8
    some (if wide || w.regSource then .swap bytes w.dst else .toLe bytes w.dst)
  else none

def decodeAlu : Option Instr :=
  let code := w.op / 16
  if code = 13 then decodeEndian wide w
  else if code = 11 then decodeMov wide w
  else if code = 8 then
    if w.regSource = false ∧ w.src = 0 ∧ w.off = 0 ∧ w.imm = 0 then some (.neg wide w.dst)
    else none
  else do
    let op ← aluOp code w.off
    let src ← w.operand
    pure (.alu wide op w.dst src)

def Word.bytes : Nat :=
  match w.op / 8 % 4 with
  | 0 => 4
  | 1 => 2
  | 2 => 1
  | _ => 8

def decodeLoad : Option Instr :=
  if w.imm ≠ 0 then none
  else if w.op / 32 = 3 then some (.load w.bytes false w.dst w.src w.off)
  else if w.op / 32 = 4 ∧ w.bytes ≠ 8 then some (.load w.bytes true w.dst w.src w.off)
  else none

/-- The operator of an atomic immediate; the lowest bit asks for the old value. -/
def atomicOp (imm : Int) : Option AtomicOp :=
  if imm = 0x00 ∨ imm = 0x01 then some .add
  else if imm = 0x40 ∨ imm = 0x41 then some .or
  else if imm = 0x50 ∨ imm = 0x51 then some .and
  else if imm = 0xA0 ∨ imm = 0xA1 then some .xor
  else none

def decodeAtomic : Option Instr :=
  if w.imm = 0x100 then some (.load w.bytes false w.dst w.src w.off)
  else if w.imm = 0x110 then some (.store w.bytes w.dst w.off (.reg w.src))
  else if w.bytes ≠ 4 ∧ w.bytes ≠ 8 then none
  else if w.imm = 0xE1 then some (.xchg w.bytes w.dst w.src w.off)
  else if w.imm = 0xF1 then some (.cmpxchg w.bytes w.dst w.src w.off)
  else (atomicOp w.imm).map fun op => .atomic w.bytes op (w.imm % 2 = 1) w.dst w.src w.off

def decodeStore : Option Instr :=
  if w.op / 32 = 3 then
    if w.op % 8 = 2 then
      if w.src = 0 then some (.store w.bytes w.dst w.off (.imm w.imm)) else none
    else if w.imm = 0 then some (.store w.bytes w.dst w.off (.reg w.src))
    else none
  else if w.op / 32 = 6 ∧ w.op % 8 = 3 then decodeAtomic w
  else none

/-- A jump by an offset, or to the address in a register. -/
def decodeJa : Option Instr :=
  if w.src ≠ 0 then none
  else if w.regSource then
    if wide = true ∧ w.off = 0 ∧ w.imm = 0 then some (.jumpReg w.dst) else none
  else if w.dst ≠ 0 then none
  else if wide then if w.imm = 0 then some (.jump w.off) else none
  else if w.off = 0 then some (.jump w.imm) else none

/-- A call; the source field says what its immediate stands for. -/
def decodeCall : Option Instr :=
  if w.regSource then
    if w.src = 0 ∧ w.off = 0 ∧ w.imm = 0 then some (.callReg w.dst) else none
  else if w.dst ≠ 0 then none
  else if w.src = 0 then if w.off = 0 then some (.callHelper w.imm) else none
  else if w.src = 1 then if w.off = 0 then some .callLocal else none
  else if w.src = 2 then some .callKfunc
  else none

def decodeJmp : Option Instr :=
  let code := w.op / 16
  if code = 0 then decodeJa wide w
  else if code = 8 then if wide then decodeCall w else none
  else if code = 9 then
    if wide = true ∧ w.regSource = false ∧ w.dst = 0 ∧ w.src = 0 ∧ w.off = 0 ∧ w.imm = 0 then
      some .exit
    else none
  else if code = 14 then
    if wide = true ∧ w.regSource = false ∧ w.dst = 0 ∧ w.src = 0 ∧ w.imm = 0 then some .mayGoto
    else none
  else do
    let c ← condOf code
    let src ← w.operand
    pure (.branch wide c w.dst src w.off)

def decode : Option Instr :=
  if w.dst > 10 ∨ w.src > 10 then none
  else if w.op = 0x18 then
    if w.src = 0 ∧ w.off = 0 then some (.ldImm64 w.dst) else none
  else
    match w.op % 8 with
    | 1 => decodeLoad w
    | 2 | 3 => decodeStore w
    | 4 => decodeAlu false w
    | 5 => decodeJmp true w
    | 6 => decodeJmp false w
    | 7 => decodeAlu true w
    | _ => none

/-! Execution. -/

/-- A place in the code: a section and a slot of it. -/
structure Loc where
  sec : String
  pc : Int

def Loc.skip (l : Loc) (n : Int) : Loc := { l with pc := l.pc + n }

/-- Who runs the current function: another function, whose registers the machine
keeps, or the kernel. -/
inductive Caller where
  | sub (back : Loc) (regs : Nat → BitVec 64)
  | kernel

structure Machine where
  loc : Loc
  regs : Nat → BitVec 64
  mem : Flat.Memory
  callers : List Caller

/-- What the loader and the kernel fix for one instruction: its 64-bit immediate and
its callee after relocation, the frame of a callee, the code at an address. -/
structure Linkage where
  imm64 : BitVec 64
  callee : Loc
  frame : BitVec 64
  codeAt : BitVec 64 → Loc

/-- The next instruction, with one register set. -/
def Machine.put (m : Machine) (r : Nat) (v : BitVec 64) : Machine :=
  { m with loc := m.loc.skip 1, regs := update m.regs r v }

def Machine.write (m : Machine) (a : BitVec 64) (n : Nat) (v : BitVec 64) : Machine :=
  { m with loc := m.loc.skip 1, mem := Flat.write m.mem a n (Flat.bytesOf v) }

def Machine.operand (m : Machine) (wide : Bool) : Operand → BitVec 64
  | .reg r => m.regs r
  | .imm i => if wide then BitVec.ofInt 64 i else (BitVec.ofInt 32 i).setWidth 64

/-- An operation on whole registers, or on their low halves with the result
zero-extended. -/
def onWidth (f : {w : Nat} → BitVec w → BitVec w → BitVec w) (a b : BitVec 64) :
    BitVec 64 :=
  if wide then f a b else (f (a.setWidth 32) (b.setWidth 32)).setWidth 64

def condOn (c : Cond) (a b : BitVec 64) : Bool :=
  if wide then c.eval a b else c.eval (a.setWidth 32) (b.setWidth 32)

/-- Sign-extends the low bits of a value. -/
def extendSign (bits : Nat) (v : BitVec 64) : BitVec 64 := (v.setWidth bits).signExtend 64

def Machine.addr (m : Machine) (r : Nat) (off : Int) : BitVec 64 :=
  m.regs r + BitVec.ofInt 64 off

def Machine.call (m : Machine) (callee : Loc) (frame : BitVec 64) : Machine where
  loc := callee
  regs := update m.regs 10 frame
  mem := m.mem
  callers := .sub (m.loc.skip 1) m.regs :: m.callers

/-- The state after an instruction; none when control passes to the kernel. -/
def Instr.exec (link : Linkage) (m : Machine) : Instr → Option Machine
  | .ldImm64 dst => some { m.put dst link.imm64 with loc := m.loc.skip 2 }
  | .alu wide op dst src =>
    some (m.put dst (onWidth wide (fun a b => op.eval a b) (m.regs dst) (m.operand wide src)))
  | .neg wide dst => some (m.put dst (onWidth wide (fun a _ => -a) (m.regs dst) 0))
  | .mov wide dst src =>
    some (m.put dst (onWidth wide (fun _ b => b) 0 (m.operand wide src)))
  | .movsx wide bits dst src =>
    some (m.put dst (onWidth wide (fun _ b => b) 0 (extendSign bits (m.regs src))))
  | .addrSpaceCast dst src => some (m.put dst (m.regs src))
  | .toLe bytes dst => some (m.put dst (Flat.value bytes (Flat.bytesOf (m.regs dst))))
  | .swap bytes dst =>
    some (m.put dst (Flat.value bytes fun k => Flat.bytesOf (m.regs dst) (bytes - 1 - k)))
  | .load bytes signed dst src off =>
    let v := Flat.read m.mem (m.addr src off) bytes
    some (m.put dst (if signed then extendSign (8 * bytes) v else v))
  | .store bytes dst off src => some (m.write (m.addr dst off) bytes (m.operand true src))
  | .atomic bytes op fetch dst src off =>
    let old := Flat.read m.mem (m.addr dst off) bytes
    let m' := m.write (m.addr dst off) bytes (op.eval old (m.regs src))
    some (if fetch then { m' with regs := update m.regs src old } else m')
  | .xchg bytes dst src off =>
    let old := Flat.read m.mem (m.addr dst off) bytes
    let m' := m.write (m.addr dst off) bytes (m.regs src)
    some { m' with regs := update m.regs src old }
  | .cmpxchg bytes dst src off =>
    let old := Flat.read m.mem (m.addr dst off) bytes
    let m' := if old.setWidth (8 * bytes) = (m.regs 0).setWidth (8 * bytes) then
        m.write (m.addr dst off) bytes (m.regs src)
      else { m with loc := m.loc.skip 1 }
    some { m' with regs := update m.regs 0 old }
  | .jump off => some { m with loc := m.loc.skip (1 + off) }
  | .jumpReg dst => some { m with loc := link.codeAt (m.regs dst) }
  | .branch wide c dst src off =>
    some { m with
      loc := m.loc.skip
        (if condOn wide c (m.regs dst) (m.operand wide src) then 1 + off else 1) }
  | .mayGoto => some { m with loc := m.loc.skip 1 }
  | .callLocal => some (m.call link.callee link.frame)
  | .callReg dst => some (m.call (link.codeAt (m.regs dst)) link.frame)
  | .exit =>
    match m.callers with
    | .sub back regs :: rest =>
      some ⟨back, update regs 0 (m.regs 0), m.mem, rest⟩
    | _ => none
  | .callHelper _ | .callKfunc => none

end Isa
