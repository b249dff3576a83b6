import BpfEquiv.State

/-!
Loads, stores and copies.

A region's byte array is created on first use. A pointer stored whole is kept in
the region's shadow; outside the stack its canonical encoding is written to the
byte array as well. A read that only partly covers a spilled pointer bails.
-/
namespace BpfEquiv
open Smt

/-! Texts and checksums. -/

def utf8 (s : String) : List Byte := s.toUTF8.data.toList.map (·.toBitVec)

def crcBit (c : BitVec 32) : BitVec 32 :=
  if c.getLsbD 0 then (c >>> 1) ^^^ 0xEDB88320 else c >>> 1

def crcByte (c : BitVec 32) (b : Byte) : BitVec 32 :=
  Nat.iterate crcBit 8 (c ^^^ b.setWidth 32)

/-- The CRC-32 of zlib: reflected polynomial, all-ones start and final complement. -/
def crc32 (bs : List Byte) : BitVec 32 :=
  (bs.foldl crcByte 0xFFFFFFFF) ^^^ 0xFFFFFFFF

def joinWith (sep : Char) : List (List Char) → List Char
  | [] => []
  | [f] => f
  | f :: fs => f ++ sep :: joinWith sep fs

variable (cfg : Config) (region : Region) (addr : Term (.bv 64))

/-- Region name with the per-run tag neutralized. -/
def canonRegion : String :=
  match splitOn ':' region.name.toList with
  | p0 :: p1 :: rest =>
    String.ofList (joinWith ':' (p0 :: (if p1 = cfg.tag.toList then ['T'] else p1) :: rest))
  | _ => region.name

/-- A pointer's identity as a 64-bit value: crc32 of its canonical region name in
the high half plus its offset. -/
def canonPtrBits (p : Ptr) : Term (.bv 64) :=
  bv64 (((crc32 (utf8 (canonRegion cfg p.region))).toNat <<< 32 : Nat) : Int) + p.off

/-! Region arrays. -/

def underscored (s : String) : String :=
  String.ofList (s.toList.map fun c => if c = ':' then '_' else c)

def initName : String := "init_" ++ underscored region.name

/-- Bytes written one by one over an array, from index i on. -/
def storeConsts (keepZero : Bool) : Nat → List Byte → Term .arr → Term .arr
  | _, [], arr => arr
  | i, b :: bs, arr =>
    storeConsts keepZero (i + 1) bs
      (if b = 0 ∧ keepZero = false then arr else .store arr (bv64 i) (.bvVal b))

def zeroArr : Term .arr := .constArr (.bvVal 0)

def concreteArray (secname : String) : M (Term .arr) :=
  match cfg.elf.sectionByName secname with
  | some s => pure (storeConsts false 0 s.data zeroArr)
  | none => crash "AttributeError: 'NoneType' object has no attribute 'data'"

/-- Keeps the array a region already has in the shared table, adding it if absent. -/
def setdefaultShared (arr : Term .arr) : M (Term .arr) := do
  match (← get).exec.sharedArr region with
  | some a => pure a
  | none =>
    modifyExec fun e => { e with shared := e.shared ++ [(region, arr)] }
    pure arr

/-- The array of a region that the path has not used yet. -/
def initArray : M (Term .arr) := do
  match (← get).exec.sharedArr region with
  | some a => pure a
  | none =>
    match region with
    | .stack _ _ => pure (.arrVar "stack_init")
    | .ro _ sec => concreteArray cfg sec
    | .kcfg _ _ =>
      match (← get).exec.kcfgBytes.lookup region with
      | some bs => pure (storeConsts true 0 bs zeroArr)
      | none => crash s!"KeyError: {region.name}"
    | .mapval _ | .rbuf _ => setdefaultShared region (.arrVar (initName region))
    | .arenapg _ => setdefaultShared region zeroArr
    | _ => bail s!"load/store in unmodeled region {region.name}"

def regionArray : M (Term .arr) := do
  match (← get).mem.arrs region with
  | some a => pure a
  | none =>
    let a ← initArray cfg region
    modifyMem (·.setArr region a)
    pure a

/-! Loads. -/

def concreteAddr (what : String) : M (BitVec 64) :=
  match cfg.z3.constOf addr with
  | some a => pure a
  | none => bail s!"symbolic address over pointer-spill shadow in {what}"

/-- Region and offset a register addresses: a scalar is an address in kernel memory. -/
def Val.target : Val → Region × Term (.bv 64)
  | .ptr p => (p.region, p.off)
  | .data t => (.kmem, t)

def addrAdd (p : Val) (k : Int) : Val :=
  match p with
  | .ptr p => .ptr ⟨p.region, p.off + bv64 k⟩
  | .data t => .data (t + bv64 k)

/-- Little-endian value of the bytes at an address, zero-extended. -/
def loadTerm (arr : Term .arr) (addr : Term (.bv 64)) (size : Size) : Term (.bv 64) :=
  let b (k : Nat) : Term (.bv 8) := .select arr (addr + bv64 k)
  match size with
  | .b => .zext 64 (b 0)
  | .h => .zext 64 (.concat (w := 16) rfl (b 1) (b 0))
  | .w => .zext 64 (.concat (w := 32) rfl (b 3) (.concat (w := 24) rfl (b 2)
      (.concat (w := 16) rfl (b 1) (b 0))))
  | .dw => .concat (w := 64) rfl (b 7) (.concat (w := 56) rfl (b 6)
      (.concat (w := 48) rfl (b 5) (.concat (w := 40) rfl (b 4)
      (.concat (w := 32) rfl (b 3) (.concat (w := 24) rfl (b 2)
      (.concat (w := 16) rfl (b 1) (b 0)))))))

/-- Low bytes of a value in reverse order, zero-extended. -/
def swapTerm (size : Size) (v : Term (.bv 64)) : Term (.bv 64) :=
  let b := byteOf v
  match size with
  | .b => .zext 64 (b 0)
  | .h => .zext 64 (.concat (w := 16) rfl (b 0) (b 1))
  | .w => .zext 64 (.concat (w := 32) rfl (b 0) (.concat (w := 24) rfl (b 1)
      (.concat (w := 16) rfl (b 2) (b 3))))
  | .dw => .concat (w := 64) rfl (b 0) (.concat (w := 56) rfl (b 1)
      (.concat (w := 48) rfl (b 2) (.concat (w := 40) rfl (b 3)
      (.concat (w := 32) rfl (b 4) (.concat (w := 24) rfl (b 5)
      (.concat (w := 16) rfl (b 6) (b 7)))))))

/-- What the shadow says about a load: the reloaded pointer, if any. -/
def shadowRead (size : Size) :
    M (Option Ptr) := do
  let sh := (← get).mem.shadow region
  if sh.entries.isEmpty then pure none
  else
    let a ← concreteAddr cfg addr region.name
    match (if size = .dw then sh.lookup a else none) with
    | some p => pure (some p)
    | none =>
      if sh.entries.any fun e => decide (Overlaps e.1 a size.bytes) then
        bail s!"partial read of spilled pointer in {region.name}"
      else pure none

def load (ptr : Val) (size : Size) : M Val := do
  let (region, addr) := ptr.target
  if region.isMap then bail s!"deref of map pointer {region.name}"
  else
    match ← shadowRead cfg region addr size with
    | some p => pure (.ptr p)
    | none =>
      let arr ← regionArray cfg region
      pure (.data (loadTerm arr addr size))

/-! Stores. -/

/-- Records which bytes of a stack region the program has stored to. -/
def noteWrite (size : Nat) : M Unit :=
  if region.isStack then
    match cfg.z3.constOf addr with
    | none => modifyMem (·.setWrote region none)
    | some a => modifyMem fun mem =>
      match mem.wrote region with
      | none => mem
      | some prev =>
        mem.setWrote region (some (prev ++ (List.range size).map (a.toNat + ·)))
  else pure ()

def storeBytes (arr : Term .arr) (addr : Term (.bv 64)) (byte : Nat → Term (.bv 8)) :
    Nat → Term .arr
  | 0 => arr
  | n + 1 => .store (storeBytes arr addr byte n) (addr + bv64 n) (byte n)

/-- Scalar store: drops the spilled pointers it overlaps and writes the bytes. -/
def storeData (size : Nat)
    (byte : Nat → Term (.bv 8)) : M Unit := do
  let sh := (← get).mem.shadow region
  if !sh.entries.isEmpty then
    let a ← concreteAddr cfg addr region.name
    if sh.entries.any fun e => decide (Overlaps e.1 a size) then
      modifyMem (·.setShadow region (sh.evict a size))
  let arr ← regionArray cfg region
  modifyMem (·.setArr region (storeBytes arr addr byte size))
  noteWrite cfg region addr size

def spill (p : Ptr) : M Unit := do
  if !region.takesSpill then bail s!"spilled pointer store into {region.name}"
  let a ← concreteAddr cfg addr region.name
  modifyMem fun mem => mem.setShadow region ((mem.shadow region).put a p)
  noteWrite cfg region addr 8
  if !region.isStack then
    let arr ← regionArray cfg region
    modifyMem (·.setArr region (storeBytes arr addr (byteOf (canonPtrBits cfg p)) 8))

def store (cfg : Config) (ptr : Val) (size : Size) (val : Val) : M Unit := do
  let (region, addr) := ptr.target
  if region.isReadOnly then bail s!"store into read-only region {region.name}"
  match val with
  | .data t => storeData cfg region addr size.bytes (byteOf t)
  | .ptr p =>
    if size = .dw then spill cfg region addr p
    else storeData cfg region addr size.bytes (byteOf (canonPtrBits cfg p))

def storeByte (ptr : Val) (b : Term (.bv 8)) : M Unit := do
  let (region, addr) := ptr.target
  if region.isReadOnly then bail s!"store into read-only region {region.name}"
  storeData cfg region addr 1 (byteOf b)

/-! Copies. -/

/-- The pointer spilled exactly at the address, when the address is concrete. -/
def spilledAt (mem : Mem) (src : Val) : Option Ptr :=
  match src with
  | .data _ => none
  | .ptr p => (cfg.z3.constOf p.off).bind (mem.shadow p.region).lookup

/-- Iterations of the copy loop from the k-th byte on. -/
def copyLoop (cfg : Config) (dst src : Val) (n : Nat) : Nat → Nat → M Unit
  | 0, _ => pure ()
  | fuel + 1, k => do
    if k < n then
      let sptr := addrAdd src k
      let mem := (← get).mem
      match (if n - k ≥ 8 then spilledAt cfg mem sptr else none) with
      | some p =>
        store cfg (addrAdd dst k) .dw (.ptr p)
        copyLoop cfg dst src n fuel (k + 8)
      | none =>
        let byte ← load cfg sptr .b
        store cfg (addrAdd dst k) .b byte
        copyLoop cfg dst src n fuel (k + 1)

/-- Byte copy that carries a stored pointer across whole. -/
def copyPreservingPointers (dst src : Val) (n : Nat) : M Unit :=
  copyLoop cfg dst src n n 0

end BpfEquiv
