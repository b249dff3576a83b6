import BpfEquiv.Alu

/-!
The observable call trace and the ways an argument enters it: by value, by
pointed-to bytes, by identity, or as a text.
-/
namespace BpfEquiv
open Smt

variable (cfg : Config) (v : Val) (what : String)

def concreteU64 : M Nat :=
  match v with
  | .ptr _ => bail s!"pointer where scalar expected in {what}"
  | .data t =>
    match cfg.z3.constOf t with
    | some x => pure x.toNat
    | none => bail s!"symbolic size argument in {what}"

/-! Events. -/

def eventHeader (hid : Int) (len : Nat) : List (Term (.bv 8)) :=
  [.bvVal (BitVec.ofInt 8 hid), byteVal (len % 256), byteVal (len / 256 % 256)]

/-- Bytes written one after the other from a concrete index on. -/
def storeList (arr : Term .arr) (cur : Nat) : List (Term (.bv 8)) → Term .arr
  | [] => arr
  | b :: bs => storeList (.store arr (bv64 cur) b) (cur + 1) bs

/-- Appends helper id, payload length and payload to the trace region. -/
def emitEvent (hid : Int) (payload : List (Term (.bv 8))) : M Unit := do
  let arr ← regionArray cfg .trace
  let ev := eventHeader hid payload.length ++ payload
  let cur := (← get).counters.cursor
  modifyMem (·.setArr .trace (storeList arr cur ev))
  modifyCounters fun c => { c with cursor := cur + ev.length }

def errnoOracle (hid : Int) (idx : Nat) : Term (.bv 64) :=
  .sext 64 (Term.app (w := 32) s!"oracle_err_h{hid}" (bv64 idx))

/-- Number of earlier calls of a helper on the path, counting this one. -/
def nextCall (hid : Int) : M Nat := do
  let idx := (← get).counters.calls hid
  modifyCounters fun c => { c with calls := Function.update c.calls hid (idx + 1) }
  pure idx

/-! Arguments. -/

def mapName : M String :=
  match v with
  | .ptr ⟨.map name, _⟩ => pure name
  | _ => bail s!"non-map pointer as map argument in {what}"

def mapDef (mname what : String) : M MapDef := do
  match (← get).exec.dynamicMaps.lookup mname with
  | some d => pure d
  | none =>
    match cfg.elf.mapDefs mname with
    | some d => pure d
    | none => bail s!"no BTF def for map {mname} in {what}"

def nameBytes (name : String) : List (Term (.bv 8)) :=
  let enc := utf8 name
  byteVal (enc.length % 256) :: enc.map .bvVal

def valBytes (n : Nat) (what : String) : M (List (Term (.bv 8))) := do
  let t ← needData v what
  pure ((List.range n).map (byteOf t))

def loadByte (ptr : Val) (k : Nat) : M (Term (.bv 8)) := do
  match ← load cfg (addrAdd ptr k) .b with
  | .data t => pure (byteOf t 0)
  | .ptr _ => crash "z3.z3types.Z3Exception: First argument must be a Z3 expression"

def memBytes (ptr : Val) (n : Nat) (what : String) : M (List (Term (.bv 8))) :=
  if n > maxArg then bail s!"arg byte compare of {n} > {maxArg} in {what}"
  else (List.range n).mapM (loadByte cfg ptr)

def concreteBytes (ptr : Val) (n : Nat) (what : String) : M (List Byte) :=
  (List.range n).mapM fun k => do
    match ← load cfg (addrAdd ptr k) .b with
    | .ptr _ => crash "z3.z3types.Z3Exception: First argument must be a Z3 expression"
    | .data t =>
      match cfg.z3.constOf t with
      | some x => pure (x.setWidth 8)
      | none => bail s!"symbolic byte in {what}"

def argIdBytes : M (List (Term (.bv 8))) :=
  match v with
  | .ptr p => do
    let off ← valBytes (.data p.off) 8 what
    pure (byteVal 1 :: nameBytes (canonRegion cfg p.region) ++ off)
  | .data _ => do
    let bs ← valBytes v 8 what
    pure (byteVal 0 :: bs)

def natBytes (n count : Nat) : List (Term (.bv 8)) :=
  (List.range count).map fun k => byteVal (n / 256 ^ k % 256)

/-- The bytes of a text up to its NUL, or a fixed window as soon as one of them is
not concrete. The bytes read so far are an accumulator. -/
def cstrLoop (cfg : Config) (ptr : Val) (what : String) :
    Nat → Nat → List (Term (.bv 8)) → M (List (Term (.bv 8)))
  | 0, _, _ => bail s!"unterminated string arg in {what}"
  | fuel + 1, k, acc => do
    let b ← loadByte cfg ptr k
    match cfg.z3.constOf b with
    | none => do
      let window ← memBytes cfg ptr strCap what
      pure (byteVal 2 :: window)
    | some x =>
      let acc := acc ++ [.bvVal x]
      if x = 0 then pure acc else cstrLoop cfg ptr what fuel (k + 1) acc

def cstrBytes (ptr : Val) (what : String) : M (List (Term (.bv 8))) :=
  cstrLoop cfg ptr what maxCopy 0 [byteVal 1]

/-- Bytes of a stack buffer, with those never stored to reported as zero. -/
def writtenBytes (p : Ptr) (n : Nat) (what : String) :
    M (List (Term (.bv 8))) := do
  if !p.region.isStack then memBytes cfg (.ptr p) n what
  else
    match (← get).mem.wrote p.region with
    | none => bail s!"buffer arg after a symbolically-addressed store in {what}"
    | some wrote =>
      match cfg.z3.constOf p.off with
      | none => bail s!"symbolic buffer address in {what}"
      | some base =>
        (List.range n).mapM fun k =>
          if wrote.contains (base.toNat + k) then loadByte cfg (.ptr p) k
          else pure (byteVal 0)

/-- Kind of private memory a pointer refers to, without the frame it lives in. -/
def privateKind (region : Region) : String :=
  match region with
  | .stack _ _ => "stack"
  | .ro _ _ => "ro"
  | r => canonRegion cfg r

/-- Whether a private argument is the same buffer as each earlier one. -/
def aliasBytes (a : Ptr) (priv : List Ptr) : List (Term (.bv 8)) :=
  priv.map fun p =>
    if a.region = p.region then .ite (.rel .eq a.off p.off) (byteVal 1) (byteVal 0)
    else byteVal 0

/-! Callbacks and slots. -/

def funcName : M String :=
  match v with
  | .ptr ⟨.func secname idx, _⟩ =>
    match cfg.elf.sectionByName secname with
    | none => crash "AttributeError: 'NoneType' object has no attribute 'idx'"
    | some sec =>
      match cfg.elf.namedSymbolAt sec.idx (idx * 8) with
      | some sym => pure (normalizeName sym.name)
      | none => bail s!"unnamed callback at {secname}+{idx} in {what}"
  | _ => bail s!"expected a function pointer in {what}"

/-- Identity of an embedded struct slot, comparable across the two objects. -/
def slotKey : M String :=
  match v with
  | .data _ => bail s!"timer slot is not a pointer in {what}"
  | .ptr p =>
    let offs := match cfg.z3.constOf p.off with
      | some x => toString x.toNat
      | none => "sym"
    pure (canonRegion cfg p.region ++ "+" ++ offs)

/-! Format strings. -/

def isFlagChar (c : Byte) : Bool :=
  "0123456789.-+ #".toList.any fun d => c.toNat = d.toNat

def convChar (fmt : List Byte) : Char :=
  match fmt with
  | c :: _ => Char.ofNat c.toNat
  | [] => '?'

/-- Argument widths a format consumes; a text argument is strPointee. The fuel is
the length of the format. -/
def printkWidths (what : String) (allowStr : Bool) : Nat → List Byte → M (List Int)
  | 0, _ => pure []
  | _ + 1, [] => pure []
  | fuel + 1, c :: rest =>
    if c.toNat ≠ '%'.toNat then printkWidths what allowStr fuel rest
    else if rest.head?.any (·.toNat = '%'.toNat) then printkWidths what allowStr fuel rest.tail
    else do
      let flagged := rest.dropWhile isFlagChar
      let longs := (flagged.takeWhile (·.toNat = 'l'.toNat)).length
      let conv := flagged.drop longs
      let ch := convChar conv
      let spec := String.ofList (List.replicate longs 'l' ++ [ch])
      let width ← (if ch = 's' ∧ allowStr then pure strPointee
        else if "diuxXc".toList.contains ch then pure (if longs = 0 then 4 else 8)
        else bail s!"printk conversion %{spec} in {what}")
      let tl ← printkWidths what allowStr fuel conv.tail
      pure (width :: tl)

def printkArgWidths (fmt : List Byte) (what : String) (allowStr : Bool) : M (List Int) := do
  let widths ← printkWidths what allowStr fmt.length fmt
  if !allowStr && decide (widths.length > 3) then
    bail s!"printk with {widths.length} args in {what}"
  pure widths

/-! Prototypes. -/

/-- Signature of a kernel function: the override, else the object's own BTF. -/
def kfuncSig (name : String) : Option KfuncSig :=
  match cfg.kfuncSigOverride name with
  | some sig => some sig
  | none => do
    let funcs ← cfg.elf.btfFuncs
    let f ← funcs.find? (·.name = name)
    let (params, voidRet, retPtr) ← f.proto
    pure ⟨params.map fun (p, sz) => (p, sz.map Int.ofNat, none), voidRet, some retPtr⟩

def kfuncProto (name : String) : Option (List Bool) :=
  (kfuncSig cfg name).map fun sig => sig.params.map (·.1)

/-- Target of the entry program's exception callback, from its declaration tag. -/
def exceptionCb : M (Option (String × Nat)) :=
  match cfg.elf.btfFuncs, cfg.entryFunc with
  | some _, some entry =>
    match cfg.elf.declTags.find? fun t =>
        "exception_callback:".toList.isPrefixOf t.1.toList && t.2 = entry with
    | none => pure none
    | some t =>
      let cbName := String.ofList (t.1.toList.drop "exception_callback:".length)
      match cfg.elf.symbols.find? fun s => s.name = cbName ∧ s.type = sttFunc with
      | none => bail s!"exception callback {cbName} not found in {what}"
      | some s =>
        match cfg.elf.sections[s.shndx]? with
        | none => crash "IndexError: list index out of range"
        | some sec => pure (some (sec.name, s.value / 8))
  | _, _ => pure none

end BpfEquiv
