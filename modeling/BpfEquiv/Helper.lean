import BpfEquiv.Trace

/-!
Helper calls that return a scalar: environment reads, side-effecting calls
recorded in the trace, and the generic model driven by a prototype.

Every definition here models one branch of the helper dispatch and returns the
value left in r0.
-/
namespace BpfEquiv
open Smt

variable (cfg : Config) (hid : Int) (idx : Nat) (regs : Regs) (what : String)

/-- Caller-saved registers get fresh values, r0 the result. -/
def retClobbered (ret : Val) : M Regs := do
  let n := (← get).exec.nclobber
  modifyExec fun e => { e with nclobber := n + 5 }
  pure fun i =>
    if i = 0 then ret
    else if 1 ≤ i ∧ i ≤ 5 then .data (.bvVar 64 s!"clobber_{cfg.tag}_{n + i}")
    else regs i

def isZero64 (t : Term (.bv 64)) : Term .bool := .rel .eq t (bv64 0)

/-- Buffer bytes written where a condition holds, kept elsewhere. -/
def fillOrKeep (buf : Val) (n : Nat) (ok : Term .bool)
    (byte : Nat → Term (.bv 8)) : M Unit :=
  (List.range n).forM fun k => do
    let old ← loadByte cfg buf k
    storeByte cfg (addrAdd buf k) (.ite ok (byte k) old)

/-- Buffer bytes written where a condition holds, zeroed elsewhere. -/
def fillOrZero (buf : Val) (n : Nat) (ok : Term .bool)
    (byte : Nat → Term (.bv 8)) : M Unit :=
  (List.range n).forM fun k =>
    storeByte cfg (addrAdd buf k) (.ite ok (byte k) (byteVal 0))

/-! Environment reads. -/

/-- Return width of an argument-free helper. -/
def pureOracleHelpers : Option Nat :=
  if hid = 5 ∨ hid = 14 ∨ hid = 15 ∨ hid = 35 ∨ hid = 125 ∨ hid = 158 ∨ hid = 160 ∨
      hid = 208 ∨ hid = 173 ∨ hid = 174 ∨ hid = 185 ∨ hid = 188 then some 64
  else if hid = 7 ∨ hid = 8 ∨ hid = 42 then some 32
  else none

def pureOracle (width : Nat) : Term (.bv 64) :=
  let f : Term (.bv width) := .app s!"oracle_h{hid}" (bv64 idx)
  let ret : Term (.bv 64) := .zext 64 f
  if hid = 14 then ret &&& bv64 0x7FFFFFFF7FFFFFFF else ret

def probeRead : M (Term (.bv 64)) := do
  let n ← concreteU64 cfg (regs 2) what
  if n > maxCopy then bail s!"probe_read size {n} > {maxCopy} in {what}"
  copyPreservingPointers cfg (regs 1) (regs 3) n
  pure (bv64 0)

/-- Length of a copied text: the oracle's answer, or one when it is out of range. -/
def strLen (n : Nat) : Term (.bv 64) :=
  let raw : Term (.bv 64) := .app s!"oracle_strlen_h{hid}" (bv64 idx)
  .ite (.and (.rel .uge raw (bv64 1)) (.rel .ule raw (bv64 n))) raw (bv64 1)

def probeReadStr :
    M (Term (.bv 64)) := do
  let n ← concreteU64 cfg (regs 2) what
  if n > maxCopy then bail s!"probe_read_str size {n} > {maxCopy} in {what}"
  let len := strLen hid idx n
  (List.range n).forM fun k => do
    let old ← loadByte cfg (regs 1) k
    let kb ← loadByte cfg (regs 3) k
    let i := bv64 (k + 1)
    storeByte cfg (addrAdd (regs 1) k)
      (.ite (.rel .ult i len) kb (.ite (.rel .eq i len) (byteVal 0) old))
  pure len

def getCurrentComm : M (Term (.bv 64)) := do
  let n := (← concreteU64 cfg (regs 2) what) % 2 ^ 32
  if n > maxCopy then bail s!"comm size {n} > {maxCopy} in {what}"
  let err : Term (.bv 64) := .sext 64 (Term.app (w := 32) "oracle_comm_err" (bv64 n))
  fillOrZero cfg (regs 1) n (isZero64 err) fun k => .app2 "oracle_comm" (bv64 n) (bv64 k)
  pure err

def getSocketCookie : Term (.bv 64) :=
  match regs 1 with
  | .ptr p => .app (underscored ("oracle_sock_cookie_" ++ p.region.name)) p.off
  | .data t => .app "oracle_sock_cookie" t

def getFuncArg :
    M (Term (.bv 64)) := do
  let (nth, dstp) ← (if hid = 183 then do
      let t ← needData (regs 2) what
      pure (zext64 (lo32 t), regs 3)
    else pure (bv64 0, regs 2))
  let err : Term (.bv 64) := .sext 64 (Term.app (w := 32) s!"oracle_funcarg_err_h{hid}" nth)
  match ← load cfg dstp .dw with
  | .ptr _ => crash "z3.z3types.Z3Exception: True, False or Z3 Boolean expression expected"
  | .data old =>
    store cfg dstp .dw (.data (.ite (isZero64 err) (.app s!"oracle_funcarg_h{hid}" nth) old))
    pure err

def wordChars (s : String) : String :=
  String.ofList (s.toList.map fun c => if c.isAlphanum ∨ c = '_' then c else '_')

def getNetnsCookie : Term (.bv 64) :=
  let key := match regs 1 with
    | .ptr p => canonRegion cfg p.region
    | .data _ => "null"
  .app ("oracle_netns_cookie_" ++ wordChars key) (bv64 0)

def copyFromUser : M (Term (.bv 64)) := do
  let n := (← concreteU64 cfg (regs 2) what) % 2 ^ 32
  if n > maxCopy then bail s!"copy_from_user size {n} > {maxCopy} in {what}"
  let src ← needData (regs 3) what
  let err : Term (.bv 64) := .sext 64 (Term.app2 (w := 32) "oracle_cfu_err" src (bv64 n))
  (List.range n).forM fun k => do
    let byte ← loadByte cfg (.data src) k
    storeByte cfg (addrAdd (regs 1) k) (.ite (isZero64 err) byte (byteVal 0))
  pure err

/-! Packet data. -/

def requireSkb (name what : String) : M Unit :=
  match regs 1 with
  | .ptr ⟨.ctx, _⟩ => do
    match (← get).exec.sharedArr .skbdata with
    | some _ => pure ()
    | none => bail s!"no skbdata region provided in {what}"
  | _ => bail s!"{name} on non-ctx skb in {what}"

def skbLoadBytes : M (Term (.bv 64)) := do
  requireSkb regs "skb_load_bytes" what
  let off := zext64 (lo32 (← needData (regs 2) what))
  let n := (← concreteU64 cfg (regs 4) what) % 2 ^ 32
  if n > maxCopy then bail s!"skb_load_bytes len {n} > {maxCopy} in {what}"
  let skb := ((← get).exec.sharedArr .skbdata).getD zeroArr
  let err : Term (.bv 64) := .sext 64 (Term.app2 (w := 32) "oracle_skb_err" off (bv64 n))
  fillOrZero cfg (regs 3) n (isZero64 err) fun k => .select skb (off + bv64 k)
  pure err

/-- The packet after the first bytes of a store have been considered. -/
def skbStoreLoop (cfg : Config) (src : Val) (off : Term (.bv 64)) (ok : Term .bool) :
    List Nat → Term .arr → M (Term .arr)
  | [], skb => pure skb
  | k :: ks, skb => do
    let b ← loadByte cfg src k
    let i := off + bv64 k
    skbStoreLoop cfg src off ok ks (.store skb i (.ite ok b (.select skb i)))

def skbStoreBytes : M (Term (.bv 64)) := do
  requireSkb regs "skb_store_bytes" what
  let off := zext64 (lo32 (← needData (regs 2) what))
  let n := (← concreteU64 cfg (regs 4) what) % 2 ^ 32
  if n > maxCopy then bail s!"skb_store_bytes len {n} > {maxCopy} in {what}"
  let skb ← regionArray cfg .skbdata
  let err : Term (.bv 64) := .sext 64 (Term.app2 (w := 32) "oracle_skbstore_err" off (bv64 n))
  let skb' ← skbStoreLoop cfg (regs 3) off (isZero64 err) (List.range n) skb
  modifyMem (·.setArr .skbdata skb')
  pure err

/-! Maps. -/

def mapUpdate :
    M (Term (.bv 64)) := do
  let mname ← mapName (regs 1) what
  let d ← mapDef cfg mname what
  match d.valueSize, (if hid = 2 then d.keySize else some 0) with
  | some vs, some ks => do
    if hid = 2 then
      let key ← memBytes cfg (regs 2) ks what
      let value ← memBytes cfg (regs 3) vs what
      let flags ← valBytes (regs 4) 8 what
      emitEvent cfg hid (nameBytes mname ++ key ++ value ++ flags)
    else
      let value ← memBytes cfg (regs 2) vs what
      let flags ← valBytes (regs 3) 8 what
      emitEvent cfg hid (nameBytes mname ++ value ++ flags)
    pure (errnoOracle hid idx)
  | _, _ => bail s!"map {mname} def lacks key/value size in {what}"

def mapDelete :
    M (Term (.bv 64)) := do
  let mname ← mapName (regs 1) what
  let d ← mapDef cfg mname what
  match d.keySize with
  | none => bail s!"map {mname} def lacks key size in {what}"
  | some ks => do
    let key ← memBytes cfg (regs 2) ks what
    emitEvent cfg hid (nameBytes mname ++ key)
    pure (errnoOracle hid idx)

def mapPop :
    M (Term (.bv 64)) := do
  let mname ← mapName (regs 1) what
  let d ← mapDef cfg mname what
  match d.valueSize with
  | none => bail s!"map {mname} def lacks value size in {what}"
  | some vs => do
    emitEvent cfg hid (nameBytes mname)
    let err := errnoOracle hid idx
    fillOrKeep cfg (regs 2) vs (isZero64 err) fun k =>
      .app2 s!"oracle_val_h{hid}" (bv64 idx) (bv64 k)
    pure err

/-! Output. -/

def perfEventOutput :
    M (Term (.bv 64)) := do
  let mname ← mapName (regs 2) what
  let n ← concreteU64 cfg (regs 5) what
  let flags ← valBytes (regs 3) 8 what
  let bytes ← memBytes cfg (regs 4) n what
  emitEvent cfg hid (nameBytes mname ++ flags ++ bytes)
  pure (errnoOracle hid idx)

def ringbufOutput :
    M (Term (.bv 64)) := do
  let mname ← mapName (regs 1) what
  let n ← concreteU64 cfg (regs 3) what
  let bytes ← memBytes cfg (regs 2) n what
  let flags ← valBytes (regs 4) 8 what
  emitEvent cfg hid (nameBytes mname ++ bytes ++ flags)
  pure (errnoOracle hid idx)

def getStackid :
    M (Term (.bv 64)) := do
  let mname ← mapName (regs 2) what
  let flags ← valBytes (regs 3) 8 what
  emitEvent cfg hid (nameBytes mname ++ flags)
  pure (errnoOracle hid idx)

def tracePrintk :
    M (Term (.bv 64)) := do
  let n := (← concreteU64 cfg (regs 2) what) % 2 ^ 32
  if n > maxCopy then bail s!"printk fmt size {n} > {maxCopy} in {what}"
  let fmt ← concreteBytes cfg (regs 1) n what
  let widths ← printkArgWidths fmt what false
  let args ← (List.range widths.length).mapM fun j =>
    valBytes (regs (3 + j)) (widths.getD j 0).toNat what
  emitEvent cfg hid (natBytes n 2 ++ fmt.map .bvVal ++ args.flatten)
  pure (errnoOracle hid idx)

def seqWrite :
    M (Term (.bv 64)) := do
  let n := (← concreteU64 cfg (regs 3) what) % 2 ^ 32
  let bytes ← memBytes cfg (regs 2) n what
  emitEvent cfg hid (natBytes n 4 ++ bytes)
  pure (errnoOracle hid idx)

/-- One argument slot of bpf_seq_printf, the way the kernel consumes it. -/
def seqArg (slot : Val) (width : Int) (what : String) :
    M (List (Term (.bv 8))) := do
  let v ← load cfg slot .dw
  if width = strPointee then cstrBytes cfg v what
  else if width < 8 then
    match v with
    | .ptr _ => crash "z3.z3types.Z3Exception: First argument must be a Z3 expression"
    | .data t => pure ((List.range width.toNat).map (byteOf t))
  else valBytes v 8 what

def seqPrintf :
    M (Term (.bv 64)) := do
  let fsz := (← concreteU64 cfg (regs 3) what) % 2 ^ 32
  if fsz > maxCopy then bail s!"seq_printf fmt size {fsz} > {maxCopy} in {what}"
  let fmt ← concreteBytes cfg (regs 2) fsz what
  let n := (← concreteU64 cfg (regs 5) what) % 2 ^ 32
  let widths ← printkArgWidths fmt what true
  let count := widths.length
  if n ≠ 0 ∧ n ≠ 8 * count then bail s!"seq_printf array {n}B for {count} args in {what}"
  let args ← (List.range count).mapM fun (k : Nat) =>
    seqArg cfg (addrAdd (regs 4) (8 * k)) (widths.getD k 0) what
  emitEvent cfg hid (natBytes fsz 2 ++ fmt.map .bvVal ++ natBytes n 4 ++ args.flatten)
  pure (errnoOracle hid idx)

/-! Locks, ring buffers and the return-value cell. -/

def spinLock : M (Term (.bv 64)) :=
  match regs 1 with
  | .data _ => bail s!"spin_lock on non-region pointer in {what}"
  | .ptr p => do
    if p.region.isStack then bail s!"spin_lock on non-region pointer in {what}"
    let off ← valBytes (.data p.off) 8 what
    emitEvent cfg hid (nameBytes p.region.name ++ off)
    pure (bv64 0)

/-- Submit (132) publishes the record's bytes; discard (133) only the flags. -/
def ringbufSubmit :
    M (Term (.bv 64)) :=
  match regs 1 with
  | .ptr ⟨.rbuf idx, off⟩ => do
    if cfg.z3.constOf off ≠ some 0 then bail s!"ringbuf submit at nonzero offset in {what}"
    let flags ← valBytes (regs 2) 8 what
    if hid = 132 then
      match (← get).counters.rbufsz (.rbuf idx) with
      | none => bail s!"submit of unknown reservation in {what}"
      | some n => do
        let bytes ← memBytes cfg (.ptr ⟨.rbuf idx, bv64 0⟩) n what
        emitEvent cfg hid (flags ++ bytes)
    else emitEvent cfg hid flags
    pure (bv64 0)
  | _ => bail s!"ringbuf submit/discard of non-reserve ptr in {what}"

def ringbufQuery :
    M (Term (.bv 64)) := do
  let mname ← mapName (regs 1) what
  let flags ← valBytes (regs 2) 8 what
  emitEvent cfg hid (nameBytes mname ++ flags)
  pure (.app s!"oracle_h{hid}" (bv64 idx))

def getRetval : M (Term (.bv 64)) := do
  match ← load cfg (.ptr ⟨.sysret, bv64 0⟩) .w with
  | .ptr _ => crash "z3.z3types.Z3Exception: First argument must be a Z3 expression"
  | .data t => pure (.sext 64 (lo32 t))

def setRetval : M (Term (.bv 64)) := do
  let t ← needData (regs 1) what
  store cfg (.ptr ⟨.sysret, bv64 0⟩) .w (.data t)
  pure (.sext 64 (Term.app (w := 32) "oracle_setretval_err" (lo32 t)))

/-! Side-effecting helpers described by a table. -/

inductive ArgSpec where
  | val (i : Nat)
  | mem (i j : Nat)
  | map (i : Nat)
  | arg (i : Nat)
  | mapkey (i j : Nat)
  | func (i : Nat)

def sideEffectHelpers : Option (List ArgSpec) :=
  if hid = 23 then some [.val 1, .val 2]
  else if hid = 39 then some [.val 2]
  else if hid = 43 then some [.val 2, .val 3]
  else if hid = 49 then some [.val 2, .val 3, .mem 4 5]
  else if hid = 50 then some [.val 2, .val 3, .val 4]
  else if hid = 21 then some [.mem 2 3, .val 4]
  else if hid = 51 then some [.map 1, .val 2, .val 3]
  else if hid = 52 then some [.map 2, .val 3, .val 4]
  else if hid = 64 then some [.mem 2 3]
  else if hid = 73 then some [.val 2, .mem 3 4]
  else if hid = 86 then some [.arg 1]
  else if hid = 124 then some [.arg 2, .val 3]
  else if hid = 108 then some [.map 1, .arg 2]
  else if hid = 146 then some [.map 1, .arg 2]
  else if hid = 157 then some [.map 1, .arg 2]
  else if hid = 211 then some [.map 1, .arg 2]
  else if hid = 13 then some [.val 2, .val 3]
  else if hid = 31 then some [.val 2, .val 3]
  else if hid = 32 then some [.val 2]
  else if hid = 38 then some [.val 2, .val 3]
  else if hid = 155 then some [.val 1, .val 2]
  else if hid = 82 then some [.map 2, .mapkey 3 2, .val 4]
  else if hid = 30 then some [.mem 2 3]
  else if hid = 170 then some [.arg 1, .func 2]
  else if hid = 171 then some [.arg 1, .val 2, .val 3]
  else if hid = 172 then some [.arg 1]
  else none

def specBytes :
    ArgSpec → M (List (Term (.bv 8)))
  | .val i => valBytes (regs i) 8 what
  | .map i => do
    let mname ← mapName (regs i) what
    pure (nameBytes mname)
  | .mapkey i j => do
    let mname ← mapName (regs j) what
    let d ← mapDef cfg mname what
    match d.keySize with
    | none => bail s!"map for helper {hid} lacks key size in {what}"
    | some ks => memBytes cfg (regs i) ks what
  | .func i => do
    let name ← funcName cfg (regs i) what
    pure (nameBytes name)
  | .arg i => argIdBytes cfg (regs i) what
  | .mem i j => do
    let n := (← concreteU64 cfg (regs j) what) % 2 ^ 32
    let bytes ← memBytes cfg (regs i) n what
    pure (natBytes n 4 ++ bytes)

def sideEffect (specs : List ArgSpec) (regs : Regs)
    (what : String) : M (Term (.bv 64)) := do
  let payload ← specs.mapM (specBytes cfg hid regs what)
  emitEvent cfg hid payload.flatten
  pure (errnoOracle hid idx)

/-! Environment reads into a buffer, pinned in the trace. -/

/-- The kernel returns zero or a negative error: positive answers are folded away. -/
def nonPositive (err : Term (.bv 64)) : Term (.bv 64) :=
  .ite (.rel .sgt err (bv64 0)) (-err) err

def getStack :
    M (Term (.bv 64)) := do
  let n := (← concreteU64 cfg (regs 3) what) % 2 ^ 32
  if n > maxCopy then bail s!"get_stack size {n} > {maxCopy} in {what}"
  let size ← valBytes (regs 3) 8 what
  let flags ← valBytes (regs 4) 8 what
  emitEvent cfg hid (size ++ flags)
  let raw := errnoOracle hid idx
  let ret : Term (.bv 64) :=
    .ite (.and (.rel .sge raw (bv64 0)) (.rel .ugt raw (bv64 n))) (bv64 n) raw
  fillOrKeep cfg (regs 2) n (.rel .sge ret (bv64 0)) fun k =>
    .app2 "oracle_stackbuf" (bv64 idx) (bv64 k)
  pure ret

def bufferRead (buf : Val) (n : Nat) (oracle : String) :
    M (Term (.bv 64)) := do
  let err := nonPositive (errnoOracle hid idx)
  fillOrKeep cfg buf n (isZero64 err) fun k => .app2 oracle (bv64 idx) (bv64 k)
  pure err

def skbGetTunnelKey :
    M (Term (.bv 64)) := do
  let n := (← concreteU64 cfg (regs 3) what) % 2 ^ 32
  let size ← valBytes (regs 3) 8 what
  let flags ← valBytes (regs 4) 8 what
  if n > maxCopy then bail s!"helper {hid} buf size {n} > {maxCopy} in {what}"
  emitEvent cfg hid (size ++ flags)
  bufferRead cfg hid idx (regs 2) n s!"oracle_buf_h{hid}"

def getsockopt :
    M (Term (.bv 64)) := do
  let n := (← concreteU64 cfg (regs 5) what) % 2 ^ 32
  let level ← valBytes (regs 2) 8 what
  let optname ← valBytes (regs 3) 8 what
  let size ← valBytes (regs 5) 8 what
  if n > maxCopy then bail s!"helper {hid} buf size {n} > {maxCopy} in {what}"
  emitEvent cfg hid (level ++ optname ++ size)
  bufferRead cfg hid idx (regs 4) n s!"oracle_buf_h{hid}"

def skbGetTunnelOpt :
    M (Term (.bv 64)) := do
  let n := (← concreteU64 cfg (regs 3) what) % 2 ^ 32
  if n > maxCopy then bail s!"tunnel_opt size {n} > {maxCopy} in {what}"
  let size ← valBytes (regs 3) 8 what
  emitEvent cfg hid size
  bufferRead cfg hid idx (regs 2) n "oracle_tunnelopt"

def strncmp (cfg : Config) (hid : Int) (idx : Nat) (regs : Regs) (what : String) :
    M (Term (.bv 64)) := do
  let n := (← concreteU64 cfg (regs 2) what) % 2 ^ 32
  if n > maxCopy then bail s!"strncmp size {n} > {maxCopy} in {what}"
  let s1 ← memBytes cfg (regs 1) n what
  let s2 ← cstrBytes cfg (regs 3) what
  emitEvent cfg hid (natBytes n 4 ++ s1 ++ s2)
  pure (errnoOracle hid idx)

def timerInit :
    M (Term (.bv 64)) := do
  let mname ← mapName (regs 2) what
  let slot ← slotKey cfg (regs 1) what
  modifyCounters fun c => { c with timerMap := Function.update c.timerMap slot (some mname) }
  let timer ← argIdBytes cfg (regs 1) what
  let flags ← valBytes (regs 3) 8 what
  emitEvent cfg hid (timer ++ nameBytes mname ++ flags)
  pure (errnoOracle hid idx)

def checkMtu :
    M (Term (.bv 64)) := do
  let ifindex ← valBytes (regs 2) 8 what
  let mtuLen ← memBytes cfg (regs 3) 4 what
  let lenDiff ← valBytes (regs 4) 8 what
  let flags ← valBytes (regs 5) 8 what
  emitEvent cfg hid (ifindex ++ mtuLen ++ lenDiff ++ flags)
  let err := errnoOracle hid idx
  let mtu : Term (.bv 32) := .app "oracle_mtu" (bv64 idx)
  fillOrKeep cfg (regs 3) 4 (isZero64 err) (byteOf mtu)
  pure err

/-! The generic model. -/

/-- A private buffer captured by the generic model: argument number, pointer, size. -/
structure Captured where
  argno : Nat
  ptr : Ptr
  size : Nat

/-- Extent of a pointer argument: from the map's definition, from the argument that
gives its length, or fixed by the prototype. -/
def pointeeSize (name : String) (i : Nat) (size : Option Int)
    (extra : Option Nat) (regs : Regs) (what : String) : M (Option Int) :=
  if size = some mapkeyPointee ∨ size = some mapvalPointee then
    match extra with
    | none => crash "TypeError: unsupported operand type(s) for +: 'int' and 'NoneType'"
    | some j => do
      let mname ← mapName (regs (1 + j)) what
      match cfg.elf.mapDefs mname with
      | none => bail s!"helper {hid} ({name}) arg{i} sized by map {mname} with no def in {what}"
      | some d =>
        pure ((if size = some mapkeyPointee then d.keySize else d.valueSize).map Int.ofNat)
  else
    match size, extra with
    | none, some j => do
      let t ← needData (regs (1 + j)) what
      let n ← concreteU64 cfg (.data t) what
      pure (some n)
    | _, _ => pure size

/-- One pointer argument of the generic helper model, given the earlier private ones. -/
def genericPtrArg (name : String) (i : Nat) (size : Option Int)
    (extra : Option Nat) (regs : Regs) (priv : List Ptr) (what : String) :
    M (List (Term (.bv 8)) × List Captured) := do
  let a := regs (1 + i)
  let size' ← pointeeSize cfg hid name i size extra regs what
  match a with
  | .data _ => do
    let bs ← argIdBytes cfg a what
    pure (bs, [])
  | .ptr p =>
    if size = some mapkeyPointee ∨ size = some mapvalPointee then
      match size' with
      | none => crash "TypeError: '>' not supported between instances of 'NoneType' and 'int'"
      | some n => do
        let bs ← memBytes cfg a n.toNat what
        pure (bs, [])
    else if p.region.isObservable ∨ p.region.isMap then do
      let bs ← argIdBytes cfg a what
      pure (bs, [])
    else
      match size' with
      | none => bail s!"helper {hid} ({name}) arg{i} points to an unsized type in {what}"
      | some n =>
        if n > maxCopy then
          bail s!"helper {hid} ({name}) arg{i} pointee {n}B > {maxCopy} in {what}"
        else do
          let bs ← writtenBytes cfg p n.toNat what
          pure (nameBytes (privateKind cfg p.region) ++ aliasBytes p priv ++ bs,
            [⟨i, p, n.toNat⟩])

/-- Payload and captured buffers of the parameters from the i-th on. -/
def genericArgs (cfg : Config) (hid : Int) (name : String) (regs : Regs) (what : String) :
    Nat → List Ptr → List (Bool × Option Int × Option Nat) →
    M (List (Term (.bv 8)) × List Captured)
  | _, _, [] => pure ([], [])
  | i, priv, (isPointer, size, extra) :: rest => do
    let (bs, caps) ← (if isPointer then
        genericPtrArg cfg hid name i size extra regs priv what
      else do
        let w := if extra.getD 0 = 0 then 8 else extra.getD 0
        let bs ← valBytes (regs (1 + i)) w what
        pure (bs, []))
    let (bs', caps') ← genericArgs cfg hid name regs what (i + 1) (priv ++ caps.map (·.ptr)) rest
    pure (bs ++ bs', caps ++ caps')

def helperGeneric (sig : HelperSig) (regs : Regs) (idx : Nat)
    (what : String) : M (Term (.bv 64)) := do
  let name := sig.name
  let count := sig.params.length
  if count > 5 then bail s!"helper {hid} ({name}) takes {count} args in {what}"
  let (bs, caps) ← genericArgs cfg hid name regs what 0 [] sig.params
  emitEvent cfg hid (nameBytes name ++ bs)
  caps.forM fun c => (List.range c.size).forM fun k =>
    storeByte cfg (addrAdd (.ptr c.ptr) k)
      (.app3 s!"oracle_hbuf{hid}" (bv64 idx) (bv64 c.argno) (bv64 k))
  pure (if sig.retKind = 8 then .app s!"oracle_h{hid}_ret" (bv64 idx) else errnoOracle hid idx)

/-! Dispatch. -/

def helperRet :
    M (Term (.bv 64)) :=
  match pureOracleHelpers hid with
  | some width => pure (pureOracle hid idx width)
  | none =>
    if hid = 4 ∨ hid = 112 ∨ hid = 113 then probeRead cfg regs what
    else if hid = 45 ∨ hid = 114 ∨ hid = 115 then probeReadStr cfg hid idx regs what
    else if hid = 2 ∨ hid = 87 then mapUpdate cfg hid idx regs what
    else if hid = 3 then mapDelete cfg hid idx regs what
    else if hid = 88 ∨ hid = 89 then mapPop cfg hid idx regs what
    else if hid = 25 then perfEventOutput cfg hid idx regs what
    else if hid = 130 then ringbufOutput cfg hid idx regs what
    else if hid = 27 then getStackid cfg hid idx regs what
    else if hid = 6 then tracePrintk cfg hid idx regs what
    else if hid = 16 then getCurrentComm cfg regs what
    else if hid = 26 then skbLoadBytes cfg regs what
    else if hid = 9 then skbStoreBytes cfg regs what
    else if hid = 93 ∨ hid = 94 then spinLock cfg hid regs what
    else if hid = 132 ∨ hid = 133 then ringbufSubmit cfg hid regs what
    else if hid = 134 then ringbufQuery cfg hid idx regs what
    else if hid = 186 then getRetval cfg
    else if hid = 187 then setRetval cfg regs what
    else match sideEffectHelpers hid with
    | some specs => sideEffect cfg hid idx specs regs what
    | none =>
      if hid = 46 then pure (getSocketCookie regs)
      else if hid = 67 then getStack cfg hid idx regs what
      else if hid = 20 then skbGetTunnelKey cfg hid idx regs what
      else if hid = 57 then getsockopt cfg hid idx regs what
      else if hid = 183 ∨ hid = 184 then getFuncArg cfg hid regs what
      else if hid = 122 then pure (getNetnsCookie cfg regs)
      else if hid = 182 then strncmp cfg hid idx regs what
      else if hid = 169 then timerInit cfg hid idx regs what
      else if hid = 29 then skbGetTunnelOpt cfg hid idx regs what
      else if hid = 163 then checkMtu cfg hid idx regs what
      else if hid = 148 then copyFromUser cfg regs what
      else if hid = 127 then seqWrite cfg hid idx regs what
      else if hid = 126 then seqPrintf cfg hid idx regs what
      else match cfg.helperSigs hid with
      | some sig => helperGeneric cfg hid sig regs idx what
      | none => bail s!"helper {hid} in {what}"

def helperCall : M Regs := do
  let idx ← nextCall hid
  let ret ← helperRet cfg hid idx regs what
  retClobbered cfg regs (.data ret)

end BpfEquiv
