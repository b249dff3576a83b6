import BpfEquiv.Helper

/-!
Calls whose result forks the path: nullable-pointer helpers and kernel functions.

A continuation is the condition under which it is taken (none when the call does
not fork) and its registers; memory and counters are the same for all of them.
The first continuation is the one the executor follows.
-/
namespace BpfEquiv
open Smt

abbrev Cont := Option (Term .bool) × Regs

variable (cfg : Config) (hid : Int) (name : String) (idx : Nat) (regs : Regs) (what : String)

def forkNull (isnull : Term .bool) (ret : Val) : M (List Cont) := do
  let ptrRegs ← retClobbered cfg regs ret
  let nullRegs ← retClobbered cfg regs (.data (bv64 0))
  pure [(some (.not isnull), ptrRegs), (some isnull, nullRegs)]

/-! Nullable-pointer helpers. -/

def isSkLookup : Bool := hid = 84 ∨ hid = 85 ∨ hid = 99

def isSkcCast : Bool :=
  hid = 136 ∨ hid = 137 ∨ hid = 138 ∨ hid = 139 ∨ hid = 140

def isStorageGet : Bool := hid = 107 ∨ hid = 145 ∨ hid = 156 ∨ hid = 210

/-- Helpers that return a pointer. -/
def isPtrHelper : Bool :=
  hid = 1 ∨ hid = 195 ∨ isStorageGet hid ∨ hid = 131 ∨ isSkLookup hid ∨ hid = 95 ∨ hid = 96 ∨
    hid = 153 ∨ hid = 194 ∨ isSkcCast hid ∨ hid = 81 ∨ hid = 154

def isMapInMap (d : MapDef) : Bool := d.mapType = some 12 ∨ d.mapType = some 13

/-- Lookup in a map: the event carries the map and the key bytes. The result points
to value memory, or is the handle of an inner map. -/
def mapLookup : M Val := do
  let mname ← mapName (regs 1) what
  let d ← mapDef cfg mname what
  if isMapInMap d ∧ d.inner.isNone then bail s!"map-in-map {mname} without inner def in {what}"
  match d.keySize with
  | none => bail s!"map {mname} def lacks key size in {what}"
  | some ks => do
    let key ← memBytes cfg (regs 2) ks what
    let cpu ← (if hid = 195 then valBytes (regs 3) 8 what else pure [])
    emitEvent cfg hid (nameBytes mname ++ key ++ cpu)
    match (if isMapInMap d then d.inner else none) with
    | some inner => do
      let handle := s!"{mname}#in{idx}"
      modifyExec fun e => { e with dynamicMaps := (handle, inner) :: e.dynamicMaps }
      pure (.ptr ⟨.map handle, bv64 0⟩)
    | none => pure (.ptr ⟨.mapval (.call hid mname idx), bv64 0⟩)

def getLocalStorage :
    M Val := do
  let mname ← mapName (regs 1) what
  let flags ← valBytes (regs 2) 8 what
  emitEvent cfg hid (nameBytes mname ++ flags)
  pure (.ptr ⟨.mapval (.call hid mname idx), bv64 0⟩)

def ringbufReserve :
    M Val := do
  let mname ← mapName (regs 1) what
  let n ← concreteU64 cfg (regs 2) what
  if n > maxCopy then bail s!"ringbuf_reserve size {n} > {maxCopy} in {what}"
  let flags ← valBytes (regs 3) 8 what
  emitEvent cfg hid (nameBytes mname ++ natBytes n 8 ++ flags)
  modifyCounters fun c => { c with rbufsz := Function.update c.rbufsz (.rbuf idx) (some n) }
  pure (.ptr ⟨.rbuf idx, bv64 0⟩)

def skLookup : M Val := do
  let n := (← concreteU64 cfg (regs 3) what) % 2 ^ 32
  let tuple ← memBytes cfg (regs 2) n what
  let netns ← valBytes (regs 4) 8 what
  let flags ← valBytes (regs 5) 8 what
  emitEvent cfg hid (natBytes n 4 ++ tuple ++ netns ++ flags)
  pure (.ptr ⟨.mapval (.sk hid idx), bv64 0⟩)

/-- Views derived from a socket: sk_fullsock gives a fresh region, tcp_sock and the
down-casts give back their argument. -/
def skView : M Val := do
  let sk ← argIdBytes cfg (regs 1) what
  emitEvent cfg hid sk
  if isSkcCast hid ∨ hid = 96 then pure (regs 1)
  else pure (.ptr ⟨.mapval (.call hid "None" idx), bv64 0⟩)

/-- Region of a per-cpu view, named after the source region alone. -/
def perCpuRegion (src : Val) : Region :=
  .mapval (.percpu hid (match src with
    | .ptr p => canonRegion cfg p.region
    | .data _ => "scalar"))

def perCpuPtr : M Val := do
  let src ← argIdBytes cfg (regs 1) what
  let cpu ← (if hid = 153 then valBytes (regs 2) 8 what else pure [])
  emitEvent cfg hid (src ++ cpu)
  pure (.ptr ⟨perCpuRegion cfg hid (regs 1), bv64 0⟩)

def kptrXchg : M Val := do
  let slot ← argIdBytes cfg (regs 1) what
  let new ← argIdBytes cfg (regs 2) what
  emitEvent cfg hid (slot ++ new)
  pure (.ptr ⟨.mapval (.xchg hid idx), bv64 0⟩)

def storageGet : M Val := do
  let mname ← mapName (regs 1) what
  let obj ← valBytes (regs 2) 8 what
  let flags ← valBytes (regs 4) 8 what
  let init ← (match regs 3 with
    | .ptr _ => do
      let d ← mapDef cfg mname what
      match d.valueSize with
      | none => bail s!"map {mname} def lacks value size in {what}"
      | some vs => do
        let bs ← memBytes cfg (regs 3) vs what
        pure (byteVal 1 :: bs)
    | .data _ => do
      let bs ← valBytes (regs 3) 8 what
      pure (byteVal 0 :: bs))
  emitEvent cfg hid (nameBytes mname ++ obj ++ flags ++ init)
  pure (.ptr ⟨.mapval (.call hid mname idx), bv64 0⟩)

/-- Records the call and gives the pointer it returns when it does not return NULL. -/
def ptrHelperRet : M Val :=
  if hid = 1 ∨ hid = 195 then mapLookup cfg hid idx regs what
  else if hid = 81 then getLocalStorage cfg hid idx regs what
  else if hid = 131 then ringbufReserve cfg hid idx regs what
  else if isSkLookup hid then skLookup cfg hid idx regs what
  else if hid = 95 ∨ hid = 96 ∨ isSkcCast hid then skView cfg hid idx regs what
  else if hid = 153 ∨ hid = 154 then perCpuPtr cfg hid regs what
  else if hid = 194 then kptrXchg cfg hid idx regs what
  else storageGet cfg hid idx regs what

def ptrHelper : M (List Cont) := do
  let idx ← nextCall hid
  let ret ← ptrHelperRet cfg hid idx regs what
  if hid = 81 then
    let ptrRegs ← retClobbered cfg regs ret
    pure [(none, ptrRegs)]
  else forkNull cfg regs (.pred s!"oracle_null_h{hid}" (bv64 idx)) ret

/-! Kernel functions. -/

def kfuncEventId : Int := 255

def kfuncNoop : List String :=
  ["bpf_rcu_read_lock", "bpf_rcu_read_unlock", "bpf_preempt_disable", "bpf_preempt_enable"]

def kfuncRelease : List String :=
  ["bpf_task_release", "bpf_cgroup_release", "bpf_cpumask_release",
    "bpf_kfunc_call_test_release", "bpf_key_put"]

def kfuncIdentity : List String := ["bpf_cast_to_kern_ctx"]

def kfuncAcquire : List String :=
  ["bpf_task_from_pid", "bpf_cgroup_from_id", "bpf_task_get_cgroup1",
    "bpf_kfunc_call_test_acquire", "bpf_cpumask_create", "bpf_cpumask_acquire",
    "bpf_task_acquire", "bpf_cgroup_acquire", "bpf_cgroup_ancestor", "bpf_lookup_user_key",
    "bpf_lookup_system_key"]

def kfuncStr : List String :=
  ["bpf_strcmp", "bpf_strcasecmp", "bpf_strncmp", "bpf_strncasecmp", "bpf_strchr",
    "bpf_strchrnul", "bpf_strnchr", "bpf_strrchr", "bpf_strlen", "bpf_strnlen", "bpf_strspn",
    "bpf_strcspn", "bpf_strstr", "bpf_strcasestr", "bpf_strnstr", "bpf_strncasestr"]

def kfuncEvent (payload : List (Term (.bv 8))) : M Unit :=
  emitEvent cfg kfuncEventId (nameBytes name ++ payload)

def kfuncErr : Term (.bv 64) :=
  .sext 64 (Term.app (w := 32) ("oracle_kf_err_" ++ name) (bv64 idx))

def contOne (ret : Val) : M (List Cont) := do
  let regs' ← retClobbered cfg regs ret
  pure [(none, regs')]

def argReg (i : Nat) : M Val :=
  if 1 + i ≤ 10 then pure (regs (1 + i)) else crash "IndexError: list index out of range"

def protoFlags : M (List Bool) :=
  match kfuncProto cfg name with
  | some flags => pure flags
  | none => bail s!"kfunc {name} lacks a BTF proto in {what}"

/-- Pointers by identity, scalars by value. -/
def protoBytes :
    M (List (Term (.bv 8))) := do
  let flags ← protoFlags cfg name what
  let bs ← (List.range flags.length).mapM fun i => do
    let a ← argReg regs i
    if flags.getD i false then argIdBytes cfg a what else valBytes a 8 what
  pure bs.flatten

/-- Texts by contents, scalars by value. -/
def protoTexts :
    M (List (Term (.bv 8))) := do
  let flags ← protoFlags cfg name what
  let bs ← (List.range flags.length).mapM fun i => do
    let a ← argReg regs i
    if flags.getD i false then
      let cb ← cstrBytes cfg a what
      pure (natBytes cb.length 2 ++ cb)
    else valBytes a 8 what
  pure bs.flatten

/-- Contents of a pointer argument in the generic model; handles have none. -/
def kfuncContents (i : Nat) (p : Ptr) (size : Option Int)
    (lenarg : Option Nat) (regs : Regs) (what : String) : M (List (Term (.bv 8))) :=
  if p.region.isMap then pure []
  else if size = some strPointee then cstrBytes cfg (.ptr p) what
  else do
    let size' ← (match size, lenarg with
      | none, some j => do
        let t ← needData (← argReg regs j) what
        let n ← concreteU64 cfg (.data t) what
        pure (some (n : Int))
      | _, _ => pure size)
    match size' with
    | none => bail s!"kfunc {name} arg{i} points to an unsized type in {what}"
    | some n =>
      if n > maxArg then bail s!"kfunc {name} arg{i} pointee {n}B too large in {what}"
      else memBytes cfg (.ptr p) n.toNat what

/-- Payload of the parameters from the i-th on, given the earlier private pointers. -/
def kfuncArgs (cfg : Config) (name : String) (regs : Regs) (what : String) :
    Nat → List Ptr → List (Bool × Option Int × Option Nat) → M (List (Term (.bv 8)))
  | _, _, [] => pure []
  | i, priv, (ptrParam, size, lenarg) :: rest => do
    let a := regs (1 + i)
    if !ptrParam then
      let w := if size = some 1 ∨ size = some 2 ∨ size = some 4 then (size.getD 8).toNat else 8
      let bs ← valBytes a w what
      let tl ← kfuncArgs cfg name regs what (i + 1) priv rest
      pure (bs ++ tl)
    else
      match a with
      | .data _ => do
        let bs ← argIdBytes cfg a what
        let tl ← kfuncArgs cfg name regs what (i + 1) priv rest
        pure (bs ++ tl)
      | .ptr p => do
        let (ident, priv') ← (if p.region.isObservable then do
            let bs ← argIdBytes cfg a what
            pure (bs, priv)
          else pure (nameBytes (privateKind cfg p.region) ++ aliasBytes p priv, priv ++ [p]))
        let bs ← kfuncContents cfg name i p size lenarg regs what
        let tl ← kfuncArgs cfg name regs what (i + 1) priv' rest
        pure (ident ++ bs ++ tl)

def kfuncGeneric (sig : KfuncSig) (regs : Regs)
    (what : String) : M (Term (.bv 64)) := do
  let count := sig.params.length
  if count > 5 then bail s!"kfunc {name} takes {count} args in {what}"
  let payload ← kfuncArgs cfg name regs what 0 [] sig.params
  kfuncEvent cfg name payload
  pure (kfuncErr name idx)

/-- Whether a kernel function returns a pointer, from its signature or else from the
object's own BTF. -/
def kfuncRetIsPtr (sig : KfuncSig) : Option Bool :=
  match sig.retIsPtr with
  | some b => some b
  | none => do
    let funcs ← cfg.elf.btfFuncs
    let f ← funcs.find? (·.name = name)
    let (_, _, retPtr) ← f.proto
    pure retPtr

/-- The kind and operation of bpf_iter_<kind>_new, _next or _destroy. -/
def iterName : Option (String × String) :=
  let cs := name.toList
  let start := "bpf_iter_".toList
  if start.isPrefixOf cs then
    let rest := cs.drop start.length
    let strip (op : String) : Option (String × String) :=
      let suffix := '_' :: op.toList
      if suffix.isSuffixOf rest ∧ rest.length > suffix.length ∧
          rest.all (fun c => c.isAlphanum || c = '_') then
        some (String.ofList (rest.take (rest.length - suffix.length)), op)
      else none
    (strip "new" <|> strip "next" <|> strip "destroy")
  else none

def iterCall (kind op : String) (idx : Nat) (regs : Regs) (what : String) :
    M (List Cont) :=
  if op = "next" then do
    let it ← argIdBytes cfg (regs 1) what
    kfuncEvent cfg name it
    forkNull cfg regs (.pred ("oracle_kf_null_iter_" ++ kind) (bv64 idx))
      (.ptr ⟨.mapval (.iter kind idx), bv64 0⟩)
  else do
    let payload ← protoBytes cfg name regs what
    kfuncEvent cfg name payload
    contOne cfg regs (.data (kfuncErr name idx))

def arenaAllocPages :
    M (List Cont) := do
  let mname ← mapName (regs 1) what
  let hint ← argIdBytes cfg (regs 2) what
  let pages ← valBytes (regs 3) 8 what
  let numa ← valBytes (regs 4) 8 what
  let flags ← valBytes (regs 5) 8 what
  kfuncEvent cfg name (nameBytes mname ++ hint ++ pages ++ numa ++ flags)
  forkNull cfg regs (.pred "oracle_kf_null_arena" (bv64 idx)) (.ptr ⟨.arenapg idx, bv64 0⟩)

def arenaFreePages :
    M (List Cont) := do
  let mname ← mapName (regs 1) what
  let page ← argIdBytes cfg (regs 2) what
  let pages ← valBytes (regs 3) 8 what
  kfuncEvent cfg name (nameBytes mname ++ page ++ pages)
  contOne cfg regs (.data (kfuncErr name idx))

/-- The object's address is an oracle; NULL or not is decided on it. -/
def acquireCall :
    M (List Cont) := do
  let payload ← protoBytes cfg name regs what
  kfuncEvent cfg name payload
  let addr : Term (.bv 64) := .app ("oracle_kf_obj_" ++ name) (bv64 idx)
  let ptrRegs ← retClobbered cfg regs (.data addr)
  let nullRegs ← retClobbered cfg regs (.data (bv64 0))
  pure [(some (.rel .ne addr (bv64 0)), ptrRegs), (some (.rel .eq addr (bv64 0)), nullRegs)]

def irqSave :
    M (List Cont) := do
  let flags ← argIdBytes cfg (regs 1) what
  kfuncEvent cfg name flags
  store cfg (regs 1) .dw (.data (.app "oracle_kf_irqflags" (bv64 idx)))
  contOne cfg regs (.data (kfuncErr name idx))

def irqRestore :
    M (List Cont) := do
  let flags ← argIdBytes cfg (regs 1) what
  let saved ← memBytes cfg (regs 1) 8 what
  kfuncEvent cfg name (flags ++ saved)
  contOne cfg regs (.data (kfuncErr name idx))

def kfuncFallback :
    M (List Cont) :=
  match kfuncSig cfg name with
  | none => bail s!"kfunc {name} in {what}"
  | some sig =>
    if kfuncRetIsPtr cfg name sig = some false then do
      let ret ← kfuncGeneric cfg name idx sig regs what
      contOne cfg regs (.data ret)
    else bail s!"kfunc {name} in {what}"

def nextKfunc : M Nat := do
  let idx := (← get).counters.kf name
  modifyCounters fun c => { c with kf := Function.update c.kf name (idx + 1) }
  pure idx

def kfuncDispatch :
    M (List Cont) :=
  if kfuncNoop.contains name then do
    kfuncEvent cfg name []
    contOne cfg regs (.data (kfuncErr name idx))
  else if kfuncRelease.contains name then do
    let obj ← argIdBytes cfg (regs 1) what
    kfuncEvent cfg name obj
    contOne cfg regs (.data (kfuncErr name idx))
  else if kfuncIdentity.contains name then contOne cfg regs (regs 1)
  else if name = "bpf_rdonly_cast" then do
    let btfId ← valBytes (regs 2) 4 what
    kfuncEvent cfg name btfId
    contOne cfg regs (regs 1)
  else if name = "bpf_local_irq_save" then irqSave cfg name idx regs what
  else if name = "bpf_local_irq_restore" then irqRestore cfg name idx regs what
  else if kfuncStr.contains name then do
    let payload ← protoTexts cfg name regs what
    kfuncEvent cfg name payload
    contOne cfg regs (.data (kfuncErr name idx))
  else if kfuncAcquire.contains name then acquireCall cfg name idx regs what
  else if name = "bpf_session_is_return" then
    contOne cfg regs (.data (.zext 64 (Term.app (w := 1) "oracle_kf_sess_isret" (bv64 idx))))
  else if name = "bpf_session_cookie" then do
    kfuncEvent cfg name []
    forkNull cfg regs (.pred "oracle_kf_null_cookie" (bv64 idx))
      (.ptr ⟨.mapval (.cookie idx), bv64 0⟩)
  else if "bpf_cpumask_".toList.isPrefixOf name.toList then do
    let payload ← protoBytes cfg name regs what
    kfuncEvent cfg name payload
    contOne cfg regs (.data (kfuncErr name idx))
  else match iterName name with
  | some (kind, op) => iterCall cfg name kind op idx regs what
  | none =>
    if name = "bpf_arena_alloc_pages" then arenaAllocPages cfg name idx regs what
    else if name = "bpf_arena_free_pages" then arenaFreePages cfg name idx regs what
    else kfuncFallback cfg name idx regs what

def kfuncCall : M (List Cont) := do
  let idx ← nextKfunc name
  kfuncDispatch cfg name idx regs what

end BpfEquiv
