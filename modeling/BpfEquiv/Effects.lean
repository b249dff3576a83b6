import BpfEquiv.Check
import BpfEquiv.MemorySpec

/-!
What the functions of the executor may do to its state.

Memory and bookkeeping change freely. The table of shared arrays only takes the first use
of a region at its end, and the number of the last frame only goes up. A preorder that
allows these changes holds between the states before and after every function: there is
one lemma for each of them, and the one for a step is what the invariants of a run use.
-/
namespace BpfEquiv
open Smt Hoare

/-- An entry that the first use of its region makes. -/
def FirstUse (e : Region × Term .arr) : Prop :=
  match e.1 with
  | .mapval _ | .rbuf _ | .cbkey _ _ _ | .cbarg _ => e.2 = .arrVar (initName e.1)
  | .arenapg _ => e.2 = zeroArr
  | _ => False

attribute [grind] FirstUse

/-- Preorders along which the executor moves its state. -/
class Footprint (R : St → St → Prop) : Prop extends IsPreorder St R where
  mem (s : St) (g : Mem → Mem) : R s { s with mem := g s.mem }
  counters (s : St) (g : Counters → Counters) : s.counters.frame ≤ (g s.counters).frame →
    R s { s with counters := g s.counters }
  exec (s : St) (g : Exec → Exec) : (g s.exec).shared = s.exec.shared →
    R s { s with exec := g s.exec }
  first (s : St) (r : Region) (a : Term .arr) : FirstUse (r, a) →
    R s { s with exec := { s.exec with shared := s.exec.shared ++ [(r, a)] } }

variable {R : St → St → Prop} [Footprint R]

/-! State. -/

omit [Footprint R] in
@[grind ←] theorem bail_moves {α : Type} (msg : String) : Moves R (bail msg : M α) := .throw _

omit [Footprint R] in
@[grind ←] theorem crash_moves {α : Type} (exn : String) : Moves R (crash exn : M α) := .throw _

@[grind ←] theorem modifyMem_moves (g : Mem → Mem) : Moves R (modifyMem g) :=
  .update fun s => Footprint.mem s g

theorem modifyCounters_moves {g : Counters → Counters} (same : ∀ c, (g c).frame = c.frame) :
    Moves R (modifyCounters g) :=
  .update fun s => Footprint.counters s g (same s.counters).ge

theorem modifyExec_moves {g : Exec → Exec} (same : ∀ e, (g e).shared = e.shared) :
    Moves R (modifyExec g) :=
  .update fun s => Footprint.exec s g (same s.exec)

@[grind ←] theorem setdefaultShared_moves {r : Region} {a : Term .arr} (first : FirstUse (r, a)) :
    Moves R (setdefaultShared r a) := by
  intro s b s' h
  rw [setdefaultShared, returns_get_bind] at h
  split at h
  · rw [h.pure.2]
    exact refl_of R s
  · obtain ⟨_, t, added, rest⟩ := h.bind
    rw [rest.pure.2, returns_modify.mp added]
    exact Footprint.first s r a first

variable (cfg : Config) (hid : Int) (idx n i : Nat) (regs : Regs) (name what mname : String)
  (region : Region) (addr : Term (.bv 64)) (size : Size) (v : Val) (p : Ptr) (f : CbFrame)
  (it : Item) (ins : Insn)

@[grind ←] theorem needData_moves : Moves R (needData v what) := by
  unfold needData
  grind

/-! Loads, stores and copies. -/

@[grind ←] theorem concreteArray_moves (secname : String) :
    Moves R (concreteArray cfg secname) := by
  rw [concreteArray]
  grind

@[grind ←] theorem initArray_moves : Moves R (initArray cfg region) := by
  unfold initArray
  grind

@[grind ←] theorem regionArray_moves : Moves R (regionArray cfg region) := by
  rw [regionArray]
  grind

@[grind ←] theorem concreteAddr_moves : Moves R (concreteAddr cfg addr what) := by
  rw [concreteAddr]
  grind

@[grind ←] theorem shadowRead_moves : Moves R (shadowRead cfg region addr size) := by
  rw [shadowRead]
  grind

@[grind ←] theorem load_moves (ptr : Val) : Moves R (load cfg ptr size) := by
  rw [load]
  grind

@[grind ←] theorem noteWrite_moves (size : Nat) : Moves R (noteWrite cfg region addr size) := by
  rw [noteWrite]
  grind

@[grind ←] theorem storeData_moves (size : Nat) (byte : Nat → Term (.bv 8)) :
    Moves R (storeData cfg region addr size byte) := by
  rw [storeData]
  grind

@[grind ←] theorem spill_moves : Moves R (spill cfg region addr p) := by
  rw [spill]
  grind

@[grind ←] theorem store_moves (ptr : Val) (val : Val) : Moves R (store cfg ptr size val) := by
  rw [store]
  grind

@[grind ←] theorem storeByte_moves (ptr : Val) (b : Term (.bv 8)) :
    Moves R (storeByte cfg ptr b) := by
  rw [storeByte]
  grind

@[grind ←] theorem copyLoop_moves (dst src : Val) (fuel k : Nat) :
    Moves R (copyLoop cfg dst src n fuel k) := by
  induction fuel generalizing k with
  | zero => exact .pure ()
  | succ fuel ih =>
    rw [copyLoop]
    grind

@[grind ←] theorem copyPreservingPointers_moves (dst src : Val) :
    Moves R (copyPreservingPointers cfg dst src n) := by
  rw [copyPreservingPointers]
  grind

/-! Registers. -/

@[grind ←] theorem sectionPtr_moves (secname : String) (addend : Nat) :
    Moves R (sectionPtr cfg secname addend) := by
  rw [sectionPtr]
  exact .ite (.pure _) (bail_moves _)

@[grind ←] theorem kconfigPtr_moves (sym : Symbol) (decl : KcfgDecl) (addend : Nat) :
    Moves R (kconfigPtr cfg sym decl addend) := by
  rw [kconfigPtr]
  split
  · exact bail_moves _
  · split
    · exact bail_moves _
    · exact .bind (modifyExec_moves fun _ => rfl) fun _ => .pure _

@[grind ←] theorem symbolPtr_moves (sym : Symbol) (addend : Nat) :
    Moves R (symbolPtr cfg sym addend) := by
  rw [symbolPtr]
  grind

@[grind ←] theorem resolveLd64_moves : Moves R (resolveLd64 cfg ins) := by
  rw [resolveLd64]
  grind

@[grind ←] theorem aluMov_moves (is64 : Bool) (src : Val) (soff : Int) :
    Moves R (aluMov is64 src soff what) := by
  unfold aluMov
  grind

@[grind ←] theorem aluScalar_moves (code : Nat) (is64 : Bool) (dst src : Val) (soff : Int) :
    Moves R (aluScalar code is64 dst src soff what) := by
  rw [aluScalar]
  grind

@[grind ←] theorem alu_moves (code : Nat) (is64 : Bool) (dst src : Val) (soff : Int) :
    Moves R (alu code is64 dst src soff what) := by
  unfold alu
  grind

@[grind ←] theorem endianOp_moves (op : Nat) (is64Cls : Bool) (v : Term (.bv 64)) (width : Int) :
    Moves R (endianOp op is64Cls v width what) := by
  rw [endianOp]
  grind

@[grind ←] theorem cmpxchg_moves (p : Val) (srcv old : Term (.bv 64)) :
    Moves R (cmpxchg cfg p size srcv old regs) := by
  rw [cmpxchg]
  grind

@[grind ←] theorem atomic_moves : Moves R (atomic cfg ins regs what) := by
  rw [atomic]
  grind

@[grind ←] theorem condScalar_moves (code : Nat) (is32 : Bool) (a b : Term (.bv 64)) :
    Moves R (condScalar code is32 a b what) := by
  rw [condScalar]
  grind

@[grind ←] theorem cond_moves (code : Nat) (is32 : Bool) (dst src : Val) :
    Moves R (cond code is32 dst src what) := by
  unfold cond
  grind

/-! Events. -/

@[grind ←] theorem concreteU64_moves : Moves R (concreteU64 cfg v what) := by
  unfold concreteU64
  grind

@[grind ←] theorem emitEvent_moves (payload : List (Term (.bv 8))) :
    Moves R (emitEvent cfg hid payload) :=
  .bind (regionArray_moves cfg _) fun _ => .bind .get fun _ => .bind (modifyMem_moves _) fun _ =>
    modifyCounters_moves fun _ => rfl

@[grind ←] theorem nextCall_moves : Moves R (nextCall hid) := by
  rw [nextCall]
  exact .bind .get fun _ => .bind (modifyCounters_moves fun _ => rfl) fun _ => .pure _

@[grind ←] theorem mapName_moves : Moves R (mapName v what) := by
  unfold mapName
  grind

@[grind ←] theorem mapDef_moves : Moves R (mapDef cfg mname what) := by
  rw [mapDef]
  grind

@[grind ←] theorem valBytes_moves : Moves R (valBytes v n what) := by
  rw [valBytes]
  grind

@[grind ←] theorem loadByte_moves (ptr : Val) (k : Nat) : Moves R (loadByte cfg ptr k) := by
  rw [loadByte]
  grind

@[grind ←] theorem memBytes_moves (ptr : Val) : Moves R (memBytes cfg ptr n what) := by
  rw [memBytes]
  grind

@[grind ←] theorem concreteBytes_moves (ptr : Val) : Moves R (concreteBytes cfg ptr n what) := by
  rw [concreteBytes]
  grind

@[grind ←] theorem argIdBytes_moves : Moves R (argIdBytes cfg v what) := by
  unfold argIdBytes
  grind

@[grind ←] theorem cstrLoop_moves (ptr : Val) (fuel k : Nat) (acc : List (Term (.bv 8))) :
    Moves R (cstrLoop cfg ptr what fuel k acc) := by
  induction fuel generalizing k acc with
  | zero => exact bail_moves _
  | succ fuel ih =>
    rw [cstrLoop]
    grind

@[grind ←] theorem cstrBytes_moves (ptr : Val) : Moves R (cstrBytes cfg ptr what) := by
  rw [cstrBytes]
  grind

@[grind ←] theorem writtenBytes_moves : Moves R (writtenBytes cfg p n what) := by
  rw [writtenBytes]
  grind

@[grind ←] theorem funcName_moves : Moves R (funcName cfg v what) := by
  unfold funcName
  grind

@[grind ←] theorem slotKey_moves : Moves R (slotKey cfg v what) := by
  unfold slotKey
  grind

@[grind ←] theorem printkWidths_moves (allowStr : Bool) (fuel : Nat) (fmt : List Byte) :
    Moves R (printkWidths what allowStr fuel fmt) := by
  induction fuel generalizing fmt with
  | zero => exact .pure []
  | succ fuel ih =>
    cases fmt with
    | nil => exact .pure []
    | cons c rest =>
      rw [printkWidths]
      -- any set of conversions will do, and the automation would decode this one
      generalize "diuxXc".toList = conversions
      grind

@[grind ←] theorem printkArgWidths_moves (fmt : List Byte) (allowStr : Bool) :
    Moves R (printkArgWidths fmt what allowStr) := by
  rw [printkArgWidths]
  grind

@[grind ←] theorem exceptionCb_moves : Moves R (exceptionCb cfg what) := by
  unfold exceptionCb
  generalize cfg.elf.btfFuncs = funcs, cfg.entryFunc = entry
  cases funcs with
  | none => exact .pure none
  | some _ =>
    cases entry with
    | none => exact .pure none
    | some entry =>
      dsimp only
      generalize cfg.elf.declTags.find? _ = tag
      cases tag with
      | none => exact .pure none
      | some t =>
        dsimp only
        generalize cfg.elf.symbols.find? _ = sym
        cases sym <;> grind

/-! Helpers. -/

@[grind ←] theorem retClobbered_moves (ret : Val) : Moves R (retClobbered cfg regs ret) :=
  .bind .get fun _ => .bind (modifyExec_moves fun _ => rfl) fun _ => .pure _

@[grind ←] theorem fillOrKeep_moves (buf : Val) (ok : Term .bool) (byte : Nat → Term (.bv 8)) :
    Moves R (fillOrKeep cfg buf n ok byte) := by
  rw [fillOrKeep]
  grind

@[grind ←] theorem fillOrZero_moves (buf : Val) (ok : Term .bool) (byte : Nat → Term (.bv 8)) :
    Moves R (fillOrZero cfg buf n ok byte) := by
  rw [fillOrZero]
  grind

@[grind ←] theorem probeRead_moves : Moves R (probeRead cfg regs what) := by
  rw [probeRead]
  grind

@[grind ←] theorem probeReadStr_moves : Moves R (probeReadStr cfg hid idx regs what) := by
  rw [probeReadStr]
  grind

@[grind ←] theorem getCurrentComm_moves : Moves R (getCurrentComm cfg regs what) := by
  rw [getCurrentComm]
  grind

@[grind ←] theorem getFuncArg_moves : Moves R (getFuncArg cfg hid regs what) := by
  rw [getFuncArg]
  grind

@[grind ←] theorem copyFromUser_moves : Moves R (copyFromUser cfg regs what) := by
  rw [copyFromUser]
  grind

@[grind ←] theorem requireSkb_moves : Moves R (requireSkb regs name what) := by
  rw [requireSkb]
  grind

@[grind ←] theorem skbLoadBytes_moves : Moves R (skbLoadBytes cfg regs what) := by
  rw [skbLoadBytes]
  grind

@[grind ←] theorem skbStoreLoop_moves (src : Val) (off : Term (.bv 64)) (ok : Term .bool)
    (ks : List Nat) (skb : Term .arr) : Moves R (skbStoreLoop cfg src off ok ks skb) := by
  induction ks generalizing skb with
  | nil => exact .pure skb
  | cons k ks ih =>
    rw [skbStoreLoop]
    grind

@[grind ←] theorem skbStoreBytes_moves : Moves R (skbStoreBytes cfg regs what) := by
  rw [skbStoreBytes]
  grind

@[grind ←] theorem mapUpdate_moves : Moves R (mapUpdate cfg hid idx regs what) := by
  refine .bind (mapName_moves what _) fun mname => .bind (mapDef_moves cfg what mname) fun d => ?_
  split <;> grind

@[grind ←] theorem mapDelete_moves : Moves R (mapDelete cfg hid idx regs what) := by
  rw [mapDelete]
  grind

@[grind ←] theorem mapPop_moves : Moves R (mapPop cfg hid idx regs what) := by
  rw [mapPop]
  grind

@[grind ←] theorem perfEventOutput_moves : Moves R (perfEventOutput cfg hid idx regs what) := by
  rw [perfEventOutput]
  grind

@[grind ←] theorem ringbufOutput_moves : Moves R (ringbufOutput cfg hid idx regs what) := by
  rw [ringbufOutput]
  grind

@[grind ←] theorem getStackid_moves : Moves R (getStackid cfg hid idx regs what) := by
  rw [getStackid]
  grind

@[grind ←] theorem tracePrintk_moves : Moves R (tracePrintk cfg hid idx regs what) := by
  rw [tracePrintk]
  grind

@[grind ←] theorem seqWrite_moves : Moves R (seqWrite cfg hid idx regs what) := by
  rw [seqWrite]
  grind

@[grind ←] theorem seqArg_moves (slot : Val) (width : Int) :
    Moves R (seqArg cfg slot width what) := by
  rw [seqArg]
  grind

@[grind ←] theorem seqPrintf_moves : Moves R (seqPrintf cfg hid idx regs what) := by
  refine .bind (concreteU64_moves cfg what _) fun fsz => .guard ?_
  refine .bind (concreteBytes_moves cfg _ what _) fun fmt =>
    .bind (concreteU64_moves cfg what _) fun n => ?_
  grind

@[grind ←] theorem spinLock_moves : Moves R (spinLock cfg hid regs what) := by
  rw [spinLock]
  grind

@[grind ←] theorem ringbufSubmit_moves : Moves R (ringbufSubmit cfg hid regs what) := by
  unfold ringbufSubmit
  split
  · dsimp only
    split <;> grind
  · exact bail_moves _

@[grind ←] theorem ringbufQuery_moves : Moves R (ringbufQuery cfg hid idx regs what) := by
  rw [ringbufQuery]
  grind

@[grind ←] theorem getRetval_moves : Moves R (getRetval cfg) := by
  rw [getRetval]
  grind

@[grind ←] theorem setRetval_moves : Moves R (setRetval cfg regs what) := by
  rw [setRetval]
  grind

@[grind ←] theorem specBytes_moves (x1 : ArgSpec) : Moves R (specBytes cfg hid regs what x1) := by
  unfold specBytes
  grind

@[grind ←] theorem sideEffect_moves (specs : List ArgSpec) :
    Moves R (sideEffect cfg hid idx specs regs what) := by
  rw [sideEffect]
  grind

@[grind ←] theorem getStack_moves : Moves R (getStack cfg hid idx regs what) := by
  rw [getStack]
  grind

@[grind ←] theorem bufferRead_moves (buf : Val) (oracle : String) :
    Moves R (bufferRead cfg hid idx buf n oracle) := by
  rw [bufferRead]
  grind

@[grind ←] theorem skbGetTunnelKey_moves : Moves R (skbGetTunnelKey cfg hid idx regs what) := by
  rw [skbGetTunnelKey]
  grind

@[grind ←] theorem getsockopt_moves : Moves R (getsockopt cfg hid idx regs what) := by
  rw [getsockopt]
  grind

@[grind ←] theorem skbGetTunnelOpt_moves : Moves R (skbGetTunnelOpt cfg hid idx regs what) := by
  rw [skbGetTunnelOpt]
  grind

@[grind ←] theorem strncmp_moves : Moves R (strncmp cfg hid idx regs what) := by
  rw [strncmp]
  grind

@[grind ←] theorem timerInit_moves : Moves R (timerInit cfg hid idx regs what) := by
  refine .bind (by grind) fun mname => .bind (by grind) fun slot => ?_
  refine .bind (modifyCounters_moves fun _ => rfl) fun _ => ?_
  grind

@[grind ←] theorem checkMtu_moves : Moves R (checkMtu cfg hid idx regs what) := by
  rw [checkMtu]
  grind

@[grind ←] theorem pointeeSize_moves (size : Option Int) (extra : Option Nat) :
    Moves R (pointeeSize cfg hid name i size extra regs what) := by
  unfold pointeeSize
  grind

@[grind ←] theorem genericPtrArg_moves (size : Option Int) (extra : Option Nat) (priv : List Ptr) :
    Moves R (genericPtrArg cfg hid name i size extra regs priv what) := by
  rw [genericPtrArg]
  grind

@[grind ←] theorem genericArgs_moves (priv : List Ptr)
    (params : List (Bool × Option Int × Option Nat)) :
    Moves R (genericArgs cfg hid name regs what i priv params) := by
  induction params generalizing i priv with
  | nil => exact .pure _
  | cons param rest ih =>
    obtain ⟨isPointer, size, extra⟩ := param
    rw [genericArgs]
    grind

@[grind ←] theorem helperGeneric_moves (sig : HelperSig) :
    Moves R (helperGeneric cfg hid sig regs idx what) := by
  rw [helperGeneric]
  grind

@[grind ←] theorem helperRet_moves : Moves R (helperRet cfg hid idx regs what) := by
  unfold helperRet
  split
  · exact .pure _
  repeat' apply Moves.ite
  all_goals try grind
  split
  · grind
  · repeat' apply Moves.ite
    all_goals grind

@[grind ←] theorem helperCall_moves : Moves R (helperCall cfg hid regs what) := by
  rw [helperCall]
  grind

/-! Calls that return pointers. -/

@[grind ←] theorem forkNull_moves (isnull : Term .bool) (ret : Val) :
    Moves R (forkNull cfg regs isnull ret) := by
  rw [forkNull]
  grind

@[grind ←] theorem mapLookup_moves : Moves R (mapLookup cfg hid idx regs what) := by
  refine .bind (mapName_moves what _) fun mname => .bind (mapDef_moves cfg what mname) fun d =>
    .guard ?_
  split
  · exact bail_moves _
  refine .bind (memBytes_moves _ _ _ _) fun key => .bind ?_ fun cpu =>
    .bind (emitEvent_moves _ _ _) fun _ => ?_
  · split <;> grind
  · split
    · exact .bind (modifyExec_moves fun _ => rfl) fun _ => .pure _
    · exact .pure _

@[grind ←] theorem getLocalStorage_moves : Moves R (getLocalStorage cfg hid idx regs what) := by
  rw [getLocalStorage]
  grind

@[grind ←] theorem ringbufReserve_moves : Moves R (ringbufReserve cfg hid idx regs what) := by
  refine .bind (by grind) fun mname => .bind (by grind) fun n => .guard ?_
  refine .bind (by grind) fun flags => .bind (by grind) fun _ => ?_
  exact .bind (modifyCounters_moves fun _ => rfl) fun _ => .pure _

@[grind ←] theorem skLookup_moves : Moves R (skLookup cfg hid idx regs what) := by
  rw [skLookup]
  grind

@[grind ←] theorem skView_moves : Moves R (skView cfg hid idx regs what) := by
  rw [skView]
  grind

@[grind ←] theorem perCpuPtr_moves : Moves R (perCpuPtr cfg hid regs what) := by
  rw [perCpuPtr]
  grind

@[grind ←] theorem kptrXchg_moves : Moves R (kptrXchg cfg hid idx regs what) := by
  rw [kptrXchg]
  grind

@[grind ←] theorem storageGet_moves : Moves R (storageGet cfg hid idx regs what) := by
  refine .bind (mapName_moves what _) fun mname => .bind (valBytes_moves _ what _) fun obj =>
    .bind (valBytes_moves _ what _) fun flags => .bind ?_ fun init => ?_
  · split <;> grind
  · grind

@[grind ←] theorem ptrHelperRet_moves : Moves R (ptrHelperRet cfg hid idx regs what) := by
  rw [ptrHelperRet]
  grind

@[grind ←] theorem ptrHelper_moves : Moves R (ptrHelper cfg hid regs what) := by
  rw [ptrHelper]
  grind

@[grind ←] theorem kfuncEvent_moves (payload : List (Term (.bv 8))) :
    Moves R (kfuncEvent cfg name payload) := by
  rw [kfuncEvent]
  grind

@[grind ←] theorem contOne_moves (ret : Val) : Moves R (contOne cfg regs ret) := by
  rw [contOne]
  grind

@[grind ←] theorem argReg_moves : Moves R (argReg regs i) := by
  rw [argReg]
  grind

@[grind ←] theorem protoFlags_moves : Moves R (protoFlags cfg name what) := by
  rw [protoFlags]
  grind

@[grind ←] theorem protoBytes_moves : Moves R (protoBytes cfg name regs what) := by
  rw [protoBytes]
  grind

@[grind ←] theorem protoTexts_moves : Moves R (protoTexts cfg name regs what) := by
  rw [protoTexts]
  grind

@[grind ←] theorem kfuncContents_moves (size : Option Int) (lenarg : Option Nat) :
    Moves R (kfuncContents cfg name i p size lenarg regs what) := by
  unfold kfuncContents
  grind

@[grind ←] theorem kfuncArgs_moves (priv : List Ptr)
    (params : List (Bool × Option Int × Option Nat)) :
    Moves R (kfuncArgs cfg name regs what i priv params) := by
  induction params generalizing i priv with
  | nil => exact .pure []
  | cons param rest ih =>
    obtain ⟨ptrParam, size, lenarg⟩ := param
    rw [kfuncArgs]
    grind

@[grind ←] theorem kfuncGeneric_moves (sig : KfuncSig) :
    Moves R (kfuncGeneric cfg name idx sig regs what) := by
  rw [kfuncGeneric]
  grind

@[grind ←] theorem iterCall_moves (kind op : String) :
    Moves R (iterCall cfg name kind op idx regs what) := by
  rw [iterCall]
  grind

@[grind ←] theorem arenaAllocPages_moves : Moves R (arenaAllocPages cfg name idx regs what) := by
  rw [arenaAllocPages]
  grind

@[grind ←] theorem arenaFreePages_moves : Moves R (arenaFreePages cfg name idx regs what) := by
  rw [arenaFreePages]
  grind

@[grind ←] theorem acquireCall_moves : Moves R (acquireCall cfg name idx regs what) := by
  rw [acquireCall]
  grind

@[grind ←] theorem irqSave_moves : Moves R (irqSave cfg name idx regs what) := by
  rw [irqSave]
  grind

@[grind ←] theorem irqRestore_moves : Moves R (irqRestore cfg name idx regs what) := by
  rw [irqRestore]
  grind

@[grind ←] theorem kfuncFallback_moves : Moves R (kfuncFallback cfg name idx regs what) := by
  rw [kfuncFallback]
  grind

@[grind ←] theorem nextKfunc_moves : Moves R (nextKfunc name) := by
  rw [nextKfunc]
  exact .bind .get fun _ => .bind (modifyCounters_moves fun _ => rfl) fun _ => .pure _

@[grind ←] theorem kfuncDispatch_moves : Moves R (kfuncDispatch cfg name idx regs what) := by
  unfold kfuncDispatch
  repeat' apply Moves.ite
  all_goals grind

@[grind ←] theorem kfuncCall_moves : Moves R (kfuncCall cfg name regs what) := by
  rw [kfuncCall]
  grind

/-! Instructions. -/

@[grind ←] theorem feasible_moves (conds : List (Term .bool)) :
    Moves R (feasible cfg conds) :=
  .bind .get fun _ => .bind (modifyExec_moves fun _ => rfl) fun _ => .pure _

@[grind ←] theorem resume_moves (sec : String) (pc : Int) (conds : List (Term .bool))
    (stack : List Frame) :
    Moves R (resume it sec pc regs conds stack) := by
  rw [resume]
  grind

@[grind ←] theorem goOn_moves (pc : Int) : Moves R (goOn it pc regs) := by
  rw [goOn]
  grind

@[grind ←] theorem enter_moves (sec : String) (pc : Int) (stack : List Frame) :
    Moves R (enter it sec pc regs stack) := by
  rw [enter]
  grind

@[grind ←] theorem forkConts_moves (conts : List Cont) : Moves R (forkConts it conts) := by
  unfold forkConts
  grind

@[grind ←] theorem decodeM_moves (sec : Section) : Moves R (decodeM cfg sec) := by
  rw [decodeM]
  grind

@[grind ←] theorem insnsOf_moves (secname : String) : Moves R (insnsOf cfg secname what) := by
  rw [insnsOf]
  grind

@[grind ←] theorem callTarget_moves (sec : String) (pc : Int) :
    Moves R (callTarget cfg ins sec pc what) := by
  rw [callTarget]
  grind

@[grind ←] theorem cbTarget_moves : Moves R (cbTarget v what) := by
  unfold cbTarget
  grind

@[grind ←] theorem cbIterRegs_moves : Moves R (cbIterRegs cfg f i) := by
  unfold cbIterRegs
  grind

@[grind ←] theorem nextCbframe_moves : Moves R nextCbframe := by
  rw [nextCbframe]
  exact .bind .get fun _ => .bind (modifyCounters_moves fun _ => rfl) fun _ => .pure _

@[grind ←] theorem loopStart_moves : Moves R (loopStart cfg f regs what) := by
  rw [loopStart]
  grind

@[grind ←] theorem forEachStart_moves : Moves R (forEachStart cfg f regs what) := by
  rw [forEachStart]
  grind

@[grind ←] theorem timerCbStart_moves : Moves R (timerCbStart cfg f regs what) := by
  refine .bind (slotKey_moves cfg what _) fun slot => .bind .get fun s => ?_
  split
  · grind
  · refine .bind .get fun t => .bind (by grind) fun timer => .bind (by grind) fun _ => ?_
    refine .ite (.pure _) ?_
    exact .bind (modifyCounters_moves fun _ => rfl) fun _ => .pure _

@[grind ←] theorem cbStart_moves (retSec : String) (retPc : Int) :
    Moves R (cbStart cfg hid retSec retPc regs what) := by
  rw [cbStart]
  grind

@[grind ←] theorem stepLdImm64_moves : Moves R (stepLdImm64 cfg it ins what) := by
  rw [stepLdImm64]
  grind

@[grind ←] theorem stepEndian_moves : Moves R (stepEndian it ins what) := by
  rw [stepEndian]
  grind

@[grind ←] theorem stepAlu_moves : Moves R (stepAlu it ins what) := by
  rw [stepAlu]
  grind

@[grind ←] theorem stepLdx_moves : Moves R (stepLdx cfg it ins what) := by
  rw [stepLdx]
  grind

@[grind ←] theorem stepStore_moves : Moves R (stepStore cfg it ins what) := by
  rw [stepStore]
  grind

@[grind ←] theorem nextFrame_moves : Moves R nextFrame := by
  intro s fid s' h
  rw [nextFrame, returns_get_bind] at h
  obtain ⟨_, t, raised, last⟩ := h.bind
  rw [last.pure.2, returns_modify.mp raised]
  exact Footprint.counters s (fun c => { c with frame := s.counters.frame + 1 }) (Nat.le_succ _)

@[grind ←] theorem stepThrow_moves : Moves R (stepThrow cfg it what) := by
  rw [stepThrow]
  grind

@[grind ←] theorem stepSubprog_moves : Moves R (stepSubprog cfg it ins what) := by
  rw [stepSubprog]
  grind

@[grind ←] theorem tailCallEvent_moves : Moves R (tailCallEvent cfg it what) := by
  rw [tailCallEvent]
  grind

@[grind ←] theorem stepTailCall_moves : Moves R (stepTailCall cfg it what) := by
  rw [stepTailCall]
  grind

@[grind ←] theorem stepCallback_moves : Moves R (stepCallback cfg it ins what) := by
  refine .guard (.bind (by grind) fun start => ?_)
  split
  · grind
  · refine .bind (by grind) fun skips => .bind (by grind) fun pushed => ?_
    grind

@[grind ←] theorem stepHelper_moves : Moves R (stepHelper cfg it ins what) := by
  rw [stepHelper]
  grind

@[grind ←] theorem stepCall_moves : Moves R (stepCall cfg it ins what) := by
  rw [stepCall]
  grind

@[grind ←] theorem stepCbExit_moves (rest : List Frame) :
    Moves R (stepCbExit cfg it f rest what) := by
  rw [stepCbExit]
  grind

@[grind ←] theorem stepExit_moves : Moves R (stepExit cfg it what) := by
  rw [stepExit]
  grind

@[grind ←] theorem stepCondJump_moves : Moves R (stepCondJump cfg it ins what) := by
  rw [stepCondJump]
  grind

@[grind ←] theorem stepJmp_moves : Moves R (stepJmp cfg it ins what) := by
  rw [stepJmp]
  grind

@[grind ←] theorem stepInsn_moves : Moves R (stepInsn cfg it ins what) := by
  rw [stepInsn]
  grind

@[grind ←] theorem fetch_moves : Moves R (fetch cfg it) := by
  rw [fetch]
  grind

@[grind ←] theorem stepItem_moves : Moves R (stepItem cfg it) := by
  rw [stepItem]
  grind

end BpfEquiv
