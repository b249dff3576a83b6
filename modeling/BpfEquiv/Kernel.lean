import BpfEquiv.CallSpec
import BpfEquiv.Follow
import BpfEquiv.Operators

/-!
Calls, returns and tail calls as the kernel has them.

A call of a BPF function opens a frame, and the exit of the function takes its caller up
behind the call. A successful tail call replaces the current frame only: what the target
returns is what the function returns. A callback helper runs its callback in a frame of its
own, once for each iteration, and each return of the callback ends the loop or begins the next
iteration. How many iterations there are is left open. All other instructions are the
executor's.
-/
namespace BpfEquiv
open Smt Hoare List Bool Option BitVec

variable {f : CbFrame} {sec : String} {pc : Int} {regs : Regs} {conds : Conds}
  {stack rest : List Frame}

/-! Instructions. -/

def Insn.isCallOp (ins : Insn) : Bool :=
  decide (ins.dst ≤ 10 ∧ ins.src ≤ 10 ∧ (ins.op % 8 = 5 ∨ ins.op % 8 = 6) ∧ ins.op / 16 = 8)

/-- A call of another BPF function. -/
def Insn.isSubprog (ins : Insn) : Bool :=
  ins.isCallOp && decide (ins.src = 1 ∧ kfuncName ins = none)

def Insn.isHelper (ins : Insn) : Bool := ins.isCallOp && decide (ins.src ≠ 1 ∧ ins.src ≠ 2)

def Insn.isTailCall (ins : Insn) : Bool := ins.isHelper && decide (ins.imm = hTailCall)

def Insn.isCallback (ins : Insn) : Bool :=
  ins.isHelper && decide (ins.imm = hForEachMapElem ∨ ins.imm = hLoop)

def Insn.isExit (ins : Insn) : Bool :=
  decide (ins.dst ≤ 10 ∧ ins.src ≤ 10 ∧ (ins.op % 8 = 5 ∨ ins.op % 8 = 6) ∧ ins.op / 16 = 9)

/-! Frames and iterations. -/

/-- What a callback helper does next. -/
inductive CbMove where
  | enter (i : Nat)
  | leave (r0 : Int)
  deriving DecidableEq

/-- After iteration i returned: a value other than zero or the last iteration ends the
loop, and the helper returns the number of iterations done. -/
def cbNext (count i : Nat) (ret : BitVec 64) : CbMove :=
  if ret ≠ 0 ∨ count ≤ i + 1 then .leave (i + 1 : Nat) else .enter (i + 1)

def mapOf : Val → String
  | .ptr ⟨.map name, _⟩ => name
  | _ => ""

/-- The registers with which iteration i of a callback starts, in a frame of its own: the index
and the context for bpf_loop, and else the map, the key and the value of element i and the
context. The other registers hold unknowns. -/
def callbackRegs (cfg : Config) (f : CbFrame) (i : Nat) : Regs :=
  let open' : Regs := fun k =>
    if k = 10 then .ptr ⟨.stack cfg.tag (.cb f.cbfid), bv64 stackSize⟩
    else .data (.bvVar 64 s!"cbclobber_{cfg.tag}_{f.cbfid}_{i}_{k}")
  let zero : Val := .data (bv64 0)
  let name := mapOf (f.callerRegs 1)
  if f.hid = hLoop then
    (((open'.set 1 (.data (zext64 (.bvVal (BitVec.ofNat 32 i))))).set 2 (f.callerRegs 3)).set 3
      zero).set 4 zero
  else
    (((open'.set 1 (f.callerRegs 1)).set 2 (.ptr ⟨.cbkey name f.cbfid i, bv64 0⟩)).set 3
      (.ptr ⟨.mapval (.cb name f.cbfid i), bv64 0⟩)).set 4 (f.callerRegs 3)

/-- How often a semantics runs a callback: what the call of a helper does first, with the frame
the executor would open, and the number of iterations of a helper in progress. -/
structure CbRule where
  first : Item → Int → Option CbFrame → CbMove
  count : CbFrame → Nat
  same : ∀ f i, count { f with i := i } = count f

section Rules
variable (cfg : Config) (σ : Assignment) (rule : CbRule) (it : Item)

/-- A function returns a value. The key of the next element comes up in memory as in the
executor, and the clobbered registers have its names. -/
def kernelReturn (v : Val) : M StepOut :=
  match it.stack with
  | .sub sec pc regs :: rest => enter it sec pc (regs.set 0 v) rest
  | .cb f :: rest => do
    let ret ← needData v it.what
    match cbNext (rule.count f) f.i (ret.eval σ) with
    | .enter i => do
      let _ ← cbIterRegs cfg { f with i := i } i
      enter it f.csec f.cidx (callbackRegs cfg f i) (.cb { f with i := i } :: rest)
    | .leave r0 => do
      let regs ← retClobbered cfg f.callerRegs (.data (bv64 r0))
      enter it f.retSec f.retPc regs rest
  | [] => do
    let ret ← needData v it.what
    let s ← get
    pure ⟨none, [], [⟨it.conds, ret, s.mem⟩]⟩

/-- A call of a BPF function, with the caller's registers and a frame of its own. -/
def kernelCall (ins : Insn) : M StepOut :=
  match cfg.elf.linkedCallee ins it.sec it.pc with
  | none => bail "no callee"
  | some (sec, pc) => do
    let number := it.counters.frame + 1
    modifyCounters fun c => { c with frame := number }
    enter it sec pc (it.regs.set 10 (.ptr ⟨.stack cfg.tag (.sub number), bv64 stackSize⟩))
      (.sub it.sec (it.pc + 1) it.regs :: it.stack)

/-- A tail call, recorded as in the executor: the function returns what the target returns, or
goes on with an error. -/
def kernelTail : M StepOut := do
  let idx ← tailCallEvent cfg it it.what
  if (tailCallSucc idx).eval σ then kernelReturn cfg σ rule it (.data (tailCallRet idx))
  else do
    let regs ← retClobbered cfg it.regs (.data (errnoOracle hTailCall idx))
    enter it it.sec (it.pc + 1) regs it.stack

/-- A call of a callback helper. The record of the call and the number of its frame are the
executor's. -/
def kernelCallback (ins : Insn) : M StepOut := do
  let started ← cbStart cfg ins.imm it.sec (it.pc + 1) it.regs it.what
  match rule.first it ins.imm (started.map (·.1)), started, it.regs 2 with
  | .leave r0, _, _ => do
    let regs ← retClobbered cfg it.regs (.data (bv64 r0))
    enter it it.sec (it.pc + 1) regs it.stack
  | .enter i, some (g, _), .ptr ⟨.func csec cidx, _⟩ =>
    let f := { g with
      hid := ins.imm, csec := csec, cidx := cidx, i := i, retSec := it.sec, retPc := it.pc + 1,
      callerRegs := it.regs, cbfid := it.counters.cbframe + 1 }
    enter it csec cidx (callbackRegs cfg f i) (.cb f :: it.stack)
  | _, _, _ => bail "no first iteration"

def kernelInsn (ins : Insn) : M StepOut :=
  if ins.isCallback then kernelCallback cfg rule it ins
  else if ins.isExit then kernelReturn cfg σ rule it (it.regs 0)
  else if ins.isTailCall then kernelTail cfg σ rule it
  else if ins.isSubprog then kernelCall cfg it ins
  else stepInsn cfg it ins it.what

end Rules

/-- The kernel's semantics, up to the number of iterations of a callback. -/
def kernelStep (cfg : Config) (σ : Assignment) (rule : CbRule) : Semantics := fun it exec =>
  match it.insnAt cfg with
  | none => .error (.bail "no instruction")
  | some ins =>
    ((kernelInsn cfg σ rule it ins).run ⟨it.mem, it.counters, exec⟩).map fun r => (r.1, r.2.exec)

/-- The oracle's answer to the tail call at an item. -/
def Item.tailSucceeds (σ : Assignment) (it : Item) : Bool :=
  (tailCallSucc (it.counters.calls hTailCall)).eval σ

/-- No tail call that is made inside a frame succeeds. -/
def FailingTails (cfg : Config) (σ : Assignment) (rule : CbRule) (start : Item) : Prop :=
  ∀ it ins, Reached (kernelStep cfg σ rule) σ start it → it.insnAt cfg = some ins →
    ins.isTailCall = true → it.stack ≠ [] → it.tailSucceeds σ = false

/-! The executor's dispatch. -/

variable {cfg : Config} {σ : Assignment} {rule : CbRule} {start it next : Item} {ins : Insn}
  {out : StepOut} {exec exec' : Exec} {s s' : St} {what : String}

theorem enter_returns (h : Returns (enter it sec pc regs stack) s out s') :
    out = ⟨some ⟨sec, pc, regs, s.mem, it.conds, s.counters, stack⟩, [], []⟩ ∧ s = s' := by
  obtain ⟨next, _, resumed, rest⟩ := h.bind
  obtain ⟨rfl, rfl⟩ := resume_returns resumed
  obtain ⟨rfl, rfl⟩ := rest.pure
  exact ⟨rfl, rfl⟩

/-- What the executor knows of a call before the first iteration. -/
structure StartedAs (cfg : Config) (σ : Assignment) (hid : Int) (sec : String) (pc : Int)
    (regs : Regs) (what : String) (number : Nat) (f : CbFrame) : Prop where
  helper : f.hid = hid
  first : f.i = 0
  caller : f.callerRegs = regs
  numbered : f.cbfid = number
  back : f.retSec = sec ∧ f.retPc = pc
  target : ∃ off, regs 2 = .ptr ⟨.func f.csec f.cidx, off⟩
  ctx : f.argCtx = regs 3
  loop : hid = hLoop → (f.n.eval σ).toNat = ((regs 1).scalar σ).toNat % 2 ^ 32
  each : hid ≠ hLoop → f.argMap = regs 1 ∧ f.mapname = mapOf (regs 1) ∧ ∃ s d s' me,
    Returns (mapDef cfg (mapOf (regs 1)) what) s d s' ∧ d.maxEntries = some me ∧
      (f.n.eval σ).toNat = me

/-- The call does nothing: its bound is zero. -/
structure SkippedAs (cfg : Config) (σ : Assignment) (hid : Int) (regs : Regs) (what : String) :
    Prop where
  loop : hid = hLoop → ((regs 1).scalar σ).toNat % 2 ^ 32 = 0
  each : hid ≠ hLoop → ∃ s d s', Returns (mapDef cfg (mapOf (regs 1)) what) s d s' ∧
    d.maxEntries = some 0

/-- The rule begins a call as the executor's bound says. -/
structure CbRule.Fits (rule : CbRule) (cfg : Config) (σ : Assignment) (it : Item) (hid : Int) :
    Prop where
  skipped : SkippedAs cfg σ hid it.regs it.what → rule.first it hid none = .leave 0
  started : ∀ f, StartedAs cfg σ hid it.sec (it.pc + 1) it.regs it.what
    (it.counters.cbframe + 1) f → (f.n.eval σ).toNat = rule.count f ∧
      rule.first it hid (some f) = if (f.n.eval σ).toNat = 0 then .leave 0 else .enter 0

def FittingCalls (cfg : Config) (σ : Assignment) (rule : CbRule) (start : Item) : Prop :=
  ∀ it ins, Reached (kernelStep cfg σ rule) σ start it → it.insnAt cfg = some ins →
    ins.isCallback = true → rule.Fits cfg σ it ins.imm

/-- The frame of the first iteration. -/
theorem StartedAs.frame {hid : Int} {number : Nat}
    (h : StartedAs cfg σ hid sec pc regs what number f) :
    { f with
      hid := hid, i := 0, retSec := sec, retPc := pc, callerRegs := regs, cbfid := number } = f := by
  obtain ⟨rfl, first, rfl, rfl, ⟨rfl, rfl⟩, _⟩ := h
  rw [← first]

theorem kernelStep_returns (h : kernelStep cfg σ rule it exec = .ok (out, exec')) :
    ∃ ins s, it.insnAt cfg = some ins ∧
      Returns (kernelInsn cfg σ rule it ins) ⟨it.mem, it.counters, exec⟩ out s := by
  unfold kernelStep at h
  split at h
  · cases h
  · rename_i ins found
    cases ran : (kernelInsn cfg σ rule it ins).run ⟨it.mem, it.counters, exec⟩ with
    | error e =>
      rw [ran] at h
      cases h
    | ok r =>
      rw [ran] at h
      cases h
      exact ⟨ins, r.2, found, ran⟩

end BpfEquiv
