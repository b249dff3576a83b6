import BpfEquiv.PtrHelper

/-!
The main loop of the executor.

An item is one work-list entry: program point, registers, memory, path
conditions, counters and call stack. One step executes one instruction of an item
and says how the path goes on, which items it queues and which paths it ends. The
machine over a work list of items is a small-step system, so that facts about
whole runs are proved by induction over its steps.
-/
namespace BpfEquiv
open Smt

/-- A callback helper in progress: iteration i of at most n. -/
structure CbFrame where
  hid : Int
  csec : String
  cidx : Int
  i : Nat
  n : Term (.bv 64)
  retSec : String
  retPc : Int
  callerRegs : Regs
  cbfid : Nat
  argCtx : Val
  argMap : Val
  mapname : String

inductive Frame where
  | sub (sec : String) (pc : Int) (regs : Regs)
  | cb (f : CbFrame)

structure Item where
  sec : String
  pc : Int
  regs : Regs
  mem : Mem
  conds : List (Term .bool)
  counters : Counters
  stack : List Frame

structure Path where
  conds : List (Term .bool)
  ret : Term (.bv 64)
  mem : Mem

/-- How a path goes on after one instruction. Without a next item the path is over,
or only its queued sides are alive. -/
structure StepOut where
  next : Option Item
  pushed : List Item
  ended : List Path

variable (cfg : Config) (it : Item) (f : CbFrame) (regs : Regs) (ins : Insn)

def feasible (conds : List (Term .bool)) : M Bool := do
  let q := (← get).exec.queries
  modifyExec fun e => { e with queries := q + 1 }
  pure (decide (cfg.z3.check q conds ≠ .unsat))

/-- The item as it stands with the current memory and counters. -/
def resume (it : Item) (sec : String) (pc : Int) (regs : Regs) (conds : List (Term .bool))
    (stack : List Frame) : M Item := do
  let s ← get
  pure { it with
    sec := sec, pc := pc, regs := regs, mem := s.mem, conds := conds,
    counters := s.counters, stack := stack }

def goOn (pc : Int) (regs : Regs) : M StepOut := do
  let next ← resume it it.sec pc regs it.conds it.stack
  pure ⟨some next, [], []⟩

def enter (sec : String) (pc : Int) (regs : Regs) (stack : List Frame) :
    M StepOut := do
  let next ← resume it sec pc regs it.conds stack
  pure ⟨some next, [], []⟩

def condList (c : Option (Term .bool)) : List (Term .bool) := c.toList

/-- Follows the first continuation and queues the others. -/
def forkConts (conts : List Cont) : M StepOut := do
  match conts with
  | [] => pure ⟨none, [], []⟩
  | (c, regs) :: rest => do
    let next ← resume it it.sec (it.pc + 1) regs (it.conds ++ condList c) it.stack
    let pushed ← rest.mapM fun (c', regs') =>
      resume it it.sec (it.pc + 1) regs' (it.conds ++ condList c') it.stack
    pure ⟨some next, pushed, []⟩

/-! Code. -/

def decodeM (sec : Section) : M (List (Option Insn)) :=
  match decode cfg.elf sec with
  | .ok insns => pure insns
  | .error msg => bail msg

def insnsOf (secname what : String) : M (List (Option Insn)) :=
  if secname = cfg.sec.name then decodeM cfg cfg.sec
  else
    match cfg.elf.sectionByName secname with
    | none => bail s!"call into non-code section {secname} in {what}"
    | some s =>
      if !s.isExec then bail s!"call into non-code section {secname} in {what}"
      else if !cfg.elf.coreApplied && cfg.elf.coreReloSections.contains secname then
        bail s!"callee section {secname} has CO-RE relocs in {what}"
      else decodeM cfg s

/-- Kernel-function name, if a call relocates against an undefined symbol. -/
def kfuncName : Option String :=
  match ins.reloc with
  | some rel => if rel.sym.shndx = 0 ∧ rel.sym.name ≠ "" then some rel.sym.name else none
  | none => none

def callTarget (sec : String) (pc : Int) (what : String) :
    M (String × Int) :=
  match ins.reloc with
  | none => pure (sec, pc + 1 + ins.imm)
  | some rel =>
    match (if rel.sym.shndx = 0 then none else cfg.elf.sections[rel.sym.shndx]?) with
    | none => bail s!"call to undefined symbol {rel.sym.name} in {what}"
    | some s =>
      if rel.sym.type ≠ sttFunc ∧ rel.sym.type ≠ sttSection then
        bail s!"call reloc to symbol type {rel.sym.type} in {what}"
      else pure (s.name, (rel.sym.value / 8 : Nat) + ins.imm + 1)

/-! Callbacks. -/

def hForEachMapElem : Int := 164
def hLoop : Int := 181
def hTimerSetCallback : Int := 170
def hTailCall : Int := 12

def cbTarget (v : Val) (what : String) : M (String × Int) :=
  match v with
  | .ptr ⟨.func secname idx, _⟩ => pure (secname, idx)
  | _ => bail s!"callback arg is not a function pointer in {what}"

/-- Registers for iteration i of a callback, with a fresh frame. -/
def cbIterRegs (i : Nat) : M Regs := do
  let blank : Regs := fun k =>
    if k = 10 then .ptr ⟨.stack cfg.tag (.cb f.cbfid), bv64 stackSize⟩
    else .data (.bvVar 64 s!"cbclobber_{cfg.tag}_{f.cbfid}_{i}_{k}")
  if f.hid = hLoop then
    pure ((((blank.set 1 (.data (zext64 (.bvVal (BitVec.ofNat 32 i))))).set 2 f.argCtx).set 3
      (.data (bv64 0))).set 4 (.data (bv64 0)))
  else if f.hid = hTimerSetCallback then do
    let kreg := Region.cbkey f.mapname f.cbfid 0
    let _ ← setdefaultShared kreg (.arrVar (initName kreg))
    pure ((((blank.set 1 f.argMap).set 2 (.ptr ⟨kreg, bv64 0⟩)).set 3
      (.ptr ⟨.mapval (.timer f.mapname f.cbfid), bv64 0⟩)).set 4 (.data (bv64 0)))
  else do
    let kreg := Region.cbkey f.mapname f.cbfid i
    let _ ← (match (← get).exec.sharedArr kreg with
      | some _ => regionArray cfg kreg
      | none => setdefaultShared kreg (.arrVar (initName kreg)))
    pure ((((blank.set 1 f.argMap).set 2 (.ptr ⟨kreg, bv64 0⟩)).set 3
      (.ptr ⟨.mapval (.cb f.mapname f.cbfid i), bv64 0⟩)).set 4 f.argCtx)

def nextCbframe : M Nat := do
  let fid := (← get).counters.cbframe + 1
  modifyCounters fun c => { c with cbframe := fid }
  pure fid

/-- nr_loops as the code reads it: the low half of r1. -/
def loopBound (nr : Term (.bv 64)) : Term (.bv 64) :=
  .zext 64 (lo32 (cfg.z3.simplify nr))

/-- First iteration of bpf_loop; none when the bound is a literal zero. -/
def loopStart (what : String) :
    M (Option CbFrame) :=
  match regs 1 with
  | .ptr _ => bail s!"bpf_loop nr is a pointer in {what}"
  | .data nr => do
    let n := loopBound cfg nr
    if n.value? = some 0 then
      emitEvent cfg f.hid (List.replicate 5 (byteVal 0))
      pure none
    else
      let traceN := match n.value? with
        | some x => x.toNat
        | none => 0xFFFFFFFF
      emitEvent cfg f.hid (byteVal 0 :: natBytes traceN 4)
      pure (some { f with n := n })

/-- First iteration of bpf_for_each_map_elem, bounded by the map's max_entries. -/
def forEachStart (what : String) :
    M (Option CbFrame) := do
  let mapname ← mapName (regs 1) what
  let d ← mapDef cfg mapname what
  match d.maxEntries with
  | none => bail s!"for_each map {mapname} has no max_entries in {what}"
  | some me =>
    if me = 0 then pure none
    else if me > maxCbIters then
      bail s!"for_each trip bound {me} > {maxCbIters} in {what}"
    else do
      let name := if mapname = "" then [byteVal 0] else nameBytes mapname
      emitEvent cfg f.hid (name ++ natBytes (me % 2 ^ 32) 4)
      pure (some { f with n := bv64 me, argMap := regs 1, mapname := mapname })

/-- Registration of a timer callback, run inline once up to a nesting limit. -/
def timerCbStart (what : String) :
    M (Option CbFrame) := do
  let slot ← slotKey cfg (regs 1) what
  match (← get).counters.timerMap slot with
  | none => bail s!"timer callback set on uninitialized slot {slot} in {what}"
  | some mapname => do
    let depth := (← get).counters.timerCbDepth
    let timer ← argIdBytes cfg (regs 1) what
    emitEvent cfg f.hid (timer ++ nameBytes mapname)
    if depth ≥ maxTimerCbDepth then pure none
    else do
      modifyCounters fun c => { c with timerCbDepth := depth + 1 }
      pure (some { f with n := bv64 1, argMap := .ptr ⟨.map mapname, bv64 0⟩, mapname := mapname })

/-- Sets up the first callback iteration of a call at a program point. -/
def cbStart (hid : Int) (retSec : String) (retPc : Int) (regs : Regs)
    (what : String) : M (Option (CbFrame × Regs)) := do
  let (csec, cidx) ← cbTarget (regs 2) what
  let cbfid ← nextCbframe
  let f : CbFrame := {
    hid := hid, csec := csec, cidx := cidx, i := 0, n := bv64 0, retSec := retSec,
    retPc := retPc, callerRegs := regs, cbfid := cbfid, argCtx := regs 3,
    argMap := .data (bv64 0), mapname := "" }
  let started ← (if hid = hTimerSetCallback then timerCbStart cfg f regs what
    else if hid = hLoop then loopStart cfg f regs what
    else forEachStart cfg f regs what)
  match started with
  | none => pure none
  | some f => do
    let cbregs ← cbIterRegs cfg f 0
    pure (some (f, cbregs))

/-! Instructions. -/

def stepLdImm64 (what : String) : M StepOut := do
  if ins.src ≠ 0 then bail s!"ld_imm64 pseudo src={ins.src} in {what}"
  let v ← resolveLd64 cfg ins
  goOn it (it.pc + 2) (it.regs.set ins.dst v)

def stepEndian (what : String) : M StepOut := do
  let v ← needData (it.regs ins.dst) what
  let t ← endianOp ins.op (ins.op % 8 = 7) v ins.imm what
  goOn it (it.pc + 1) (it.regs.set ins.dst (.data t))

/-- The source operand of an arithmetic or jump instruction: a register, or the
immediate sign-extended for 64-bit classes and zero-extended for 32-bit ones. -/
def operand (is64 : Bool) : Val :=
  if ins.op / 8 % 2 = 1 then regs ins.src
  else if is64 then .data (bv64 ins.imm)
  else .data (zext64 (.bvVal (BitVec.ofInt 32 ins.imm)))

def stepAlu (what : String) : M StepOut := do
  let is64 := ins.op % 8 = 7
  let code := ins.op / 16
  let srcv := if code = 8 then .data (bv64 0) else operand it.regs ins is64
  let v ← alu code is64 (it.regs ins.dst) srcv ins.off what
  goOn it (it.pc + 1) (it.regs.set ins.dst v)

def stepLdx (what : String) : M StepOut := do
  let mode := ins.op / 32
  let size := sizeOfOp ins.op
  let val ← load cfg (addrAdd (it.regs ins.src) ins.off) size
  if mode = 4 then
    let t ← needData val what
    let v : Term (.bv 64) := .sext 64 (.extract 0 (8 * size.bytes) t)
    goOn it (it.pc + 1) (it.regs.set ins.dst (.data v))
  else if mode ≠ 3 then bail s!"LDX mode {mode} in {what}"
  else goOn it (it.pc + 1) (it.regs.set ins.dst val)

def stepStore (what : String) : M StepOut := do
  let mode := ins.op / 32
  let cls := ins.op % 8
  if mode = 6 then
    if cls ≠ 3 then bail s!"atomic ST in {what}"
    let regs ← atomic cfg ins it.regs what
    goOn it (it.pc + 1) regs
  else if mode ≠ 3 then bail s!"store mode {mode} in {what}"
  else
    let val := if cls = 2 then .data (bv64 ins.imm) else it.regs ins.src
    store cfg (addrAdd (it.regs ins.dst) ins.off) (sizeOfOp ins.op) val
    goOn it (it.pc + 1) it.regs

/-! Calls. -/

def nextFrame : M Nat := do
  let fid := (← get).counters.frame + 1
  modifyCounters fun c => { c with frame := fid }
  pure fid

/-- Unwinds every frame and transfers to the exception callback, or ends the path
with the cookie. -/
def stepThrow (what : String) : M StepOut := do
  let cookie ← needData (it.regs 1) what
  match ← exceptionCb cfg what with
  | none => do
    let s ← get
    pure ⟨none, [], [⟨it.conds, cookie, s.mem⟩]⟩
  | some (tsec, tidx) => do
    let _ ← insnsOf cfg tsec what
    let fid ← nextFrame
    let regs ← retClobbered cfg it.regs (.data (bv64 0))
    enter it tsec tidx ((regs.set 1 (.data cookie)).set 10
      (.ptr ⟨.stack cfg.tag (.sub fid), bv64 stackSize⟩)) []

/-- A call between BPF functions, executed inline in a frame of its own. -/
def stepSubprog (what : String) : M StepOut := do
  if it.stack.length ≥ maxCallDepth then bail s!"call depth > {maxCallDepth} in {what}"
  let (tsec, tidx) ← callTarget cfg ins it.sec it.pc what
  let _ ← insnsOf cfg tsec what
  let fid ← nextFrame
  enter it tsec tidx (it.regs.set 10 (.ptr ⟨.stack cfg.tag (.sub fid), bv64 stackSize⟩))
    (.sub it.sec (it.pc + 1) it.regs :: it.stack)

def tailCallSucc (idx : Nat) : Term .bool := .pred "oracle_tailcall_succ" (bv64 idx)

def tailCallRet (idx : Nat) : Term (.bv 64) := .app "oracle_tailcall_ret" (bv64 idx)

/-- Records a tail call and gives its number on the path. -/
def tailCallEvent (what : String) : M Nat := do
  let idx ← nextCall hTailCall
  let mname ← mapName (it.regs 2) what
  let index ← needData (it.regs 3) what
  let bs ← valBytes (.data (zext64 (lo32 index))) 4 what
  emitEvent cfg hTailCall (nameBytes mname ++ bs)
  pure idx

/-- Success ends the path with the target's return value; failure goes on. -/
def stepTailCall (what : String) : M StepOut := do
  let idx ← tailCallEvent cfg it what
  let mem := (← get).mem
  let regs ← retClobbered cfg it.regs (.data (errnoOracle hTailCall idx))
  let next ← resume it it.sec (it.pc + 1) regs (it.conds ++ [.not (tailCallSucc idx)]) it.stack
  pure ⟨some next, [], [⟨it.conds ++ [tailCallSucc idx], tailCallRet idx, mem⟩]⟩

/-- Enters a callback, or skips it when the bound is zero. -/
def stepCallback (what : String) : M StepOut := do
  if it.stack.length ≥ maxCallDepth then bail s!"callback depth > {maxCallDepth} in {what}"
  match ← cbStart cfg ins.imm it.sec (it.pc + 1) it.regs what with
  | none => do
    let regs ← retClobbered cfg it.regs (.data (bv64 0))
    goOn it (it.pc + 1) regs
  | some (f, cbregs) => do
    let enterC := cfg.z3.simplify (.rel .ugt f.n (bv64 0))
    let skipC := cfg.z3.simplify (.rel .eq f.n (bv64 0))
    let skips ← (if skipC.isFalse then pure false else feasible cfg (it.conds ++ [skipC]))
    let pushed ← (if skips then do
        let regs ← retClobbered cfg it.regs (.data (bv64 0))
        let skip ← resume it it.sec (it.pc + 1) regs (it.conds ++ [skipC]) it.stack
        pure [skip]
      else pure [])
    if ← feasible cfg (it.conds ++ [enterC]) then do
      let conds := if enterC.isTrue then it.conds else it.conds ++ [enterC]
      let _ ← insnsOf cfg f.csec what
      let next ← resume it f.csec f.cidx cbregs conds (.cb f :: it.stack)
      pure ⟨some next, pushed, []⟩
    else pure ⟨none, pushed, []⟩

def stepHelper (what : String) : M StepOut := do
  if ins.imm = hTailCall then stepTailCall cfg it what
  else if ins.imm = hForEachMapElem ∨ ins.imm = hLoop then stepCallback cfg it ins what
  else if isPtrHelper ins.imm then do
    let conts ← ptrHelper cfg ins.imm it.regs what
    forkConts it conts
  else do
    let regs ← helperCall cfg ins.imm it.regs what
    goOn it (it.pc + 1) regs

def stepCall (what : String) : M StepOut :=
  match (if ins.src = 1 ∨ ins.src = 2 then kfuncName ins else none) with
  | some kname =>
    if kname = "bpf_throw" then stepThrow cfg it what
    else do
      let conts ← kfuncCall cfg kname it.regs what
      forkConts it conts
  | none =>
    if ins.src = 1 then stepSubprog cfg it ins what
    else if ins.src = 2 then bail s!"kfunc call without symbol in {what}"
    else stepHelper cfg it ins what

/-! Exits. -/

/-- End of a callback iteration: stop with the number of iterations done, or run the
next one. -/
def stepCbExit (rest : List Frame) (what : String) :
    M StepOut := do
  let r0 ← needData (it.regs 0) what
  let nextI := f.i + 1
  let moreC := cfg.z3.simplify (.rel .ugt f.n (bv64 nextI))
  let contC := cfg.z3.simplify (.and moreC (.rel .eq r0 (bv64 0)))
  let stopC := cfg.z3.simplify (.or (.rel .ule f.n (bv64 nextI)) (.rel .ne r0 (bv64 0)))
  let stops ← (if stopC.isFalse then pure false else feasible cfg (it.conds ++ [stopC]))
  let pushed ← (if stops then do
      let regs ← retClobbered cfg f.callerRegs (.data (bv64 nextI))
      let stop ← resume it f.retSec f.retPc regs (it.conds ++ [stopC]) rest
      pure [stop]
    else pure [])
  let goes ← (if contC.isFalse then pure false else feasible cfg (it.conds ++ [contC]))
  if !goes then pure ⟨none, pushed, []⟩
  else if nextI ≥ maxCbIters then
    bail s!"callback exceeded {maxCbIters} iterations in {what}"
  else do
    let f' := { f with i := nextI }
    let regs ← cbIterRegs cfg f' nextI
    let _ ← insnsOf cfg f.csec what
    let next ← resume it f.csec f.cidx regs (it.conds ++ [contC]) (.cb f' :: rest)
    pure ⟨some next, pushed, []⟩

def stepExit (what : String) : M StepOut :=
  match it.stack with
  | .cb f :: rest => stepCbExit cfg it f rest what
  | .sub sec pc callerRegs :: rest =>
    if sec = "__cb" then crash "IndexError: tuple index out of range"
    else do
      let _ ← insnsOf cfg sec what
      enter it sec pc (callerRegs.set 0 (it.regs 0)) rest
  | [] => do
    let ret ← needData (it.regs 0) what
    let s ← get
    pure ⟨none, [], [⟨it.conds, ret, s.mem⟩]⟩

/-! Jumps. -/

def stepCondJump (what : String) : M StepOut := do
  let cls := ins.op % 8
  let raw ← cond (ins.op / 16) (cls = 6) (it.regs ins.dst) (operand it.regs ins (cls = 5)) what
  let c := cfg.z3.simplify raw
  let taken := it.pc + 1 + ins.off
  if c.isTrue then goOn it taken it.regs
  else if c.isFalse then goOn it (it.pc + 1) it.regs
  else do
    let takes ← feasible cfg (it.conds ++ [c])
    let pushed ← (if takes then do
        let side ← resume it it.sec taken it.regs (it.conds ++ [c]) it.stack
        pure [side]
      else pure [])
    if ← feasible cfg (it.conds ++ [.not c]) then do
      let next ← resume it it.sec (it.pc + 1) it.regs (it.conds ++ [.not c]) it.stack
      pure ⟨some next, pushed, []⟩
    else pure ⟨none, pushed, []⟩

def stepJmp (what : String) : M StepOut :=
  let code := ins.op / 16
  if code = 8 then stepCall cfg it ins what
  else if code = 9 then stepExit cfg it what
  else if code = 0 then
    goOn it (it.pc + 1 + (if ins.op % 8 = 6 then ins.imm else ins.off)) it.regs
  else if code = 14 then goOn it (it.pc + 1) it.regs
  else stepCondJump cfg it ins what

def stepInsn (what : String) : M StepOut :=
  let cls := ins.op % 8
  if ins.dst > 10 ∨ ins.src > 10 then bail s!"stack-argument register r11 in {what}"
  else if ins.op = 0x18 then stepLdImm64 cfg it ins what
  else if (cls = 4 ∨ cls = 7) ∧ ins.op / 16 = 13 then stepEndian it ins what
  else if cls = 4 ∨ cls = 7 then stepAlu it ins what
  else if cls = 1 then stepLdx cfg it ins what
  else if cls = 2 ∨ cls = 3 then stepStore cfg it ins what
  else if cls = 5 ∨ cls = 6 then stepJmp cfg it ins what
  else
    let op := pyHex ins.op
    bail s!"opcode {op} in {what}"

def Item.what : String := s!"{it.sec}@{it.pc}"

def fetch : M Insn := do
  let insns ← insnsOf cfg it.sec "resume"
  match (if it.pc < 0 then none else insns[it.pc.toNat]?) with
  | some (some ins) =>
    match cfg.elf.corePoison it.sec it.pc with
    | some reason => bail s!"core-poison at {it.sec}@{it.pc}: {reason}"
    | none => pure ins
  | _ => bail s!"jump to invalid pc {it.sec}@{it.pc}"

def stepItem : M StepOut := do
  let ins ← fetch cfg it
  stepInsn cfg it ins it.what

def step (cfg : Config) (it : Item) (exec : Exec) : Except Err (StepOut × Exec) :=
  match (stepItem cfg it).run ⟨it.mem, it.counters, exec⟩ with
  | .ok (out, s) => .ok (out, s.exec)
  | .error e => .error e

/-! The work list. -/

/-- State of the main loop: the queued items with the next one first, the item being
executed with the number of its instructions so far, the finished paths. -/
structure Run where
  work : List Item
  cur : Option (Item × Nat)
  paths : List Path
  exec : Exec

inductive Progress where
  | running (r : Run)
  | returned (paths : List Path) (exec : Exec)

def Run.next (cfg : Config) (r : Run) : Except Err Progress :=
  match r.cur with
  | some (it, steps) =>
    if steps + 1 > maxInsnsPerPath then .error (.bail "path too long (loop?)")
    else
      match step cfg it r.exec with
      | .error e => .error e
      | .ok (out, exec) => .ok (.running {
          work := out.pushed.reverse ++ r.work
          cur := out.next.map fun it' => (it', steps + 1)
          paths := r.paths ++ out.ended
          exec := exec })
  | none =>
    match r.work with
    | [] =>
      if r.paths.isEmpty then .error (.bail "no feasible paths")
      else .ok (.returned r.paths r.exec)
    | it :: rest =>
      if r.paths.length + r.work.length > maxPaths then
        .error (.bail "path explosion (> MAX_PATHS)")
      else
        match (insnsOf cfg it.sec "resume").run ⟨it.mem, it.counters, r.exec⟩ with
        | .error e => .error e
        | .ok _ => .ok (.running { r with work := rest, cur := some (it, 0) })

theorem Run.next_running {cfg : Config} {r r' : Run} (h : r.next cfg = .ok (.running r')) :
    (∃ it steps out exec, r.cur = some (it, steps) ∧ steps < maxInsnsPerPath ∧
      step cfg it r.exec = .ok (out, exec) ∧
      r' = ⟨out.pushed.reverse ++ r.work, out.next.map (·, steps + 1),
        r.paths ++ out.ended, exec⟩) ∨
    ∃ it rest, r.cur = none ∧ r.work = it :: rest ∧ r.paths.length + r.work.length ≤ maxPaths ∧
      r' = { r with work := rest, cur := some (it, 0) } := by
  simp only [Run.next] at h
  repeat' split at h
  all_goals cases h
  · exact .inl ⟨_, _, _, _, ‹_›, by omega, ‹_›, rfl⟩
  · exact .inr ⟨_, _, ‹_›, ‹_›, by omega, rfl⟩

theorem Run.next_returned {cfg : Config} {r : Run} {paths : List Path} {exec : Exec}
    (h : r.next cfg = .ok (.returned paths exec)) :
    r.cur = none ∧ r.work = [] ∧ r.paths = paths ∧ r.exec = exec := by
  simp only [Run.next] at h
  repeat' split at h
  all_goals cases h
  exact ⟨‹_›, ‹_›, rfl, rfl⟩

/-- At most fuel steps of the main loop; none when they were not enough. -/
def Run.exec? (cfg : Config) : Nat → Run → Option (Except Err (List Path × Exec))
  | 0, _ => none
  | fuel + 1, r =>
    match r.next cfg with
    | .error e => some (.error e)
    | .ok (.returned paths exec) => some (.ok (paths, exec))
    | .ok (.running r') => r'.exec? cfg fuel

/-- What every step keeps holds of the state from which a run returns. -/
theorem Run.exec?_returned {cfg : Config} (Inv : Run → Prop)
    (kept : ∀ r r', Inv r → r.next cfg = .ok (.running r') → Inv r') {paths : List Path}
    {exec : Exec} {fuel : Nat} {r : Run} (start : Inv r)
    (h : r.exec? cfg fuel = some (.ok (paths, exec))) :
    ∃ r', Inv r' ∧ r'.next cfg = .ok (.returned paths exec) := by
  induction fuel generalizing r with
  | zero => cases h
  | succ fuel ih =>
    simp only [Run.exec?] at h
    split at h
    · cases h
    · rename_i next
      cases h
      exact ⟨r, start, next⟩
    · next next => exact ih (kept _ _ start next) h

def initRegs (callback : Bool) : Regs := fun i =>
  if i = 10 then .ptr ⟨.stack cfg.tag .main, bv64 stackSize⟩
  else if callback = true ∧ 1 ≤ i ∧ i ≤ 5 then .ptr ⟨.cbarg i, bv64 0⟩
  else if callback = false ∧ i = 1 then .ptr ⟨.ctx, bv64 0⟩
  else .data (.bvVar 64 s!"uninit_{cfg.tag}_r{i}")

/-- Argument regions of a registered callback, shared by position. -/
def addCbargs (exec : Exec) : Nat → Exec
  | 0 => exec
  | i + 1 =>
    let exec := addCbargs exec i
    let reg := Region.cbarg (i + 1)
    match exec.sharedArr reg with
    | some _ => exec
    | none => { exec with shared := exec.shared ++ [(reg, .arrVar (initName reg))] }

def initItem (entryPc : Int) (callback : Bool) : Item where
  sec := cfg.sec.name
  pc := entryPc
  regs := initRegs cfg callback
  mem := .empty
  conds := []
  counters := .zero
  stack := []

def initRun (exec : Exec) (entryPc : Int) (callback : Bool) : Run where
  work := [initItem cfg entryPc callback]
  cur := none
  paths := []
  exec := if callback then addCbargs exec 5 else exec

def withEntry (entryPc : Int) : Config :=
  { cfg with entryFunc := (cfg.elf.namedSymbolAt cfg.sec.idx (entryPc * 8)).map (·.name) }

def run (cfg : Config) (exec : Exec) (entryPc : Int) (callback : Bool) (fuel : Nat) :
    Option (Except Err (List Path × Exec)) :=
  (initRun cfg exec entryPc callback).exec? (withEntry cfg entryPc) fuel

end BpfEquiv
