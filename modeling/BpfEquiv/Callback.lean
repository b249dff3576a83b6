import BpfEquiv.Kernel

/-!
Callback helpers against their contract in the kernel.

The contract decides how many iterations of a callback there are and what the helper
returns. The executor decides the same by forking on the bound and on what the callback
returned. The two agree on the calls without flags, with a bound the kernel accepts, over
maps that hold as many elements as they can.
-/
namespace BpfEquiv
open Smt Hoare List Option

/-! The contract. -/

def maxLoops : Nat := 8 * 1024 * 1024

/-- At the call: -EINVAL on flags, -E2BIG on too many iterations of bpf_loop. -/
def cbBegin (hid : Int) (flags : Bool) (count : Nat) : CbMove :=
  if flags then .leave (-22)
  else if hid = hLoop ∧ count > maxLoops then .leave (-7)
  else if count = 0 then .leave 0
  else .enter 0

/-- Elements a map holds when the callback helper of a given number iterates over it. -/
abbrev Elements := String → Nat → Nat

/-- No pointer is NULL. -/
def flagged (σ : Assignment) : Val → Bool
  | .data t => decide (t.eval σ ≠ 0)
  | .ptr _ => true

/-- How many iterations there are: nr_loops, or the elements the map holds. -/
def cbCount (w : Elements) (σ : Assignment) (hid : Int) (regs : Regs) (number : Nat) : Nat :=
  if hid = hLoop then ((regs 1).scalar σ).toNat % 2 ^ 32 else w (mapOf (regs 1)) number

def Item.count (w : Elements) (σ : Assignment) (it : Item) (hid : Int) : Nat :=
  cbCount w σ hid it.regs (it.counters.cbframe + 1)

/-- The contract looks at the registers of the call alone. -/
def contract (w : Elements) (σ : Assignment) : CbRule where
  first it hid _ := cbBegin hid (flagged σ (it.regs 4)) (it.count w σ hid)
  count f := cbCount w σ f.hid f.callerRegs f.cbfid
  same _ _ := rfl

/-- A call without flags, with a bound the kernel accepts, over a full map. -/
structure PlainCall (cfg : Config) (w : Elements) (σ : Assignment) (it : Item) (hid : Int) :
    Prop where
  flags : flagged σ (it.regs 4) = false
  loops : hid = hLoop → it.count w σ hid ≤ maxLoops
  full : hid ≠ hLoop → ∀ s d s', Returns (mapDef cfg (mapOf (it.regs 1)) it.what) s d s' →
    d.maxEntries = some (it.count w σ hid)

/-- All calls of callback helpers are plain, and no tail call inside a frame succeeds. -/
structure PlainCalls (cfg : Config) (w : Elements) (σ : Assignment) (start : Item) : Prop where
  calls : ∀ it ins, Reached (kernelStep cfg σ (contract w σ)) σ start it →
    it.insnAt cfg = some ins → ins.isCallback = true → PlainCall cfg w σ it ins.imm
  tails : FailingTails cfg σ (contract w σ) start

variable {cfg : Config} {w : Elements} {σ : Assignment} {start it next : Item} {ins : Insn}
  {out : StepOut} {exec exec' : Exec} {s s' : St} {what : String} {hid : Int} {f : CbFrame}

theorem StartedAs.count {sec : String} {pc : Int}
    (h : StartedAs cfg σ hid sec pc it.regs it.what (it.counters.cbframe + 1) f)
    (plain : PlainCall cfg w σ it hid) :
    (f.n.eval σ).toNat = it.count w σ hid ∧ (contract w σ).count f = it.count w σ hid := by
  constructor
  · by_cases loop : hid = hLoop
    · rw [h.loop loop, Item.count, cbCount, if_pos loop]
    · obtain ⟨_, _, t, d, t', me, defined, entries, bound⟩ := h.each loop
      rw [bound]
      exact Option.some.inj (entries.symm.trans (plain.full loop t d t' defined))
  · have same : (contract w σ).count f = cbCount w σ f.hid f.callerRegs f.cbfid := rfl
    rw [same, Item.count, h.helper, h.caller, h.numbered]

theorem SkippedAs.count (h : SkippedAs cfg σ hid it.regs it.what)
    (plain : PlainCall cfg w σ it hid) : it.count w σ hid = 0 := by
  by_cases loop : hid = hLoop
  · rw [Item.count, cbCount, if_pos loop, h.loop loop]
  · obtain ⟨t, d, t', defined, entries⟩ := h.each loop
    exact Option.some.inj ((plain.full loop t d t' defined).symm.trans entries)

theorem PlainCall.begin (plain : PlainCall cfg w σ it hid) :
    cbBegin hid (flagged σ (it.regs 4)) (it.count w σ hid) =
      if it.count w σ hid = 0 then .leave 0 else .enter 0 := by
  rw [cbBegin, plain.flags, if_neg Bool.false_ne_true, if_neg]
  rintro ⟨loop, many⟩
  exact Nat.not_le_of_lt many (plain.loops loop)

theorem PlainCalls.fits (plain : PlainCalls cfg w σ start) :
    FittingCalls cfg σ (contract w σ) start := by
  intro it ins reached found calls
  have call := plain.calls it ins reached found calls
  refine ⟨fun skipped => ?_, fun f started => ?_⟩
  · exact call.begin.trans (if_pos (skipped.count call))
  · obtain ⟨bound, same⟩ := started.count call
    rw [bound]
    exact ⟨same.symm, call.begin⟩

/-- Calls bpf_loop with one iteration and without flags. The callback is the end of the
program: it returns zero. -/
def plainWords : List Word :=
  [word 0xb7 1 0 0 1, word 0x18 2 0 0 0, word 0 0 0 0 0, word 0x85 0 0 0 181, word 0xb7 0 0 0 0,
    word 0x95 0 0 0 0]

def callbackSymbol : Symbol := symbolAt "cb" sttFunc 1 32

def plainCallConfig : Config :=
  withEntry (executor plainTables (fun _ => none)
    (objectSide (object "sk" plainWords [(1, callbackSymbol)] [] none) "sk" plainWords) "A") 0

def plainInsn (pc : Int) : Option Insn :=
  { initItem plainCallConfig 0 false with pc := pc }.insnAt plainCallConfig

theorem plainInsn_slots :
    plainInsn 0 = some ⟨0xb7, 1, 0, 0, 1, none, 1⟩ ∧
      plainInsn 1 = some ⟨0x18, 2, 0, 0, 0, some ⟨callbackSymbol⟩, 0⟩ ∧
      plainInsn 3 = some ⟨0x85, 0, 0, 0, 181, none, 181⟩ ∧
      plainInsn 4 = some ⟨0xb7, 0, 0, 0, 0, none, 0⟩ ∧
      plainInsn 5 = some ⟨0x95, 0, 0, 0, 0, none, 0⟩ := by
  decide +kernel

/-- Where an execution of the program is, and what it has set up for the call by then. -/
structure PlainAt (it : Item) : Prop where
  sec : it.sec = "sk"
  frames : ∀ frame ∈ it.stack, ∃ f, frame = .cb f ∧ f.csec = "sk" ∧ f.cidx = 4 ∧ f.retSec = "sk" ∧
    f.retPc = 4
  point : it.pc = 0 ∧ it.regs 4 = initRegs plainCallConfig false 4 ∨
    it.pc = 1 ∧ it.regs 4 = initRegs plainCallConfig false 4 ∧ it.regs 1 = .data (bv64 1) ∨
    it.pc = 3 ∧ it.regs 4 = initRegs plainCallConfig false 4 ∧ it.regs 1 = .data (bv64 1) ∧
      it.regs 2 = .ptr ⟨.func "sk" 4, bv64 0⟩ ∨
    it.pc = 4 ∨ it.pc = 5

theorem PlainAt.insn {pc : Int} (h : PlainAt it) (here : it.pc = pc)
    (found : plainInsn pc = some ins) :
    it.insnAt plainCallConfig = some ins :=
  insnAt_congr h.sec here found

theorem mov_items {dst : Nat} {imm : Int} {imm64 : Nat} {rule : CbRule} (small : dst ≤ 10)
    (h : Returns (kernelInsn cfg σ rule it ⟨0xb7, dst, 0, 0, imm, none, imm64⟩)
      ⟨it.mem, it.counters, exec⟩ out s') (member : next ∈ out.items) :
    next = { it with pc := it.pc + 1, regs := it.regs.set dst (.data (bv64 imm)) } := by
  have dispatch : kernelInsn cfg σ rule it ⟨0xb7, dst, 0, 0, imm, none, imm64⟩ =
      stepAlu it ⟨0xb7, dst, 0, 0, imm, none, imm64⟩ it.what := by
    simp [kernelInsn, Insn.isCallback, Insn.isHelper, Insn.isTailCall, Insn.isSubprog,
      Insn.isCallOp,
      Insn.isExit, stepInsn, Nat.not_lt.mpr small]
  rw [dispatch] at h
  obtain ⟨v, s₁, moved, gone⟩ := stepAlu_returns h
  obtain ⟨rfl, rfl⟩ : v = .data (bv64 imm) ∧ s₁ = ⟨it.mem, it.counters, exec⟩ := by
    simpa [alu, aluMov, operand] using moved
  obtain ⟨rfl, rfl⟩ := goOn_returns gone
  exact mem_singleton.mp member

theorem ldImm64_items
    (h : Returns (stepInsn plainCallConfig it ⟨0x18, 2, 0, 0, 0, some ⟨callbackSymbol⟩, 0⟩ it.what)
      ⟨it.mem, it.counters, exec⟩ out s') (member : next ∈ out.items) :
    next = { it with pc := it.pc + 2, regs := it.regs.set 2 (.ptr ⟨.func "sk" 4, bv64 0⟩) } := by
  obtain ⟨v, s₁, resolved, gone⟩ := h.bind
  have target : resolveLd64 plainCallConfig ⟨0x18, 2, 0, 0, 0, some ⟨callbackSymbol⟩, 0⟩ =
      pure (.ptr ⟨.func "sk" 4, bv64 0⟩) := rfl
  rw [target] at resolved
  obtain ⟨rfl, rfl⟩ := resolved.pure
  obtain ⟨rfl, rfl⟩ := goOn_returns gone
  exact mem_singleton.mp member

theorem PlainAt.back (h : PlainAt it)
    (returned : Returns (kernelReturn plainCallConfig σ (contract w σ) it (it.regs 0))
      ⟨it.mem, it.counters, exec⟩ out s') (member : next ∈ out.items) : PlainAt next := by
  unfold kernelReturn at returned
  split at returned
  · next sec pc regs rest framed =>
    obtain ⟨_, other, _⟩ := h.frames (.sub sec pc regs) (framed ▸ .head _)
    cases other
  · next f rest framed =>
    have below : ∀ frame ∈ rest, ∃ f, frame = .cb f ∧ f.csec = "sk" ∧ f.cidx = 4 ∧
        f.retSec = "sk" ∧ f.retPc = 4 := fun g later => h.frames g (framed ▸ .tail _ later)
    obtain ⟨_, same, csec, cidx, retSec, retPc⟩ := h.frames (.cb f) (framed ▸ .head _)
    cases same
    obtain ⟨ret, t, _, moved⟩ := returned.bind
    split at moved
    · obtain ⟨_, t, _, moved⟩ := moved.bind
      obtain ⟨rfl, _⟩ := enter_returns moved
      obtain rfl := mem_singleton.mp member
      refine ⟨csec, fun frame among => ?_, .inr (.inr (.inr (.inl cidx)))⟩
      rcases mem_cons.mp among with rfl | later
      · exact ⟨_, rfl, csec, cidx, retSec, retPc⟩
      · exact below frame later
    · obtain ⟨_, t, _, moved⟩ := moved.bind
      obtain ⟨rfl, _⟩ := enter_returns moved
      obtain rfl := mem_singleton.mp member
      exact ⟨retSec, below, .inr (.inr (.inr (.inl retPc)))⟩
  · obtain ⟨ret, t, _, moved⟩ := returned.bind
    rw [returns_get_bind] at moved
    obtain ⟨rfl, _⟩ := moved.pure
    cases member

theorem PlainAt.call (h : PlainAt it) (here : it.pc = 3)
    (r2 : it.regs 2 = .ptr ⟨.func "sk" 4, bv64 0⟩)
    (returned : Returns (kernelCallback plainCallConfig (contract w σ) it ins)
      ⟨it.mem, it.counters, exec⟩ out s') (member : next ∈ out.items) : PlainAt next := by
  obtain ⟨started, t, -, moved⟩ := returned.bind
  rw [r2] at moved
  split at moved
  · obtain ⟨_, t, _, moved⟩ := moved.bind
    obtain ⟨rfl, _⟩ := enter_returns moved
    obtain rfl := mem_singleton.mp member
    exact ⟨h.sec, h.frames, .inr (.inr (.inr (.inl (by simp [here]))))⟩
  · next aimed _ =>
    cases aimed
    obtain ⟨rfl, _⟩ := enter_returns moved
    obtain rfl := mem_singleton.mp member
    refine ⟨rfl, fun frame among => ?_, .inr (.inr (.inr (.inl rfl)))⟩
    rcases mem_cons.mp among with rfl | later
    · exact ⟨_, rfl, rfl, rfl, h.sec, by simp [here]⟩
    · exact h.frames frame later
  · exact moved.throw

theorem PlainAt.step (h : PlainAt it)
    (stepped : kernelStep plainCallConfig σ (contract w σ) it exec = .ok (out, exec'))
    (member : next ∈ out.items) : PlainAt next := by
  obtain ⟨slot0, slot1, slot3, slot4, slot5⟩ := plainInsn_slots
  obtain ⟨ins, s, found, returned⟩ := kernelStep_returns stepped
  have at' {pc : Int} {own : Insn} (here : it.pc = pc) (slot : plainInsn pc = some own) :
      ins = own :=
    Option.some.inj (found.symm.trans (h.insn here slot))
  have moves {dst : Nat} {imm : Int} {imm64 : Nat} (small : dst ≤ 10)
      (mov : ins = ⟨0xb7, dst, 0, 0, imm, none, imm64⟩) :
      next = { it with pc := it.pc + 1, regs := it.regs.set dst (.data (bv64 imm)) } := by
    subst mov
    exact mov_items small returned member
  rcases h.point with ⟨here, r4⟩ | ⟨here, r4, r1⟩ | ⟨here, _, _, r2⟩ | here | here
  · obtain rfl := moves (by decide) (at' here slot0)
    exact ⟨h.sec, h.frames, .inr (.inl ⟨by simp [here], r4, rfl⟩)⟩
  · obtain rfl := at' here slot1
    obtain rfl := ldImm64_items returned member
    exact ⟨h.sec, h.frames, .inr (.inr (.inl ⟨by simp [here], r4, r1, rfl⟩))⟩
  · obtain rfl := at' here slot3
    exact h.call here r2 returned member
  · obtain rfl := moves (by decide) (at' here slot4)
    exact ⟨h.sec, h.frames, .inr (.inr (.inr (.inr (by simp [here]))))⟩
  · obtain rfl := at' here slot5
    exact h.back returned member

/-- A callback helper is called at one place, with the registers that are set up there. -/
theorem PlainAt.atCall (h : PlainAt it) (found : it.insnAt plainCallConfig = some ins)
    (calls : ins.isCallback = true) :
    ins.imm = hLoop ∧ it.regs 1 = .data (bv64 1) ∧
      it.regs 4 = initRegs plainCallConfig false 4 := by
  obtain ⟨slot0, slot1, slot3, slot4, slot5⟩ := plainInsn_slots
  have elsewhere {pc : Int} {other : Insn} (here : it.pc = pc) (slot : plainInsn pc = some other)
      (plain : other.isCallback = false) : False := by
    rw [Option.some.inj (found.symm.trans (h.insn here slot)), plain] at calls
    cases calls
  rcases h.point with ⟨here, _⟩ | ⟨here, _⟩ | ⟨here, r4, r1, _⟩ | here | here
  · exact (elsewhere here slot0 (by decide)).elim
  · exact (elsewhere here slot1 (by decide)).elim
  · have same := Option.some.inj (found.symm.trans (h.insn here slot3))
    exact ⟨by rw [same]; rfl, r1, r4⟩
  · exact (elsewhere here slot4 (by decide)).elim
  · exact (elsewhere here slot5 (by decide)).elim

end BpfEquiv
