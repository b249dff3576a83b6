import BpfEquiv.Budget
import Mathlib.Data.Finset.Card
import Mathlib.Logic.Relation

/-!
Code in which no fork is repeated.

Only a conditional jump, which queues the side it takes, and a call add items to the work
list. Where neither that side nor the return of a call leads back to the instruction,
every queued item stands lower than the item that queued it in a ranking of the program
points and of the frames below them. The limit on queued items turns the ranking into a
potential, and the run stops within a number of steps that the limits fix. Loops that are
left by the side taken and repeated by going on are allowed: the limit on instructions
ends them.
-/
namespace BpfEquiv
open Smt Hoare List

variable (cfg : Config)

/-! Control flow within a section. -/

/-- The instruction at a slot of a code section. -/
def CodeAt (sec : String) (pc : Int) (ins : Insn) : Prop :=
  ∃ s code, (s = cfg.sec ∨ s ∈ cfg.elf.sections ∧ s.isExec = true) ∧ s.name = sec ∧
    decode cfg.elf s = .ok code ∧ 0 ≤ pc ∧ code[pc.toNat]? = some (some ins)

def Insn.isBranch (ins : Insn) : Bool := ins.op % 8 = 5 ∨ ins.op % 8 = 6

/-- Where control goes in the same function. -/
def Insn.targets (ins : Insn) (pc : Int) : List Int :=
  if ins.op = 0x18 then [pc + 2]
  else if ins.isBranch then
    if ins.op / 16 = 9 then []
    else if ins.op / 16 = 0 then [pc + 1 + (if ins.op % 8 = 6 then ins.imm else ins.off)]
    else if ins.op / 16 = 8 ∨ ins.op / 16 = 14 then [pc + 1]
    else [pc + 1, pc + 1 + ins.off]
  else [pc + 1]

/-- Where the items start that an instruction may queue in the same function: the taken
side of a conditional jump, the return of a call. -/
def Insn.side (ins : Insn) (pc : Int) : Option Int :=
  if ins.isBranch then
    if ins.op / 16 = 8 then some (pc + 1)
    else if ins.op / 16 = 0 ∨ ins.op / 16 = 9 ∨ ins.op / 16 = 14 then none
    else some (pc + 1 + ins.off)
  else none

def FlowsTo (sec : String) : Int → Int → Prop :=
  Relation.ReflTransGen fun p q => ∃ ins, CodeAt cfg sec p ins ∧ q ∈ ins.targets p

/-- No fork leads back to itself by the side it queues, sections are not longer than an
item may run, and nothing is thrown. -/
structure ForksOnce : Prop where
  short : ∀ {sec pc ins}, CodeAt cfg sec pc ins → pc.toNat < maxInsnsPerPath
  once : ∀ {sec pc ins side}, CodeAt cfg sec pc ins → ins.side pc = some side →
    ¬ FlowsTo cfg sec side pc
  caught : ∀ {sec pc ins}, CodeAt cfg sec pc ins → kfuncName ins ≠ some "bpf_throw"

def ForkAt (sec : String) (pc : Int) : Prop :=
  ∃ ins side, CodeAt cfg sec pc ins ∧ ins.side pc = some side

open Classical in
/-- How many forks a slot leads to. -/
noncomputable def forkRank (sec : String) (pc : Int) : Nat :=
  ((Finset.range maxInsnsPerPath).filter fun q : Nat =>
    FlowsTo cfg sec pc q ∧ ForkAt cfg sec q).card

variable {cfg} {it : Item} {ins : Insn} {regs : Regs} {what sec : String} {pc side : Int}

theorem forkRank_le (cfg : Config) (sec : String) (pc : Int) :
    forkRank cfg sec pc ≤ maxInsnsPerPath := by
  classical
  exact (Finset.card_filter_le _ _).trans_eq (Finset.card_range _)

theorem side_mem_targets (h : ins.side pc = some side) : side ∈ ins.targets pc := by
  simp only [Insn.side] at h
  split at h
  · rename_i branch
    have narrow : ins.op ≠ 0x18 := by
      rintro wide
      simp [Insn.isBranch, wide] at branch
    rw [Insn.targets, if_neg narrow, if_pos branch]
    split at h
    · rename_i call
      cases h
      simp [call]
    split at h
    · cases h
    · rename_i call other
      cases h
      rw [if_neg (by omega), if_neg (by omega), if_neg (by omega)]
      exact .tail _ (.head _)
  · cases h

/-- Going on leads to no more forks. -/
theorem forkRank_mono (here : CodeAt cfg sec pc ins) (target : side ∈ ins.targets pc) :
    forkRank cfg sec side ≤ forkRank cfg sec pc := by
  classical
  refine Finset.card_le_card fun q member => ?_
  simp only [Finset.mem_filter] at member ⊢
  exact ⟨member.1, .head ⟨ins, here, target⟩ member.2.1, member.2.2⟩

/-- The side a fork queues leads to fewer forks. -/
theorem ForksOnce.forkRank_lt (once : ForksOnce cfg) (here : CodeAt cfg sec pc ins)
    (queued : ins.side pc = some side) : forkRank cfg sec side < forkRank cfg sec pc := by
  classical
  have target := side_mem_targets queued
  refine Finset.card_lt_card ⟨fun q member => ?_, fun back => ?_⟩
  · simp only [Finset.mem_filter] at member ⊢
    exact ⟨member.1, .head ⟨ins, here, target⟩ member.2.1, member.2.2⟩
  have place : ((pc.toNat : Nat) : Int) = pc := by
    obtain ⟨_, _, _, _, _, front, _⟩ := here
    exact Int.toNat_of_nonneg front
  have own : pc.toNat ∈ (Finset.range maxInsnsPerPath).filter fun q : Nat =>
      FlowsTo cfg sec pc q ∧ ForkAt cfg sec q := by
    rw [Finset.mem_filter, Finset.mem_range, place]
    exact ⟨once.short here, .refl, ins, side, here, queued⟩
  have again := (Finset.mem_filter.mp (back own)).2.1
  rw [place] at again
  exact once.once here queued again

/-! Items and the frames below them. -/

@[irreducible] def levelBase : Nat := (maxCbIters + 2) * (maxInsnsPerPath + 1)

/-- What a fork counts at a call depth. -/
@[irreducible] def level (depth : Nat) : Nat := levelBase ^ (maxCallDepth - depth)

theorem level_pos (depth : Nat) : 0 < level depth := by
  rw [level, levelBase]
  exact Nat.pow_pos (Nat.mul_pos (Nat.succ_pos _) (Nat.succ_pos _))

theorem level_succ {depth : Nat} (inner : depth < maxCallDepth) :
    level depth = levelBase * level (depth + 1) := by
  rw [level, level, show maxCallDepth - depth = maxCallDepth - (depth + 1) + 1 by omega,
    Nat.pow_succ']

/-- What the frames below an item still count. A callback has its further iterations. -/
noncomputable def stackRank (cfg : Config) : List Frame → Nat
  | [] => 0
  | .sub sec pc _ :: rest => forkRank cfg sec pc * level rest.length + stackRank cfg rest
  | .cb f :: rest => forkRank cfg f.retSec f.retPc * level rest.length +
      (maxCbIters - f.i + 1) * (maxInsnsPerPath + 1) * level (rest.length + 1) + stackRank cfg rest

noncomputable def Item.rank (cfg : Config) (it : Item) : Nat :=
  forkRank cfg it.sec it.pc * level it.stack.length + stackRank cfg it.stack

/-- An item goes on no higher, and queues only what is lower. -/
structure Lowers (cfg : Config) (it : Item) (out : StepOut) : Prop where
  next : ∀ i ∈ out.next, i.rank cfg ≤ it.rank cfg
  pushed : ∀ i ∈ out.pushed, i.rank cfg < it.rank cfg

theorem resume_rank (cfg : Config) {conds : List (Term .bool)} {stack : List Frame} :
    Ensures (resume it sec pc regs conds stack) fun i =>
      i.rank cfg = forkRank cfg sec pc * level stack.length + stackRank cfg stack :=
  .andThen fun _ => .pure rfl

theorem rank_le_of_mono (h : forkRank cfg it.sec pc ≤ forkRank cfg it.sec it.pc) :
    forkRank cfg it.sec pc * level it.stack.length + stackRank cfg it.stack ≤ it.rank cfg :=
  Nat.add_le_add_right (Nat.mul_le_mul_right _ h) _

theorem rank_lt_of_lt (h : forkRank cfg it.sec pc < forkRank cfg it.sec it.pc) :
    forkRank cfg it.sec pc * level it.stack.length + stackRank cfg it.stack < it.rank cfg :=
  Nat.add_lt_add_right (Nat.mul_lt_mul_of_pos_right h (level_pos _)) _

theorem lowers_next {i : Item} (low : i.rank cfg ≤ it.rank cfg) {pushed : List Item}
    (queued : ∀ i ∈ pushed, i.rank cfg < it.rank cfg) (ended : List Path) :
    Lowers cfg it ⟨some i, pushed, ended⟩ :=
  ⟨fun _ same => by cases same; exact low, queued⟩

theorem lowers_stop {pushed : List Item} (queued : ∀ i ∈ pushed, i.rank cfg < it.rank cfg)
    (ended : List Path) : Lowers cfg it ⟨none, pushed, ended⟩ :=
  ⟨nofun, queued⟩

theorem goOn_lowers (low : forkRank cfg it.sec pc ≤ forkRank cfg it.sec it.pc) :
    Ensures (goOn it pc regs) (Lowers cfg it) := by
  refine .bind (resume_rank cfg) fun i rank => .pure ?_
  exact lowers_next (rank.trans_le (rank_le_of_mono low)) (forall_mem_nil _) []

/-- A side that may be queued. -/
theorem queued_lowers {c : Prop} [Decidable c] {conds : List (Term .bool)} {stack : List Frame}
    {m : M Regs} (low : forkRank cfg sec pc * level stack.length + stackRank cfg stack <
      it.rank cfg) :
    Ensures (if c then do
        let regs ← m
        let side ← resume it sec pc regs conds stack
        pure [side]
      else pure []) fun pushed => ∀ i ∈ pushed, i.rank cfg < it.rank cfg := by
  refine .ite (fun _ => .andThen fun regs => .bind (resume_rank cfg) fun i rank =>
    .pure fun j member => ?_) fun _ => .pure (forall_mem_nil _)
  rw [mem_singleton.mp member, rank]
  exact low

theorem stepCondJump_lowers (next : forkRank cfg it.sec (it.pc + 1) ≤ forkRank cfg it.sec it.pc)
    (taken : forkRank cfg it.sec (it.pc + 1 + ins.off) < forkRank cfg it.sec it.pc) :
    Ensures (stepCondJump cfg it ins what) (Lowers cfg it) := by
  refine .andThen fun raw => .ite (fun _ => goOn_lowers taken.le) fun _ =>
    .ite (fun _ => goOn_lowers next) fun _ => .andThen fun takes => ?_
  refine .bind (Q := fun pushed => ∀ i ∈ pushed, i.rank cfg < it.rank cfg) ?_ fun pushed low =>
    .andThen fun goes => .ite (fun _ => ?_) fun _ => .pure (lowers_stop low [])
  · exact queued_lowers (m := pure it.regs) (rank_lt_of_lt taken)
  · refine .bind (resume_rank cfg) fun i rank => .pure ?_
    exact lowers_next (rank.trans_le (rank_le_of_mono next)) low []

theorem forkConts_lowers (behind : forkRank cfg it.sec (it.pc + 1) < forkRank cfg it.sec it.pc)
    (conts : List Cont) : Ensures (forkConts it conts) (Lowers cfg it) := by
  cases conts with
  | nil => exact .pure (lowers_stop (forall_mem_nil _) [])
  | cons first rest =>
    refine .bind (resume_rank cfg) fun i rank => ?_
    refine .bind (Ensures.mapM_all (Q := fun i => i.rank cfg < it.rank cfg) fun c _ => ?_)
      fun pushed low => .pure (lowers_next (rank.trans_le (rank_le_of_mono behind.le)) low [])
    exact (resume_rank cfg).mono fun j rank => rank.trans_lt (rank_lt_of_lt behind)

theorem stepTailCall_lowers
    (behind : forkRank cfg it.sec (it.pc + 1) < forkRank cfg it.sec it.pc) :
    Ensures (stepTailCall cfg it what) (Lowers cfg it) := by
  refine .andThen fun idx => .andThen fun s => .andThen fun regs => ?_
  refine .bind (resume_rank cfg) fun i rank => .pure ?_
  exact lowers_next (rank.trans_le (rank_le_of_mono behind.le)) (forall_mem_nil _) _

/-- What a function or callback counts fits below the call that enters it. -/
theorem entered_le {cost : Nat} (inner : it.stack.length < maxCallDepth)
    (behind : forkRank cfg it.sec (it.pc + 1) < forkRank cfg it.sec it.pc)
    (small : cost ≤ levelBase) :
    cost * level (it.stack.length + 1) + (forkRank cfg it.sec (it.pc + 1) *
      level it.stack.length + stackRank cfg it.stack) ≤ it.rank cfg := by
  have room : cost * level (it.stack.length + 1) ≤ level it.stack.length := by
    rw [level_succ inner]
    exact Nat.mul_le_mul_right _ small
  have whole : (forkRank cfg it.sec (it.pc + 1) + 1) * level it.stack.length ≤
      forkRank cfg it.sec it.pc * level it.stack.length := Nat.mul_le_mul_right _ behind
  rw [Nat.add_mul, Nat.one_mul] at whole
  rw [Item.rank]
  omega

theorem small_le_levelBase : maxInsnsPerPath ≤ levelBase := by
  rw [levelBase, Nat.add_mul]
  omega

theorem stepSubprog_lowers
    (behind : forkRank cfg it.sec (it.pc + 1) < forkRank cfg it.sec it.pc) :
    Ensures (stepSubprog cfg it ins what) (Lowers cfg it) := by
  refine .ite (fun _ => .throw _) fun depth => .andThen fun target => .andThen fun _ =>
    .andThen fun fid => .bind (resume_rank cfg) fun i rank => .pure ?_
  refine lowers_next (rank.trans_le ?_) (forall_mem_nil _) []
  exact entered_le (Nat.lt_of_not_ge depth) behind
    ((forkRank_le _ _ _).trans small_le_levelBase)

section
variable {f : CbFrame} (own : f.retSec = sec ∧ f.retPc = pc)
include own

theorem loopStart_back : Ensures (loopStart cfg f regs what) fun started =>
    ∀ g ∈ started, g.retSec = sec ∧ g.retPc = pc := by
  unfold loopStart
  split
  · exact .throw _
  refine .ite (fun _ => .andThen fun _ => .pure (by simp)) fun _ => .andThen fun _ => .pure ?_
  intro g same
  cases same
  exact own

theorem forEachStart_back : Ensures (forEachStart cfg f regs what) fun started =>
    ∀ g ∈ started, g.retSec = sec ∧ g.retPc = pc := by
  refine .andThen fun mapname => .andThen fun d => ?_
  split
  · exact .throw _
  refine .ite (fun _ => .pure (by simp)) fun _ => .ite (fun _ => .throw _) fun _ =>
    .andThen fun _ => .pure ?_
  intro g same
  cases same
  exact own

theorem timerCbStart_back : Ensures (timerCbStart cfg f regs what) fun started =>
    ∀ g ∈ started, g.retSec = sec ∧ g.retPc = pc := by
  refine .andThen fun slot => .andThen fun s => ?_
  split
  · exact .throw _
  refine .andThen fun s => .andThen fun timer => .andThen fun _ => .ite (fun _ => .pure (by simp))
    fun _ => .andThen fun _ => .pure ?_
  intro g same
  cases same
  exact own

end

theorem cbStart_back {hid : Int} :
    Ensures (cbStart cfg hid sec pc regs what) fun started =>
      ∀ f ∈ started, f.1.retSec = sec ∧ f.1.retPc = pc := by
  unfold cbStart
  refine .andThen fun target => ?_
  obtain ⟨csec, cidx⟩ := target
  refine .andThen fun cbfid => .bind (Q := fun started =>
    ∀ f ∈ started, f.retSec = sec ∧ f.retPc = pc) ?_ fun started back => ?_
  · refine .ite (fun _ => timerCbStart_back ⟨rfl, rfl⟩) fun _ =>
      .ite (fun _ => loopStart_back ⟨rfl, rfl⟩) fun _ => forEachStart_back ⟨rfl, rfl⟩
  · cases started with
    | none => exact .pure (by simp)
    | some f =>
      refine .andThen fun cbregs => .pure fun g same => ?_
      cases same
      exact back f rfl

theorem stepCallback_lowers
    (behind : forkRank cfg it.sec (it.pc + 1) < forkRank cfg it.sec it.pc) :
    Ensures (stepCallback cfg it ins what) (Lowers cfg it) := by
  refine .ite (fun _ => .throw _) fun depth => .bind cbStart_back fun started back => ?_
  cases started with
  | none => exact .andThen fun regs => goOn_lowers behind.le
  | some entry =>
    obtain ⟨f, cbregs⟩ := entry
    obtain ⟨retSec, retPc⟩ := back _ rfl
    refine .andThen fun skips => .bind (queued_lowers (rank_lt_of_lt behind)) fun pushed low => ?_
    refine .andThen fun enters => .ite (fun _ => ?_) fun _ => .pure (lowers_stop low [])
    refine .andThen fun _ => .bind (resume_rank cfg) fun i rank => .pure ?_
    refine lowers_next (rank.trans_le ?_) low []
    have fits : forkRank cfg f.csec f.cidx + (maxCbIters - f.i + 1) * (maxInsnsPerPath + 1) ≤
        levelBase := by
      have entry := forkRank_le cfg f.csec f.cidx
      have rounds : (maxCbIters - f.i + 1) * (maxInsnsPerPath + 1) ≤
          (maxCbIters + 1) * (maxInsnsPerPath + 1) := Nat.mul_le_mul_right _ (by omega)
      rw [levelBase, show maxCbIters + 2 = maxCbIters + 1 + 1 from rfl,
        Nat.add_mul (maxCbIters + 1)]
      omega
    have total := entered_le (Nat.lt_of_not_ge depth) behind fits
    rw [Nat.add_mul] at total
    rw [stackRank, retSec, retPc, length_cons]
    omega

theorem stepCall_lowers
    (behind : forkRank cfg it.sec (it.pc + 1) < forkRank cfg it.sec it.pc)
    (caught : kfuncName ins ≠ some "bpf_throw") :
    Ensures (stepCall cfg it ins what) (Lowers cfg it) := by
  unfold stepCall
  split
  · rename_i kname named
    refine .ite (fun thrown => ?_) fun _ => .andThen fun conts => forkConts_lowers behind conts
    subst thrown
    split at named
    · exact absurd named caught
    · cases named
  refine .ite (fun _ => stepSubprog_lowers behind) fun _ => .ite (fun _ => .throw _) fun _ => ?_
  refine .ite (fun _ => stepTailCall_lowers behind) fun _ => ?_
  refine .ite (fun _ => stepCallback_lowers behind) fun _ => ?_
  exact .ite (fun _ => .andThen fun conts => forkConts_lowers behind conts) fun _ =>
    .andThen fun regs => goOn_lowers behind.le

theorem stepExit_lowers : Ensures (stepExit cfg it what) (Lowers cfg it) := by
  unfold stepExit
  split
  · rename_i f rest framed
    have own : it.rank cfg = forkRank cfg it.sec it.pc * level (rest.length + 1) +
        (forkRank cfg f.retSec f.retPc * level rest.length +
          (maxCbIters - f.i + 1) * (maxInsnsPerPath + 1) * level (rest.length + 1) +
          stackRank cfg rest) := by
      rw [Item.rank, framed]
      rfl
    have round : (maxInsnsPerPath + 1) * level (rest.length + 1) > 0 :=
      Nat.mul_pos (Nat.succ_pos _) (level_pos _)
    have spent : (maxCbIters - f.i + 1) * (maxInsnsPerPath + 1) * level (rest.length + 1) =
        (maxCbIters - f.i) * (maxInsnsPerPath + 1) * level (rest.length + 1) +
          (maxInsnsPerPath + 1) * level (rest.length + 1) := by
      rw [Nat.add_mul, Nat.one_mul, Nat.add_mul]
    refine .andThen fun r0 => .andThen fun stops => ?_
    have less : forkRank cfg f.retSec f.retPc * level rest.length + stackRank cfg rest <
        it.rank cfg := by omega
    refine .bind (queued_lowers less) fun pushed low => .andThen fun goes => ?_
    refine .ite (fun _ => .pure (lowers_stop low [])) fun _ =>
      .ite (fun _ => .throw _) fun more => ?_
    refine .andThen fun regs => .andThen fun _ => .bind (resume_rank cfg) fun i rank => .pure ?_
    refine lowers_next (rank.trans_le ?_) low []
    have entry : forkRank cfg f.csec f.cidx * level (rest.length + 1) ≤
        maxInsnsPerPath * level (rest.length + 1) :=
      Nat.mul_le_mul_right _ (forkRank_le _ _ _)
    have one : (maxInsnsPerPath + 1) * level (rest.length + 1) =
        maxInsnsPerPath * level (rest.length + 1) + level (rest.length + 1) :=
      Nat.succ_mul _ _
    have later : stackRank cfg (.cb { f with i := f.i + 1 } :: rest) =
        forkRank cfg f.retSec f.retPc * level rest.length + (maxCbIters - f.i) *
          (maxInsnsPerPath + 1) * level (rest.length + 1) + stackRank cfg rest := by
      rw [stackRank, show maxCbIters - (f.i + 1) + 1 = maxCbIters - f.i by omega]
    rw [later, length_cons]
    omega
  · rename_i sec pc callerRegs rest framed
    refine .ite (fun _ => .throw _) fun _ => .andThen fun _ =>
      .bind (resume_rank cfg) fun i rank => .pure ?_
    refine lowers_next (rank.trans_le ?_) (forall_mem_nil _) []
    rw [Item.rank, framed, stackRank]
    omega
  · exact .andThen fun ret => .andThen fun s => .pure (lowers_stop (forall_mem_nil _) _)

theorem ForksOnce.stepInsn_lowers (once : ForksOnce cfg) (here : CodeAt cfg it.sec it.pc ins) :
    Ensures (stepInsn cfg it ins what) (Lowers cfg it) := by
  have goes {pc : Int} (target : pc ∈ ins.targets it.pc) (regs : Regs) :
      Ensures (goOn it pc regs) (Lowers cfg it) := goOn_lowers (forkRank_mono here target)
  refine .ite (fun _ => .throw _) fun _ => .ite (fun wide => ?_) fun narrow => ?_
  · exact .guard (.andThen fun _ => goes (by simp [Insn.targets, wide]) _)
  by_cases branch : ins.op % 8 = 5 ∨ ins.op % 8 = 6
  · have isBranch : ins.isBranch = true := by simpa [Insn.isBranch] using branch
    have targets := Insn.targets.eq_1 ins it.pc
    rw [if_neg narrow, if_pos isBranch] at targets
    have side := Insn.side.eq_1 ins it.pc
    rw [if_pos isBranch] at side
    refine .ite (fun other => absurd other (by omega)) fun _ =>
      .ite (fun other => absurd other (by omega)) fun _ =>
      .ite (fun other => absurd other (by omega)) fun _ =>
      .ite (fun other => absurd other (by omega)) fun _ => .ite (fun _ => ?_) fun no =>
        absurd branch no
    refine .ite (fun call => ?_) fun notCall => .ite (fun _ => stepExit_lowers) fun notExit =>
      .ite (fun jump => goes (by rw [targets, if_neg (by omega), if_pos jump]; exact .head _) _)
        fun notJump => .ite (fun may => goes (by simp [targets, may]) _) fun notMay => ?_
    · exact stepCall_lowers (once.forkRank_lt here (by rw [side, if_pos call])) (once.caught here)
    · refine stepCondJump_lowers (forkRank_mono here ?_) (once.forkRank_lt here ?_)
      · rw [targets, if_neg notExit, if_neg notJump, if_neg (by omega)]
        exact .head _
      · rw [side, if_neg notCall, if_neg (by omega)]
  have straight : it.pc + 1 ∈ ins.targets it.pc := by
    have isBranch : ¬ ins.isBranch = true := by simpa [Insn.isBranch] using branch
    rw [Insn.targets, if_neg narrow, if_neg isBranch]
    exact .head _
  refine .ite (fun _ => .andThen fun _ => .andThen fun _ => goes straight _) fun _ => ?_
  refine .ite (fun _ => .andThen fun _ => goes straight _) fun _ => ?_
  refine .ite (fun _ => .andThen fun _ => ?_) fun _ => ?_
  · exact .ite (fun _ => .andThen fun _ => goes straight _) fun _ =>
      .ite (fun _ => .throw _) fun _ => goes straight _
  refine .ite (fun _ => ?_) fun _ => .ite (fun jump => absurd jump branch) fun _ => .throw _
  exact .ite (fun _ => .guard (.andThen fun _ => goes straight _)) fun _ =>
    .ite (fun _ => .throw _) fun _ => .andThen fun _ => goes straight _

theorem insnsOf_decoded : Ensures (insnsOf cfg sec what) fun code =>
    ∃ s, (s = cfg.sec ∨ s ∈ cfg.elf.sections ∧ s.isExec = true) ∧ s.name = sec ∧
      decode cfg.elf s = .ok code := by
  have decoded {s : Section} : Ensures (decodeM cfg s) fun code => decode cfg.elf s = .ok code := by
    unfold decodeM
    split
    · next found => exact .pure found
    · exact .throw _
  unfold insnsOf
  refine .ite (fun own => decoded.mono fun code done => ⟨cfg.sec, .inl rfl, own.symm, done⟩)
    fun _ => ?_
  split
  · exact .throw _
  rename_i s found
  refine .ite (fun _ => .throw _) fun exec => .ite (fun _ => .throw _) fun _ =>
    decoded.mono fun code done => ⟨s, .inr ⟨mem_of_find?_eq_some found, ?_⟩, ?_, done⟩
  · simpa using exec
  · simpa using List.find?_some found

theorem fetch_codeAt : Ensures (fetch cfg it) fun ins => CodeAt cfg it.sec it.pc ins := by
  refine .bind insnsOf_decoded fun code ⟨s, place, named, done⟩ => ?_
  split
  · rename_i ins found
    split
    · exact .throw _
    split at found
    · cases found
    · rename_i front
      exact .pure ⟨s, code, place, named, done, by omega, found⟩
  · exact .throw _

theorem ForksOnce.step_lowers (once : ForksOnce cfg) {exec exec' : Exec} {out : StepOut}
    (stepped : step cfg it exec = .ok (out, exec')) : Lowers cfg it out := by
  have ensured : Ensures (stepItem cfg it) (Lowers cfg it) :=
    .bind fetch_codeAt fun _ here => once.stepInsn_lowers here
  simp only [step] at stepped
  split at stepped
  · rename_i returned
    cases stepped
    exact ensured _ _ _ returned
  · cases stepped

/-! Runs. -/

/-- What an item queues until it gives control back is lower than the item. -/
theorem ForksOnce.executes_lowers (once : ForksOnce cfg) {r r' : Run} (h : Executes cfg r r')
    (top : Nat) (start : ∀ it steps, r.cur = some (it, steps) → it.rank cfg ≤ top) :
    ∃ new, r'.work = new ++ r.work ∧ ∀ i ∈ new, i.rank cfg < top := by
  induction h with
  | stop _ => exact ⟨[], rfl, forall_mem_nil _⟩
  | step busy next _ ih =>
    obtain ⟨it, steps, out, exec, current, _, stepped, rfl⟩ | ⟨_, _, idle, _⟩ :=
      Run.next_running next
    · have lowers := once.step_lowers stepped
      have low := start it steps current
      obtain ⟨new, work, below⟩ := ih fun i steps' later => by
        obtain ⟨i', isNext, same⟩ := Option.map_eq_some_iff.mp later
        cases same
        exact (lowers.next i isNext).trans low
      refine ⟨new ++ out.pushed.reverse, by simp [work], fun i member => ?_⟩
      rcases mem_append.mp member with later | queued
      · exact below i later
      · exact (lowers.pushed i (mem_reverse.mp queued)).trans_le low
    · exact absurd idle busy

/-- The potential of a work list. -/
noncomputable def potential (cfg : Config) (work : List Item) : Nat :=
  (work.map fun i => (maxPaths + 1) ^ i.rank cfg).sum

theorem potential_lower {new : List Item} {top : Nat} (below : ∀ i ∈ new, i.rank cfg < top)
    (few : new.length ≤ maxPaths) : potential cfg new < (maxPaths + 1) ^ top := by
  cases top with
  | zero =>
    cases new with
    | nil => exact Nat.one_pos
    | cons i new => exact absurd (below i (.head _)) (Nat.not_lt_zero _)
  | succ top =>
    have each : potential cfg new ≤ new.length • (maxPaths + 1) ^ top := by
      rw [potential, ← length_map (f := fun i : Item => (maxPaths + 1) ^ i.rank cfg)]
      refine sum_le_card_nsmul _ _ fun n member => ?_
      obtain ⟨i, inside, rfl⟩ := mem_map.mp member
      exact Nat.pow_le_pow_right (Nat.succ_pos _) (Nat.le_of_lt_succ (below i inside))
    calc potential cfg new ≤ new.length * (maxPaths + 1) ^ top := each
      _ ≤ maxPaths * (maxPaths + 1) ^ top := Nat.mul_le_mul_right _ few
      _ < (maxPaths + 1) * (maxPaths + 1) ^ top :=
        Nat.mul_lt_mul_of_pos_right (Nat.lt_succ_self _) (Nat.pow_pos (Nat.succ_pos _))
      _ = (maxPaths + 1) ^ (top + 1) := (Nat.pow_succ' ..).symm

/-- Resuming an item lowers the potential, as long as the queue is within its limit. -/
theorem ForksOnce.resumes_lowers (once : ForksOnce cfg) {r r' : Run} (h : Resumes cfg r r')
    (within : r'.work.length ≤ maxPaths) : potential cfg r'.work < potential cfg r.work := by
  obtain ⟨idle, r₁, next, executes⟩ := h
  obtain ⟨_, _, _, _, current, _⟩ | ⟨it, rest, _, queued, _, rfl⟩ := Run.next_running next
  · cases idle.symm.trans current
  obtain ⟨new, work, below⟩ := once.executes_lowers executes (it.rank cfg)
    fun i steps same => by cases same; exact le_rfl
  have few : new.length ≤ maxPaths := by
    rw [work, length_append] at within
    omega
  have lower := potential_lower below few
  rw [work, queued]
  simp only [potential, map_append, map_cons, sum_append, sum_cons] at lower ⊢
  omega

theorem ForksOnce.length_le (once : ForksOnce cfg) {r : Run} {l : List Run}
    (chain : List.IsChain (Resumes cfg) (r :: l)) : l.length ≤ potential cfg r.work + 1 := by
  induction l generalizing r with
  | nil => exact Nat.zero_le _
  | cons r' l ih =>
    obtain ⟨first, rest⟩ := isChain_cons_cons.mp chain
    have later := ih rest
    cases l with
    | nil => simp
    | cons r'' l =>
      obtain ⟨idle, r₁, next, _⟩ := (isChain_cons_cons.mp rest).1
      have within := (next_idle idle next).1
      have lower := once.resumes_lowers first (by omega)
      simp only [length_cons] at later ⊢
      omega

theorem ForksOnce.stops (once : ForksOnce cfg) {r : Run} (idle : r.cur = none) {bound : Nat}
    (start : potential cfg r.work ≤ bound) :
    r.exec? cfg ((bound + 2) * (maxInsnsPerPath + 2)) ≠ none := by
  rcases chain_or_stops (bound + 2) idle with ⟨l, length, chain⟩ | stops
  · have short := once.length_le chain
    omega
  · exact stops

end BpfEquiv
