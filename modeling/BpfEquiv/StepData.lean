import BpfEquiv.Coverage
import BpfEquiv.Linkage
import BpfEquiv.Operators

/-!
Agreement of an item with a state of the machine, and the instructions that move
data: arithmetic, memory and immediates.

An item agrees with a state of the machine when its registers, its memory and its
call stack concretise to it. An instruction follows the instruction set when every
successor the assignment selects agrees with the state the instruction set gives.
-/
namespace BpfEquiv
open Smt Hoare Option

variable {regs : Regs} {v : Val} {x : BitVec 64} {size : Size} {dst addend : Nat} {off : Int}

/-! Words. -/

abbrev Insn.word (ins : Insn) : Isa.Word := ⟨ins.op, ins.dst, ins.src, ins.off, ins.imm⟩

theorem sizeOfOp_bytes (ins : Insn) : (sizeOfOp ins.op).bytes = ins.word.bytes := by
  simp only [sizeOfOp, Isa.Word.bytes]
  generalize ins.op / 8 % 4 = bits
  rcases bits with _ | _ | _ | bits
  all_goals rfl

/-! Agreement. -/

/-- A frame of the executor stands for a caller of the machine; the caller of a
callback is the kernel. -/
inductive CallerOf (L : Layout) (σ : Assignment) : Frame → Isa.Caller → Prop where
  | sub {sec : String} {pc : Int} {regs : Regs} {regs' : Nat → BitVec 64}
      (same : ∀ r, regs' r = (regs r).conc L σ) :
      CallerOf L σ (.sub sec pc regs) (.sub ⟨sec, pc⟩ regs')
  | cb (f : CbFrame) : CallerOf L σ (.cb f) .kernel

structure Agrees (cfg : Config) (L : Layout) (σ : Assignment) (t : Track) (it : Item)
    (exec : Exec) (m : Isa.Machine) : Prop where
  loc : m.loc = ⟨it.sec, it.pc⟩
  regs : ∀ r, m.regs r = (it.regs r).conc L σ
  mem : Represents cfg L σ t ⟨it.mem, it.counters, exec⟩ m.mem
  callers : List.Forall₂ (CallerOf L σ) it.stack m.callers

/-- No path ends, and every successor that the assignment selects agrees with the
machine. -/
def Continues (cfg : Config) (L : Layout) (σ : Assignment) (t : Track) (out : StepOut)
    (exec : Exec) (m : Isa.Machine) : Prop :=
  out.ended = [] ∧ ∀ it' ∈ out.next.toList ++ out.pushed, Holds σ it'.conds →
    Agrees cfg L σ t it' exec m

/-- Provenance after an instruction: only stores change it. -/
def Track.after (t : Track) (σ : Assignment) (it : Item) : Isa.Instr → Track
  | .store n dst off src =>
    let p := (addrAdd (it.regs dst) off).target
    t.store p.1 (p.2.eval σ) n
      (match src with
      | .reg r => (it.regs r).isPtr
      | .imm _ => false)
  | .atomic n _ _ dst _ off | .xchg n dst _ off | .cmpxchg n dst _ off =>
    let p := (addrAdd (it.regs dst) off).target
    t.store p.1 (p.2.eval σ) n false
  | _ => t

/-- What the machine executes on the instruction is what the step leaves behind. -/
def Follows (cfg : Config) (L : Layout) (σ : Assignment) (t : Track) (it : Item)
    (link : Isa.Linkage) (m : Isa.Machine) (i : Isa.Instr) (out : StepOut) (exec : Exec) : Prop :=
  ∀ m', i.exec link m = some m' → Continues cfg L σ (t.after σ it i) out exec m'

/-! Conditions on the operands. -/

def Val.InBounds (L : Layout) (σ : Assignment) (v : Val) (n : Nat) : Prop :=
  BpfEquiv.InBounds L v.target.1 (v.target.2.eval σ) n

def Val.Readable (σ : Assignment) (t : Track) (v : Val) (n : Nat) : Prop :=
  t.Readable v.target.1 (v.target.2.eval σ) n

/-- The second operand of an arithmetic instruction or a jump. -/
def operandVal (regs : Regs) (wide : Bool) : Isa.Operand → Val
  | .reg r => regs r
  | .imm i => .data (if wide then bv64 i else zext64 (.bvVal (BitVec.ofInt 32 i)))

/-- Operands the value model treats as the machine does. There is no such operand for a jump
through a register. A call through one is taken for a call of helper 0, which has no model and
no prototype. -/
def Faithful (cfg : Config) (L : Layout) (σ : Assignment) (t : Track) (it : Item) :
    Isa.Instr → Prop
  | .movsx _ _ _ src => (it.regs src).isPtr = false
  | .branch wide c dst src _ => Comparable L σ wide c (it.regs dst) (operandVal it.regs wide src)
  | .load n _ _ src off =>
    (addrAdd (it.regs src) off).InBounds L σ n ∧ (addrAdd (it.regs src) off).Readable σ t n
  | .store n dst off _ => (addrAdd (it.regs dst) off).InBounds L σ n
  | .atomic n _ _ dst _ off | .xchg n dst _ off | .cmpxchg n dst _ off =>
    (addrAdd (it.regs dst) off).InBounds L σ n ∧ (addrAdd (it.regs dst) off).Readable σ t n
  | .jumpReg _ => False
  | .callReg _ => cfg.helperSigs 0 = none
  | _ => True

variable {cfg : Config} {L : Layout} {σ : Assignment} {t : Track} {it : Item} {s s' : St}
  {out : StepOut} {m m' : Isa.Machine} {ins : Insn} {link : Isa.Linkage} {i : Isa.Instr}
  {exec : Exec} {what : String}

theorem goOn_returns {pc : Int} (h : Returns (goOn it pc regs) s out s') :
    out = ⟨some { it with pc := pc, regs := regs, mem := s.mem, counters := s.counters }, [], []⟩ ∧
      s = s' := by
  simp only [goOn, resume] at h
  obtain ⟨rfl, rfl⟩ := h
  exact ⟨rfl, rfl⟩

theorem goOn_continues {pc : Int} (h : Returns (goOn it pc regs) s out s')
    (loc : m'.loc = ⟨it.sec, pc⟩) (same : ∀ r, m'.regs r = (regs r).conc L σ)
    (mem : Represents cfg L σ t s m'.mem)
    (callers : List.Forall₂ (CallerOf L σ) it.stack m'.callers) :
    Continues cfg L σ t out s'.exec m' := by
  obtain ⟨rfl, rfl⟩ := goOn_returns h
  refine ⟨rfl, fun it' member _ => ?_⟩
  cases List.mem_singleton.mp member
  exact ⟨loc, same, mem, callers⟩

theorem stepAlu_returns (h : Returns (stepAlu it ins what) s out s') :
    ∃ v s₁, Returns (alu (ins.op / 16) (ins.op % 8 = 7) (it.regs ins.dst)
      (if ins.op / 16 = 8 then .data (bv64 0) else operand it.regs ins (ins.op % 8 = 7))
      ins.off what) s v s₁ ∧
      Returns (goOn it (it.pc + 1) (it.regs.set ins.dst v)) s₁ out s' :=
  h.bind

theorem atomicOp_sound {aop : Int} {o : Isa.AtomicOp} (h : Isa.atomicOp aop = some o) :
    ∃ op, atomicOp aop = some op ∧ ∀ a b : BitVec 64, op.eval a b = o.eval a b := by
  simp only [Isa.atomicOp] at h
  simp only [atomicOp]
  split_ifs at h with add or and xor <;> cases h
  · exact ⟨.add, if_pos add, fun _ _ => rfl⟩
  · exact ⟨.or, by rw [if_neg add, if_pos or], fun _ _ => rfl⟩
  · exact ⟨.and, by rw [if_neg add, if_neg or, if_pos and], fun _ _ => rfl⟩
  · exact ⟨.xor, by rw [if_neg add, if_neg or, if_neg and, if_pos xor], fun _ _ => rfl⟩

/-- The value a compare and exchange stores: the comparison is at the width of the
access. -/
theorem eval_exchange (narrow : size = .w ∨ size = .dw)
    (srcv old r0 : Term (.bv 64)) :
    (Term.ite (if size = .dw then .rel .eq (.extract 0 64 old) (.extract 0 64 r0)
        else .rel .eq (lo32 old) (lo32 r0)) srcv old).eval σ =
      if (old.eval σ).setWidth (8 * size.bytes) = (r0.eval σ).setWidth (8 * size.bytes)
        then srcv.eval σ else old.eval σ := by
  rcases narrow with rfl | rfl
  · have compared := eval_ite_eq (σ := σ) (lo32 old) (lo32 r0) srcv old
    rw [eval_lo32, eval_lo32] at compared
    exact compared
  · have compared := eval_ite_eq (σ := σ) (.extract 0 64 old) (.extract 0 64 r0) srcv old
    rw [eval_extract_low, eval_extract_low] at compared
    exact compared

theorem Resolved.shadow {mem : Flat.Memory} (h : Resolved cfg L mem s s') :
    s'.mem.shadow = s.mem.shadow := by
  cases h <;> rfl

/-- The contents of a region after an immediate is resolved are the old ones, or those of a
configuration extern as the loader has them. -/
theorem Resolved.contents {mem : Flat.Memory} {r : Region} {o : BitVec 64} {arr : Term .arr}
    (h : Resolved cfg L mem s s') (inside : o ∈ L.dom r) (here : curArr cfg s' r = some arr) :
    curArr cfg s r = some arr ∨ mem (L.base r + o) = arr.eval σ o := by
  cases h with
  | same => exact .inl here
  | kconfig name bytes fits loaded =>
    unfold curArr at here ⊢
    split at here
    · next own => exact .inl (by rw [own]; exact here)
    next own =>
    rw [own]
    unfold initTerm Exec.sharedArr at here ⊢
    split at here
    · next shared => exact .inl (by rw [shared]; exact here)
    next shared =>
    rw [shared]
    by_cases mine : r = .kcfg cfg.tag name
    · subst mine
      simp only [List.lookup_cons_self, map_some] at here
      refine .inr ((loaded o inside).trans ?_)
      rw [← Option.some.inj here, eval_constBytes σ fits]
    · cases r with
      | kcfg tag name' =>
        rw [List.lookup_cons, beq_false_of_ne mine] at here
        exact .inl here
      | _ => exact .inl here

/-! Steps from a state that agrees with a machine state. -/

section Agree
variable (agree : Agrees cfg L σ t it exec m)
include agree

/-- One register changes, and the path goes on with the next instruction. -/
theorem put_continues {r : Nat}
    (h : Returns (goOn it (it.pc + 1) (it.regs.set r v)) s out s') (value : x = v.conc L σ)
    (mem : Represents cfg L σ t s m.mem) : Continues cfg L σ t out s'.exec (m.put r x) := by
  refine goOn_continues h ?_ (fun k => ?_) mem agree.callers
  · rw [Isa.Machine.put, agree.loc]
    rfl
  simp only [Isa.Machine.put, Regs.set, Function.update_apply]
  split
  · exact value
  · exact agree.regs k

theorem addr_conc (r : Nat) (off : Int) :
    m.addr r off = (addrAdd (it.regs r) off).conc L σ := by
  rw [conc_addrAdd, Isa.Machine.addr, agree.regs]

theorem load_continues {src : Nat} (inb : (addrAdd (it.regs src) off).InBounds L σ size.bytes)
    (readable : (addrAdd (it.regs src) off).Readable σ t size.bytes)
    (loaded : Returns (load cfg (addrAdd (it.regs src) off) size) ⟨it.mem, it.counters, exec⟩ v s)
    (h : Returns (goOn it (it.pc + 1) (it.regs.set dst v)) s out s') :
    Continues cfg L σ t out s'.exec
      (m.put dst (Flat.read m.mem (m.addr src off) size.bytes)) := by
  obtain ⟨value, cached⟩ := load_sound agree.mem loaded inb readable
  refine put_continues agree h ?_ (agree.mem.cached cached)
  rw [value, addr_conc agree]

theorem store_continues {val : Val} {u : Unit} {regs' : Nat → BitVec 64} {s₀ : St}
    (rep : Represents cfg L σ t s₀ m.mem)
    (inb : (addrAdd (it.regs dst) off).InBounds L σ size.bytes) (value : x = val.conc L σ)
    (same : ∀ r, regs' r = (regs r).conc L σ)
    (stored : Returns (store cfg (addrAdd (it.regs dst) off) size val) s₀ u s)
    (h : Returns (goOn it (it.pc + 1) regs) s out s') :
    Continues cfg L σ
      (t.store (addrAdd (it.regs dst) off).target.1
        ((addrAdd (it.regs dst) off).target.2.eval σ) size.bytes val.isPtr)
      out s'.exec { m.write (m.addr dst off) size.bytes x with regs := regs' } := by
  have sound := store_sound rep stored inb
  refine goOn_continues h ?_ same ?_ agree.callers
  · rw [Isa.Machine.write, agree.loc]
    rfl
  · rw [addr_conc agree, value]
    exact sound

theorem set_conc (k : Nat)
    (value : x = v.conc L σ) (r : Nat) :
    Function.update m.regs k x r = (it.regs.set k v r).conc L σ := by
  simp only [Regs.set, Function.update_apply]
  split
  · exact value
  · exact agree.regs r

/-- Compare and exchange: the executor stores the old value back when the comparison
fails, the machine stores nothing. -/
theorem cmpxchg_continues {src : Nat} {srcv old : Term (.bv 64)} {s₀ s₁ : St}
    (rep : Represents cfg L σ t s₀ m.mem) (narrow : size = .w ∨ size = .dw)
    (inb : (addrAdd (it.regs dst) off).InBounds L σ size.bytes)
    (source : it.regs src = .data srcv)
    (value : old.eval σ = Flat.read m.mem (m.addr dst off) size.bytes)
    (exchanged : Returns (cmpxchg cfg (addrAdd (it.regs dst) off) size srcv old it.regs) s₀ regs s₁)
    (h : Returns (goOn it (it.pc + 1) regs) s₁ out s')
    (ran : (Isa.Instr.cmpxchg size.bytes dst src off).exec link m = some m') :
    Continues cfg L σ (t.store (addrAdd (it.regs dst) off).target.1
      ((addrAdd (it.regs dst) off).target.2.eval σ) size.bytes false) out s'.exec m' := by
  simp only [cmpxchg] at exchanged
  split at exchanged
  · exact exchanged.throw
  rename_i r0 found
  obtain ⟨_, s₂, stored, exchanged⟩ := exchanged.bind
  obtain ⟨rfl, rfl⟩ := exchanged.pure
  have reg0 : m.regs 0 = r0.eval σ := by rw [agree.regs, found]; rfl
  have regS : m.regs src = srcv.eval σ := by rw [agree.regs, source]; rfl
  have written := store_continues (x := if (old.eval σ).setWidth (8 * size.bytes) =
      (m.regs 0).setWidth (8 * size.bytes) then m.regs src else old.eval σ)
    agree rep inb ?_ (set_conc agree 0 (v := .data old) rfl) stored h
  · cases ran
    rw [← value]
    by_cases equal : (old.eval σ).setWidth (8 * size.bytes) =
        (m.regs 0).setWidth (8 * size.bytes)
    · rw [if_pos equal] at written ⊢
      exact written
    rw [if_neg equal] at written ⊢
    have kept : m.write (m.addr dst off) size.bytes (old.eval σ) =
        { m with loc := m.loc.skip 1 } := by
      rw [Isa.Machine.write, value, Flat.write_read _ _ (by cases size <;> decide)]
    rw [kept] at written
    exact written
  · rw [reg0, regS]
    exact (eval_exchange narrow srcv old r0).symm

theorem atomic_follows
    (decoded : Isa.decodeAtomic ins.word = some i) (faithful : Faithful cfg L σ t it i)
    (done : Returns (atomic cfg ins it.regs what) ⟨it.mem, it.counters, exec⟩ regs s)
    (h : Returns (goOn it (it.pc + 1) regs) s out s') :
    Follows cfg L σ t it link m i out s'.exec := by
  intro m' ran
  simp only [Isa.decodeAtomic] at decoded
  simp only [atomic] at done
  split at decoded
  · rename_i acquire
    cases decoded
    cases ran
    rw [if_pos acquire] at done
    obtain ⟨v, _, loaded, done⟩ := done.bind
    obtain ⟨rfl, rfl⟩ := done.pure
    rw [← sizeOfOp_bytes] at faithful ⊢
    exact load_continues agree faithful.1 faithful.2 loaded h
  rename_i notAcquire
  rw [if_neg notAcquire] at done
  split at decoded
  · rename_i release
    cases decoded
    cases ran
    rw [if_pos release] at done
    obtain ⟨b, _, data, done⟩ := done.bind
    obtain ⟨source, rfl⟩ := needData_returns data
    obtain ⟨_, _, stored, done⟩ := done.bind
    obtain ⟨rfl, rfl⟩ := done.pure
    rw [← sizeOfOp_bytes] at faithful ⊢
    have written := store_continues agree agree.mem faithful
      (show m.regs ins.src = (Val.data b).conc L σ by rw [agree.regs, source])
      agree.regs stored h
    simp only [Track.after, source]
    exact written
  rename_i notRelease
  rw [if_neg notRelease] at done
  split at decoded
  · cases decoded
  rename_i sized
  have narrow : sizeOfOp ins.op = .w ∨ sizeOfOp ins.op = .dw := by
    rw [← sizeOfOp_bytes] at sized
    cases size : sizeOfOp ins.op <;> simp [size, Size.bytes] at sized ⊢
  rw [if_neg (by rintro ⟨h1, h2⟩; exact narrow.elim h1 h2)] at done
  obtain ⟨srcv, _, data, done⟩ := done.bind
  obtain ⟨source, rfl⟩ := needData_returns data
  obtain ⟨v, s₁, loaded, done⟩ := done.bind
  obtain ⟨old, _, data, done⟩ := done.bind
  obtain ⟨rfl, rfl⟩ := needData_returns data
  have regS : m.regs ins.src = srcv.eval σ := by rw [agree.regs, source]; rfl
  -- what the three read-modify-write forms share
  have access (inb : (addrAdd (it.regs ins.dst) ins.off).InBounds L σ
        (sizeOfOp ins.op).bytes ∧ (addrAdd (it.regs ins.dst) ins.off).Readable σ t
        (sizeOfOp ins.op).bytes) :
      old.eval σ = Flat.read m.mem (m.addr ins.dst ins.off) (sizeOfOp ins.op).bytes ∧
        Represents cfg L σ t s₁ m.mem := by
    obtain ⟨value, cached⟩ := load_sound agree.mem loaded inb.1 inb.2
    rw [addr_conc agree]
    exact ⟨value, agree.mem.cached cached⟩
  split_ifs at decoded with exchange compare
  · cases decoded
    rw [← sizeOfOp_bytes] at faithful ran ⊢
    obtain ⟨value, rep⟩ := access faithful
    rw [if_neg (show ¬ ins.imm = 0xF1 by rw [show ins.imm = 0xE1 from exchange]; decide),
      if_pos exchange] at done
    obtain ⟨_, _, stored, done⟩ := done.bind
    obtain ⟨rfl, rfl⟩ := done.pure
    cases ran
    exact store_continues agree rep faithful.1 regS
      (set_conc agree ins.src (v := .data old) value.symm) stored h
  · cases decoded
    rw [← sizeOfOp_bytes] at faithful ran ⊢
    obtain ⟨value, rep⟩ := access faithful
    rw [if_pos compare] at done
    exact cmpxchg_continues agree rep narrow faithful.1 source value done h ran
  · obtain ⟨o, found, rfl⟩ := map_eq_some_iff.mp decoded
    rw [← sizeOfOp_bytes] at faithful ran ⊢
    obtain ⟨value, rep⟩ := access faithful
    obtain ⟨op, here, sameOp⟩ := atomicOp_sound found
    rw [if_neg compare, if_neg exchange] at done
    simp only [show atomicOp ins.imm = some op from here] at done
    obtain ⟨_, _, stored, done⟩ := done.bind
    obtain ⟨rfl, rfl⟩ := done.pure
    have result : o.eval (Flat.read m.mem (m.addr ins.dst ins.off)
        (sizeOfOp ins.op).bytes) (m.regs ins.src) = (Val.data (.bin op old srcv)).conc L σ := by
      rw [← value, regS, ← sameOp]
      rfl
    cases ran
    by_cases fetch : ins.imm % 2 = 1
    · rw [if_pos fetch] at h
      simp only [fetch, decide_true, if_true]
      exact store_continues agree rep faithful.1 result
        (set_conc agree ins.src (v := .data old) value.symm) stored h
    · rw [if_neg fetch] at h
      simp only [fetch, decide_false, Bool.false_eq_true, if_false]
      exact store_continues agree rep faithful.1 result agree.regs stored h

end Agree

end BpfEquiv
