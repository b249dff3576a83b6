import BpfEquiv.FrameNumber
import BpfEquiv.Mirror
import BpfEquiv.TailCall

/-!
Calls between BPF functions are transparent.

The reference runs the body of a function on its own, with no caller below it: a call is
one step of the caller, which goes on with the memory and the counters the callee left,
with its own registers and with the callee's r0. The executor runs the callee inline, over
a stack of frames. No instruction of a body looks below its own frames, so both come to
the same end. The frame of a callee is a region that no function below it has.
-/
namespace BpfEquiv
open Smt Hoare List

variable {pc : Int} {regs : Regs} {next main entry start : Item} {r : Region}

variable {cfg : Config} {σ : Assignment} {it : Item} {ins : Insn} {what : String}
  {out : StepOut} {exec exec' : Exec} {base : List Frame}

/-! Frames below an item. -/

/-- A call of bpf_throw, which leaves every function at once. -/
def Insn.isThrow (ins : Insn) : Bool :=
  ins.isCallOp && decide ((ins.src = 1 ∨ ins.src = 2) ∧ kfuncName ins = some "bpf_throw")

/-- The callee of a call at an item: the caller's registers with a frame of its own, the
caller's memory and counters, and no frame below. -/
def Item.callee (cfg : Config) (it : Item) (target : String × Int) : Item where
  sec := target.1
  pc := target.2
  regs := it.regs.set 10
    (.ptr ⟨.stack cfg.tag (.sub (it.counters.frame + 1)), bv64 stackSize⟩)
  mem := it.mem
  conds := it.conds
  counters := { it.counters with frame := it.counters.frame + 1 }
  stack := []

/-- The item stands at an instruction that the body executes itself. -/
def Item.Plain (cfg : Config) (it : Item) : Prop :=
  ∃ ins, it.insnAt cfg = some ins ∧ ins.isSubprog = false ∧ ins.isThrow = false ∧
    (ins.isExit = true → it.stack ≠ [])

/-- A function that waits for its callee. -/
structure Activation where
  entry : Item
  call : Item

variable {a : Activation} {callers : List Activation}

def Item.ownFrame (it : Item) : Option Region :=
  match it.regs 10 with
  | .ptr p => some p.region
  | .data _ => none

/-- The stack frame of a callback in progress. -/
def Frame.region (cfg : Config) : Frame → Option Region
  | .cb f => some (.stack cfg.tag (.cb f.cbfid))
  | .sub _ _ _ => none

/-- The frames of a function that waits: its own and those of its callbacks in progress. -/
def Activation.frames (cfg : Config) (a : Activation) : List Region :=
  a.entry.ownFrame.toList ++ a.call.stack.filterMap (Frame.region cfg)

/-- The region is no frame with the number n or a higher one. -/
def Region.Below (cfg : Config) (n : Nat) (r : Region) : Prop :=
  ∀ k, n ≤ k → r ≠ .stack cfg.tag (.sub k)

theorem Region.Below.mono {n n' : Nat} (h : r.Below cfg n) (le : n ≤ n') :
    r.Below cfg n' :=
  fun k higher => h k (Nat.le_trans le higher)

end BpfEquiv
