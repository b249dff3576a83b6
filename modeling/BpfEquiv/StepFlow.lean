import BpfEquiv.StepData

/-!
Jumps, calls and exits against the machine. A conditional jump leaves the side whose
condition holds; a call enters the frame the machine enters; a helper or a kernel
function comes back behind the call with the callee-saved registers it found.
-/
namespace BpfEquiv
open Smt Hoare List

variable {sec : String} {pc : Int} {regs : Regs} {conds : Conds}

variable {cfg : Config} {L : Layout} {σ : Assignment} {t : Track} {it : Item} {s s' : St}
  {out : StepOut} {m m' : Isa.Machine} {ins : Insn} {link : Isa.Linkage} {i : Isa.Instr}
  {exec : Exec} {what : String}

/-! Jumps. -/

theorem resume_returns
    {stack : List Frame} {next : Item} (h : Returns (resume it sec pc regs conds stack) s next s') :
    next = ⟨sec, pc, regs, s.mem, conds, s.counters, stack⟩ ∧ s = s' := by
  simp only [resume, returns_get_bind, returns_pure] at h
  obtain ⟨rfl, rfl⟩ := h
  exact ⟨rfl, rfl⟩

end BpfEquiv
