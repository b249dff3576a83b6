import BpfEquiv.PtrHelper
import BpfEquiv.TraceSpec

/-!
What the frame of every call does: it reads its arguments, it counts the call, and
afterwards the caller-saved registers are fresh and r0 holds the result.
-/
namespace BpfEquiv
open Smt Hoare

variable {cfg : Config} {s s' : St} {what : String}

/-- The number in a register. -/
def Val.scalar (σ : Assignment) : Val → BitVec 64
  | .data t => t.eval σ
  | .ptr _ => 0

theorem concreteU64_returns {v : Val} {n : Nat} (h : Returns (concreteU64 cfg v what) s n s') :
    s = s' ∧ ∀ σ, (v.scalar σ).toNat = n := by
  unfold concreteU64 at h
  split at h
  · exact h.throw
  split at h
  · rename_i t x const
    obtain ⟨rfl, rfl⟩ := h.pure
    exact ⟨rfl, fun σ => by rw [Val.scalar, cfg.z3.constOf_eval const σ]⟩
  · exact h.throw

def St.counted (s : St) (hid : Int) : St :=
  { s with counters := { s.counters with
      calls := Function.update s.counters.calls hid (s.counters.calls hid + 1) } }

theorem nextCall_returns {hid : Int} {idx : Nat} (h : Returns (nextCall hid) s idx s') :
    idx = s.counters.calls hid ∧ s' = s.counted hid := by
  simp only [nextCall, returns_get_bind, modifyCounters, returns_modify_bind, returns_pure] at h
  exact h

theorem retClobbered_returns {regs regs' : Regs} {ret : Val}
    (h : Returns (retClobbered cfg regs ret) s regs' s') :
    regs' 0 = ret ∧ ∃ n, s' = { s with exec := { s.exec with nclobber := n } } := by
  simp only [retClobbered, returns_get_bind, modifyExec, returns_modify_bind, returns_pure] at h
  exact ⟨by rw [h.1]; rfl, _, h.2⟩

theorem forkNull_returns {regs : Regs} {isnull : Term .bool} {ret : Val} {conts : List Cont}
    (h : Returns (forkNull cfg regs isnull ret) s conts s') :
    ∃ ptrRegs nullRegs n, conts = [(some (.not isnull), ptrRegs), (some isnull, nullRegs)] ∧
      ptrRegs 0 = ret ∧ s' = { s with exec := { s.exec with nclobber := n } } := by
  obtain ⟨ptrRegs, _, first, rest⟩ := h.bind
  obtain ⟨nullRegs, _, second, rest⟩ := rest.bind
  obtain ⟨rfl, rfl⟩ := rest.pure
  obtain ⟨same, n, rfl⟩ := retClobbered_returns first
  obtain ⟨_, n', rfl⟩ := retClobbered_returns second
  exact ⟨ptrRegs, nullRegs, n', rfl, same, rfl⟩

/-- A call that may return NULL: the event and the pointer, then the two sides. -/
theorem ptrHelper_returns {hid : Int} {regs : Regs} {conts : List Cont} (forks : hid ≠ 81)
    (h : Returns (ptrHelper cfg hid regs what) s conts s') :
    ∃ ret t ptrRegs nullRegs n,
      Returns (ptrHelperRet cfg hid (s.counters.calls hid) regs what) (s.counted hid) ret t ∧
      conts = [(some (.not (.pred s!"oracle_null_h{hid}" (bv64 (s.counters.calls hid)))), ptrRegs),
        (some (.pred s!"oracle_null_h{hid}" (bv64 (s.counters.calls hid))), nullRegs)] ∧
      ptrRegs 0 = ret ∧ s' = { t with exec := { t.exec with nclobber := n } } := by
  obtain ⟨idx, _, counted, rest⟩ := h.bind
  obtain ⟨rfl, rfl⟩ := nextCall_returns counted
  obtain ⟨ret, t, returned, rest⟩ := rest.bind
  rw [if_neg forks] at rest
  obtain ⟨ptrRegs, nullRegs, n, rfl, same, rfl⟩ := forkNull_returns rest
  exact ⟨ret, t, ptrRegs, nullRegs, n, returned, rfl, same, rfl⟩

theorem helperCall_returns {hid : Int} {regs regs' : Regs}
    (h : Returns (helperCall cfg hid regs what) s regs' s') :
    ∃ ret t n, Returns (helperRet cfg hid (s.counters.calls hid) regs what) (s.counted hid) ret t ∧
      regs' 0 = .data ret ∧ s' = { t with exec := { t.exec with nclobber := n } } := by
  obtain ⟨idx, _, counted, rest⟩ := h.bind
  obtain ⟨rfl, rfl⟩ := nextCall_returns counted
  obtain ⟨ret, t, returned, rest⟩ := rest.bind
  obtain ⟨same, n, rfl⟩ := retClobbered_returns rest
  exact ⟨ret, t, n, returned, same, rfl⟩

end BpfEquiv
