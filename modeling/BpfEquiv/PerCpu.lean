import BpfEquiv.Asm
import BpfEquiv.Canon
import BpfEquiv.CallSpec

/-!
Identity of per-cpu pointers.

In the kernel bpf_per_cpu_ptr and bpf_this_cpu_ptr return one pointer for one variable on
one cpu. The executor names the returned region after the helper and the region of the
argument alone.
-/
namespace BpfEquiv
open Smt Hoare

def hPerCpuPtr : Int := 153
def hThisCpuPtr : Int := 154

/-! In the kernel. -/

variable (cfg : Config) (σ : Assignment)

/-- The cpu a call denotes; me is the one the program runs on. -/
def cpuOf (me : BitVec 32) (hid : Int) (regs : Regs) : BitVec 32 :=
  if hid = hPerCpuPtr then ((regs 2).scalar σ).setWidth 32 else me

/-- Two arguments are the same variable. -/
def SameSource : Val → Val → Prop
  | .ptr p, .ptr q => p.region = q.region ∧ p.off.eval σ = q.off.eval σ
  | .data t, .data u => t.eval σ = u.eval σ
  | _, _ => False

/-- Two calls denote the same variable on the same cpu. -/
def SameView (me : BitVec 32) (hid hid' : Int) (regs regs' : Regs) : Prop :=
  SameSource σ (regs 1) (regs' 1) ∧ cpuOf σ me hid regs = cpuOf σ me hid' regs'

/-! In the executor. -/

/-- The pointer of the first continuation of a call. -/
def returnedPtr (conts : List Cont) : Option Val := conts.head?.map fun c => c.2 0

/-- Two arguments that the executor does not tell apart: pointers into regions of one
canonical name at any offsets, or any two scalars. -/
def SameName : Val → Val → Prop
  | .ptr p, .ptr q => canonRegion cfg p.region = canonRegion cfg q.region
  | .data _, .data _ => True
  | _, _ => False

theorem SameSource.sameName {σ : Assignment} {v w : Val} (h : SameSource σ v w) :
    SameName cfg v w := by
  cases v <;> cases w
  · trivial
  · exact h.elim
  · exact h.elim
  · exact congrArg (canonRegion cfg) h.1

theorem Region.name_ne_scalar (r : Region) : r.name ≠ "scalar" := by
  intro h
  have chars := congrArg String.toList h
  cases r with
  | stack tag frame => cases frame <;> simp [Region.name, String.toList_append] at chars
  | ctx | kmem | trace | sysret | skbdata => exact absurd h (by decide)
  | cbkey mname fid i => exact absurd (congrArg List.head? chars) (by simp [Region.name, toString])
  | _ => simp [Region.name, String.toList_append] at chars

theorem canonRegion_ne_scalar (r : Region) : canonRegion cfg r ≠ "scalar" := by
  intro h
  have fields := fields_canonRegion cfg r
  rw [h] at fields
  have one : r.fields.length = 1 := by
    rw [← canonFields_length cfg.tag.toList, ← fields]
    rfl
  obtain ⟨f, single⟩ := List.length_eq_one_iff.mp one
  have same : r.fields = ["scalar".toList] := by
    rw [single] at fields ⊢
    exact fields.symm
  have joined := congrArg (joinWith ':') same
  rw [Region.fields, joinWith_splitOn] at joined
  exact r.name_ne_scalar (String.toList_inj.mp joined)

theorem perCpuRegion_eq_iff (hid hid' : Int) (v w : Val) :
    perCpuRegion cfg hid v = perCpuRegion cfg hid' w ↔ hid = hid' ∧ SameName cfg v w := by
  simp only [perCpuRegion, Region.mapval.injEq, MapvalKey.percpu.injEq]
  refine and_congr_right fun _ => ?_
  cases v with
  | data t =>
    cases w with
    | data u => exact iff_of_true rfl trivial
    | ptr q => exact iff_of_false (canonRegion_ne_scalar cfg q.region).symm id
  | ptr p =>
    cases w with
    | data u => exact iff_of_false (canonRegion_ne_scalar cfg p.region) id
    | ptr q => exact Iff.rfl

theorem perCpu_returns {cfg : Config} {hid : Int} {regs : Regs} {what : String} {s s' : St}
    {conts : List Cont} (helper : hid = hPerCpuPtr ∨ hid = hThisCpuPtr)
    (h : Returns (ptrHelper cfg hid regs what) s conts s') :
    returnedPtr conts = some (.ptr ⟨perCpuRegion cfg hid (regs 1), bv64 0⟩) := by
  have forks : hid ≠ 81 := by
    rcases helper with rfl | rfl <;> decide
  obtain ⟨ret, t, ptrRegs, nullRegs, n, returned, rfl, same, _⟩ := ptrHelper_returns forks h
  have call : ptrHelperRet cfg hid (s.counters.calls hid) regs what =
      perCpuPtr cfg hid regs what := by
    rcases helper with rfl | rfl <;> rfl
  rw [call] at returned
  obtain ⟨src, s₁, _, rest⟩ := returned.bind
  obtain ⟨cpu, s₂, _, rest⟩ := rest.bind
  obtain ⟨_, s₃, _, rest⟩ := rest.bind
  obtain ⟨rfl, _⟩ := rest.pure
  simp only [returnedPtr, List.head?_cons, Option.map_some, same]

/-- What the executor's naming leaves out makes no difference: two calls of one helper on
arguments of one name are given the same variable and cpu, and calls of the two helpers
denote different variables or cpus. -/
def NamedApart (me : BitVec 32) (hid hid' : Int)
    (regs regs' : Regs) : Prop :=
  (hid = hid' → SameName cfg (regs 1) (regs' 1) → SameView σ me hid hid' regs regs') ∧
    (hid ≠ hid' → ¬ SameView σ me hid hid' regs regs')

/-- Two per-cpu pointers alias as they do in the kernel exactly when the arguments the
executor does not tell apart, or tells apart by the helper alone, are such. -/
theorem per_cpu_pointers_alias (cfg : Config) (σ : Assignment) (me : BitVec 32) (hid hid' : Int)
    (regs regs' : Regs) (what what' : String) (s₁ s₂ t₁ t₂ : St) (conts conts' : List Cont)
    (helper : hid = hPerCpuPtr ∨ hid = hThisCpuPtr)
    (helper' : hid' = hPerCpuPtr ∨ hid' = hThisCpuPtr)
    (call : Returns (ptrHelper cfg hid regs what) s₁ conts s₂)
    (call' : Returns (ptrHelper cfg hid' regs' what') t₁ conts' t₂) :
    (returnedPtr conts = returnedPtr conts' ↔ SameView σ me hid hid' regs regs') ↔
      NamedApart cfg σ me hid hid' regs regs' := by
  have aliasing : returnedPtr conts = returnedPtr conts' ↔
      hid = hid' ∧ SameName cfg (regs 1) (regs' 1) := by
    rw [perCpu_returns helper call, perCpu_returns helper' call', ← perCpuRegion_eq_iff]
    simp
  rw [aliasing, NamedApart]
  constructor
  · intro exact'
    exact ⟨fun same name => exact'.mp ⟨same, name⟩, fun other view => other (exact'.mpr view).1⟩
  rintro ⟨one, two⟩
  refine ⟨fun h => one h.1 h.2, fun view => ?_⟩
  by_cases same : hid = hid'
  · exact ⟨same, view.1.sameName cfg⟩
  · exact absurd view (two same)

/-! Calls on given arguments. -/

def perCpuRegs (src cpu : Val) : Regs := fun i => [.data (bv64 0), src, cpu].getD i (.data (bv64 0))

def perCpuCall (hid : Int) (src cpu : Val) : Except Err (List Cont × St) :=
  (ptrHelper (plainConfig "tc" []) hid (perCpuRegs src cpu) "").run ⟨.empty, .zero, baseExec⟩

/-- The pointer a call on given arguments returns. -/
def perCpuRet (hid : Int) (src cpu : Val) : Option Val :=
  (perCpuCall hid src cpu).toOption.bind fun r => returnedPtr r.1

theorem per_cpu_pointers_alias_globals :
    perCpuRet hPerCpuPtr (.ptr ⟨.g "x", bv64 0⟩) (.data (bv64 0)) ≠
      perCpuRet hPerCpuPtr (.ptr ⟨.g "y", bv64 0⟩) (.data (bv64 0)) := by
  have ran (name : String) (known : name = "x" ∨ name = "y") : ∃ r,
      perCpuCall hPerCpuPtr (.ptr ⟨.g name, bv64 0⟩) (.data (bv64 0)) = .ok r := by
    have some' : (perCpuCall hPerCpuPtr (.ptr ⟨.g name, bv64 0⟩)
        (.data (bv64 0))).toOption.isSome := by
      rcases known with rfl | rfl <;> decide +kernel
    cases called : perCpuCall hPerCpuPtr (.ptr ⟨.g name, bv64 0⟩) (.data (bv64 0)) with
    | ok r => exact ⟨r, rfl⟩
    | error e =>
      rw [called] at some'
      cases some'
  obtain ⟨x, calledX⟩ := ran "x" (.inl rfl)
  obtain ⟨y, calledY⟩ := ran "y" (.inr rfl)
  have apart : ¬ SameView default 0 hPerCpuPtr hPerCpuPtr
      (perCpuRegs (.ptr ⟨.g "x", bv64 0⟩) (.data (bv64 0)))
      (perCpuRegs (.ptr ⟨.g "y", bv64 0⟩) (.data (bv64 0))) := by
    rintro ⟨⟨same, _⟩, _⟩
    exact absurd same (by decide)
  have names : canonRegion (plainConfig "tc" []) (.g "x") ≠
      canonRegion (plainConfig "tc" []) (.g "y") := by
    decide +kernel
  have exact' := (per_cpu_pointers_alias _ default 0 _ _ _ _ _ _ _ _ _ _ _ _ (.inl rfl) (.inl rfl)
    calledX calledY).mpr ⟨fun _ name => absurd name names, fun other => absurd rfl other⟩
  simp only [perCpuRet, calledX, calledY, Except.toOption, Option.bind_some]
  exact fun same => apart (exact'.mp same)

/-- Two kernel variables a and b, of which one is read through its per-cpu pointer. -/
def ksymWords (reg : Nat) : List Word :=
  [word 0x18 1 0 0 0, word 0 0 0 0 0, word 0x85 0 0 0 154, word 0x15 0 0 7 0, word 0xbf 6 0 0 0,
    word 0x18 1 0 0 0, word 0 0 0 0 0, word 0x85 0 0 0 154, word 0x15 0 0 2 0, word 0xbf 7 0 0 0,
    word 0x71 0 reg 0 0, word 0x95 0 0 0 0]

def ksymSide (reg : Nat) : Side :=
  let ws := ksymWords reg
  objectSide (object "tc" ws [(0, symbolAt "a" 0 0 0), (5, symbolAt "b" 0 0 0)] [] none) "tc" ws

/-- Distinct scalars, distinct offsets and distinct cpus give one pointer, one variable on
one cpu gives two, and a program that reads the wrong variable is declared EQUIV. -/
theorem per_cpu_pointers_collapse :
    perCpuRet hPerCpuPtr (.data (bv64 1)) (.data (bv64 0)) =
        perCpuRet hPerCpuPtr (.data (bv64 2)) (.data (bv64 0)) ∧
      perCpuRet hPerCpuPtr (.data (bv64 1)) (.data (bv64 0)) =
        perCpuRet hPerCpuPtr (.data (bv64 1)) (.data (bv64 1)) ∧
      perCpuRet hPerCpuPtr (.ptr ⟨.g "x", bv64 0⟩) (.data (bv64 0)) =
        perCpuRet hPerCpuPtr (.ptr ⟨.g "x", bv64 8⟩) (.data (bv64 0)) ∧
      perCpuRet hPerCpuPtr (.ptr ⟨.g "x", bv64 0⟩) (.data (bv64 0)) ≠
        perCpuRet hThisCpuPtr (.ptr ⟨.g "x", bv64 0⟩) (.data (bv64 0)) ∧
      verdictOn (ksymSide 6) (ksymSide 7) = some .equiv := by
  decide +kernel

end BpfEquiv
