import BpfEquiv.Asm
import BpfEquiv.Coverage
import BpfEquiv.Exc

/-!
What the verdicts say. EQUIV: under every assignment the two paths it selects agree in
every compared region and in the compared part of r0. Any other decided verdict: under some
assignment they do not.
-/
namespace BpfEquiv
open Smt Hoare List Option

def Selects (σ : Assignment) (paths : List Path) (p : Path) : Prop :=
  ∃ before after, paths = before ++ p :: after ∧ Holds σ p.conds ∧
    ∀ q ∈ before, ¬ Holds σ q.conds

variable {σ : Assignment} {z : Solver} {query : Nat} {retBits : Option Nat} {note : String}
  {shared : List (Region × Term .arr)} {pa pb : List Path} {p q : Path}

theorem Selects.eval_iteFold {s : Srt} {value : Path → Term s} {t : Term s}
    (h : Selects σ pa p) (folded : iteFold value pa = some t) :
    t.eval σ = (value p).eval σ := by
  obtain ⟨before, after, rfl, held, others⟩ := h
  obtain ⟨t', folded', same⟩ := BpfEquiv.eval_iteFold value before after held others
  rw [folded'] at folded
  cases folded
  exact same

def RetAgrees (σ : Assignment) (retBits : Option Nat) (a b : Term (.bv 64)) : Prop :=
  match retBits with
  | some bits => if bits ≤ 32 then (a.eval σ).extractLsb' 0 32 = (b.eval σ).extractLsb' 0 32
      else a.eval σ = b.eval σ
  | none => a.eval σ = b.eval σ

section Compared
variable {ra rb : Term (.bv 64)} {memEq : List Eqn} {v : Verdict}

/-- What a comparison decides about an assignment. -/
def Agreed (σ : Assignment) (retBits : Option Nat) (pa pb : List Path) (ra rb : Term (.bv 64))
    (memEq : List Eqn) : Prop :=
  (∀ e ∈ memEq, e.Holds σ) ∧
    (retObservable retBits (voidRet "A" pa) (voidRet "B" pb) = true → RetAgrees σ retBits ra rb)

theorem retEqn_holds :
    (∀ e ∈ retEqn (some (retPair retBits ra rb)), e.Holds σ) ↔ RetAgrees σ retBits ra rb := by
  cases retBits with
  | none => exact forall_mem_singleton
  | some bits =>
    simp only [RetAgrees, retPair]
    split
    · exact forall_mem_singleton
    · exact forall_mem_singleton

theorem eqns_hold :
    (∀ e ∈ retEqn (if retObservable retBits (voidRet "A" pa) (voidRet "B" pb) then
      some (retPair retBits ra rb) else none) ++ memEq, e.Holds σ) ↔
      Agreed σ retBits pa pb ra rb memEq := by
  rw [forall_mem_append, and_comm, Agreed]
  refine and_congr_right fun _ => ?_
  split_ifs with observed
  · simp only [retEqn_holds, observed, forall_const]
  · simp [retEqn, observed]

/-- The ends of a comparison. All but the proved and the undecided one rest on an assignment
under which an equation fails. -/
theorem compare_cases (h : compare z query retBits shared pa pb ra rb memEq = (v, note)) :
    v = .unknown ∨ (v = .equiv ∧ ∀ σ, Agreed σ retBits pa pb ra rb memEq) ∨
      (∃ σ, ¬ Agreed σ retBits pa pb ra rb memEq) ∧ (v = .bail ∨ v = .inequiv ∨
        v = .equiv32 ∧ (∀ bits ∈ retBits, 32 < bits) ∧ ∀ σ, (∀ e ∈ memEq, e.Holds σ) ∧
          (ra.eval σ).extractLsb' 0 32 = (rb.eval σ).extractLsb' 0 32) := by
  simp only [compare] at h
  split at h
  · rename_i proved
    cases h
    exact .inr (.inl ⟨rfl, fun σ => eqns_hold.mp (z.prove_proved _ _ proved σ)⟩)
  · cases h
    exact .inl rfl
  rename_i m refuted
  obtain ⟨σ, e, member, fails⟩ := z.prove_refuted _ _ m refuted
  refine .inr (.inr ⟨⟨σ, fun agreed => fails (eqns_hold.mpr agreed e member)⟩, ?_⟩)
  generalize unresolvedRegisters z _ = priv, inequivDetail _ _ _ _ = detail at h
  split at h
  · cases h
    exact .inl rfl
  split at h
  · rename_i wide proved
    cases h
    have all := z.prove_proved _ _ proved
    refine .inr (.inr ⟨rfl, fun bits declared => ?_, fun σ =>
      ⟨fun e member => all σ e (.tail _ member), all σ _ (.head _)⟩⟩)
    cases declared
    exact of_decide_eq_true (Bool.and_eq_true_iff.mp wide).2
  · cases h
    exact .inr (.inl rfl)

theorem judge_folds (h : judge z query retBits shared pa pb = .ok (v, note)) :
    ∃ ra rb memEq, summarizeRet pa = some ra ∧ summarizeRet pb = some rb ∧
      (obsRegions shared).mapM (memEqn shared pa pb) = some memEq ∧
      compare z query retBits shared pa pb ra rb memEq = (v, note) := by
  unfold judge at h
  split at h
  · next ra rb memEq foldA foldB mems => exact ⟨ra, rb, memEq, foldA, foldB, mems, Except.ok.inj h⟩
  · cases h

/-! Selected paths. -/

/-- The equation of a region compares what the selected paths leave in it. -/
theorem memEqn_holds (hp : Selects σ pa p) (hq : Selects σ pb q) {region : Region} {e : Eqn}
    (h : memEqn shared pa pb region = some e) :
    ∃ init, shared.lookup region = some init ∧
      (e.Holds σ ↔ (finalArr init region p).eval σ = (finalArr init region q).eval σ) := by
  obtain ⟨a, sumA, h⟩ := bind_eq_some_iff.mp h
  obtain ⟨b, sumB, h⟩ := bind_eq_some_iff.mp h
  cases h
  obtain ⟨init, here, foldA⟩ := bind_eq_some_iff.mp sumA
  simp only [summarize, here, bind_some] at sumB
  refine ⟨init, here, ?_⟩
  rw [← hp.eval_iteFold foldA, ← hq.eval_iteFold sumB]
  rfl

/-- Two paths leave the same in every compared region and, where it is compared, in r0. -/
def PathsAgree (σ : Assignment) (retBits : Option Nat) (shared : List (Region × Term .arr))
    (pa pb : List Path) (p q : Path) : Prop :=
  (∀ region ∈ obsRegions shared, ∀ init, shared.lookup region = some init →
    (finalArr init region p).eval σ = (finalArr init region q).eval σ) ∧
  (retObservable retBits (voidRet "A" pa) (voidRet "B" pb) = true →
    RetAgrees σ retBits p.ret q.ret)

theorem memEqns_hold (hp : Selects σ pa p) (hq : Selects σ pb q)
    (mems : (obsRegions shared).mapM (memEqn shared pa pb) = some memEq) :
    (∀ e ∈ memEq, e.Holds σ) ↔ ∀ region ∈ obsRegions shared, ∀ init,
      shared.lookup region = some init →
        (finalArr init region p).eval σ = (finalArr init region q).eval σ := by
  constructor
  · intro holds region member init here
    obtain ⟨e, listed, eqn⟩ := Exc.exists_of_mapM mems member
    obtain ⟨_, found, same⟩ := memEqn_holds hp hq eqn
    cases found.symm.trans here
    exact same.mp (holds e listed)
  · intro agree e listed
    obtain ⟨region, member, eqn⟩ := Exc.exists_of_forall₂ (Exc.mapM_eq_some_iff.mp mems).flip listed
    obtain ⟨init, found, same⟩ := memEqn_holds hp hq eqn
    exact same.mpr (agree region member init found)

theorem agreed_iff (hp : Selects σ pa p) (hq : Selects σ pb q) (foldA : summarizeRet pa = some ra)
    (foldB : summarizeRet pb = some rb)
    (mems : (obsRegions shared).mapM (memEqn shared pa pb) = some memEq) :
    Agreed σ retBits pa pb ra rb memEq ↔ PathsAgree σ retBits shared pa pb p q := by
  simp only [Agreed, PathsAgree, memEqns_hold hp hq mems, RetAgrees, hp.eval_iteFold foldA,
    hq.eval_iteFold foldB]

theorem judge_equiv (h : judge z query retBits shared pa pb = .ok (.equiv, note))
    (hp : Selects σ pa p) (hq : Selects σ pb q) : PathsAgree σ retBits shared pa pb p q := by
  obtain ⟨ra, rb, memEq, foldA, foldB, mems, compared⟩ := judge_folds h
  obtain h | ⟨_, agreed⟩ | ⟨_, h | h | ⟨h, _⟩⟩ := compare_cases compared
  · cases h
  · exact (agreed_iff hp hq foldA foldB mems).mp (agreed σ)
  all_goals cases h

end Compared

/-! One program pair. -/

variable {callback : Bool} {fuel : Nat} {tb : Tables} {s s' : Session}

theorem runSide_runs {sigs : String → Option KfuncSig} {side : Side} {tag : String}
    (h : runSide tb sigs side tag callback fuel s = some (.ok (pa, s'))) :
    ∃ exec, run (executor tb sigs side tag) (freshExec s) side.entry callback fuel =
      some (.ok (pa, exec)) ∧ s' = ⟨exec.shared, exec.queries⟩ := by
  obtain ⟨res, ran, mapped⟩ := map_eq_some_iff.mp h
  cases res with
  | error e => cases mapped
  | ok out =>
    cases mapped
    exact ⟨_, ran, rfl⟩

theorem runSide_selects {sigs : String → Option KfuncSig} {side : Side} {tag : String}
    (h : runSide tb sigs side tag callback fuel s = some (.ok (pa, s'))) (σ : Assignment) :
    ∃ p, Selects σ pa p := by
  obtain ⟨exec, ran, _⟩ := runSide_runs h
  obtain ⟨before, p, after, rfl, held, others⟩ := selected_of_live (run_covered ran σ)
  exact ⟨p, before, after, rfl, held, fun q member => others q (mem_append_left after member)⟩

/-- What a check returned, taken apart into the two runs and the comparison. -/
theorem checkProgram_runs {func : String} {a b : Side} {answer : Verdict × String}
    (h : checkProgram tb func a b callback fuel s = some (.ok (answer, s'))) :
    ∃ pa pb sA sB,
      runSide tb (agreedKfuncSigs a.elf b.elf tb.kfuncSigs) a "A" callback fuel s =
        some (.ok (pa, sA)) ∧
      runSide tb (agreedKfuncSigs a.elf b.elf tb.kfuncSigs) b "B" callback fuel sA =
        some (.ok (pb, sB)) ∧
      judge tb.z3 sB.queries (a.elf.funcRetBits func) sB.shared pa pb = .ok answer ∧
      s'.shared = sB.shared := by
  unfold checkProgram at h
  obtain ⟨resA, ranA, h⟩ := bind_eq_some_iff.mp h
  match resA with
  | .error e => cases h
  | .ok (pa, sA) =>
    obtain ⟨resB, ranB, rest⟩ := map_eq_some_iff.mp h
    obtain ⟨⟨pb, sB⟩, rfl, last⟩ := Exc.bind_eq_ok.mp rest
    obtain ⟨verdict, judged, same⟩ := Exc.bind_eq_ok.mp last
    cases same
    exact ⟨pa, pb, sA, sB, ranA, ranB, judged, rfl⟩

/-- A decided verdict is exact about the returned paths. -/
theorem verdict_exact {func : String} {a b : Side} {v : Verdict}
    (h : checkProgram tb func a b callback fuel s = some (.ok ((v, note), s')))
    (decided : v ≠ .unknown) :
    ∃ pa pb sA sB,
      runSide tb (agreedKfuncSigs a.elf b.elf tb.kfuncSigs) a "A" callback fuel s =
        some (.ok (pa, sA)) ∧
      runSide tb (agreedKfuncSigs a.elf b.elf tb.kfuncSigs) b "B" callback fuel sA =
        some (.ok (pb, sB)) ∧
      (v = .equiv → ∀ σ p q, Selects σ pa p → Selects σ pb q →
        PathsAgree σ (a.elf.funcRetBits func) sB.shared pa pb p q) ∧
      (v ≠ .equiv → ∃ σ p q, Selects σ pa p ∧ Selects σ pb q ∧
        ¬ PathsAgree σ (a.elf.funcRetBits func) sB.shared pa pb p q) := by
  obtain ⟨pa, pb, sA, sB, ranA, ranB, judged, _⟩ := checkProgram_runs h
  refine ⟨pa, pb, sA, sB, ranA, ranB, ?_, fun other => ?_⟩
  · rintro rfl σ p q hp hq
    exact judge_equiv judged hp hq
  obtain ⟨ra, rb, memEq, foldA, foldB, mems, compared⟩ := judge_folds judged
  obtain undecided | ⟨equiv, _⟩ | ⟨⟨σ, fails⟩, _⟩ := compare_cases compared
  · exact absurd undecided decided
  · exact absurd equiv other
  -- the refuting assignment selects a path of either side
  obtain ⟨p, hp⟩ := runSide_selects ranA σ
  obtain ⟨q, hq⟩ := runSide_selects ranB σ
  exact ⟨σ, p, q, hp, hq, fun agree => fails ((agreed_iff hp hq foldA foldB mems).mpr agree)⟩

/-- Whether two words differ where every input is zero. -/
def differAtZero : Eqn → Bool
  | .bv a b => decide (a.eval default ≠ b.eval default)
  | .arr _ _ => false

/-- Proves nothing, and refutes where the zero inputs do. -/
def refuting : Solver :=
  { Solver.folding with
    prove _ es :=
      if es.any differAtZero then .refuted ⟨(·.eval default), fun _ => true⟩ else .unknown
    prove_proved _ es h := by split at h <;> cases h
    prove_refuted _ es m h := by
      split at h
      · rename_i some
        obtain ⟨e, member, differ⟩ := any_eq_true.mp some
        cases e with
        | bv a b =>
          exact ⟨default, _, member,
            of_decide_eq_true (p := a.eval default ≠ b.eval default) differ⟩
        | arr a b => cases differ
      · cases h }

def constSide (imm : Int) : Side :=
  let ws := [word 0xb7 0 0 0 imm, word 0x95 0 0 0 0]
  objectSide (object "tc" ws [] [] none) "tc" ws

theorem verdict_exact_constants : ∃ note s',
    checkProgram { plainTables with z3 := refuting } "prog" (constSide 1) (constSide 0) false 200
        ⟨baseShared, 0⟩ = some (.ok ((.inequiv, note), s')) ∧
      ∃ pa pb shared σ p q, Selects σ pa p ∧ Selects σ pb q ∧
        ¬ PathsAgree σ none shared pa pb p q := by
  have answer : ((checkProgram { plainTables with z3 := refuting } "prog"
    (constSide 1) (constSide 0)
      false 200 ⟨baseShared, 0⟩).bind Except.toOption).map (·.1.1) = some .inequiv := by
    decide +kernel
  obtain ⟨⟨⟨v, note⟩, s'⟩, checked, same⟩ := map_eq_some_iff.mp answer
  obtain ⟨res, returned, ok⟩ := bind_eq_some_iff.mp checked
  cases res with
  | error e => cases ok
  | ok out =>
    cases ok
    cases same
    obtain ⟨pa, pb, _, sB, _, _, _, differs⟩ := verdict_exact returned (by decide)
    exact ⟨note, s', returned, pa, pb, sB.shared, differs (by decide)⟩

end BpfEquiv
