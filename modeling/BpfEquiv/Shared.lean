import BpfEquiv.Effects
import BpfEquiv.Verdict

/-!
What a run adds to the table of shared arrays.

The executor never replaces an entry of the table. It adds one when a path first uses a
map value, a ring buffer record, a key or an argument of a callback or an arena page, and
the array it adds depends on the region alone. So the contents that a region starts with
are the same for both objects and for every pair, whatever was run before.
-/
namespace BpfEquiv
open Smt Hoare List Option

variable {callback : Bool} {fuel : Nat} {tb : Tables} {s s' : Session}

/-- The table with first uses added. -/
def Extends (t t' : List (Region × Term .arr)) : Prop :=
  ∃ more, t' = t ++ more ∧ ∀ e ∈ more, FirstUse e

theorem Extends.refl (t : List (Region × Term .arr)) : Extends t t :=
  ⟨[], (append_nil t).symm, nofun⟩

theorem Extends.snoc (t : List (Region × Term .arr)) {e : Region × Term .arr} (first : FirstUse e) :
    Extends t (t ++ [e]) :=
  ⟨[e], rfl, forall_mem_singleton.mpr first⟩

theorem Extends.trans {t t' t'' : List (Region × Term .arr)} (h : Extends t t')
    (h' : Extends t' t'') : Extends t t'' := by
  obtain ⟨more, rfl, first⟩ := h
  obtain ⟨more', rfl, first'⟩ := h'
  exact ⟨more ++ more', append_assoc t more more', forall_mem_append.mpr ⟨first, first'⟩⟩

/-- The regions that only the driver puts in the table, or nobody. -/
def Region.fixed : Region → Bool
  | .mapval _ | .rbuf _ | .cbkey _ _ _ | .cbarg _ | .arenapg _ => false
  | _ => true

theorem Extends.lookup {t t' : List (Region × Term .arr)} (h : Extends t t') {r : Region}
    (fixed : r.fixed = true) : t'.lookup r = t.lookup r := by
  obtain ⟨more, rfl, first⟩ := h
  have absent : more.lookup r = none := by
    refine lookup_eq_none_iff.mpr fun e member => ?_
    rw [bne_iff_ne]
    rintro rfl
    have used := first e member
    unfold FirstUse at used
    unfold Region.fixed at fixed
    split at used <;> simp_all
  rw [lookup_append, absent, or_none]

/-- From one state of the executor to a later one. -/
def Adds (s s' : St) : Prop := Extends s.exec.shared s'.exec.shared

instance : IsPreorder St Adds where
  refl s := .refl s.exec.shared
  trans _ _ _ h h' := Extends.trans h h'

theorem Adds.of_eq {s s' : St} (same : s'.exec.shared = s.exec.shared) : Adds s s' := by
  rw [Adds, same]
  exact .refl _

instance : Footprint Adds where
  mem _ _ := .of_eq rfl
  counters _ _ _ := .of_eq rfl
  exec _ _ same := .of_eq same
  first s _ _ used := .snoc s.exec.shared used

/-! Runs. -/

variable {cfg : Config} {it : Item}

theorem step_extends {exec exec' : Exec} {out : StepOut}
    (h : step cfg it exec = .ok (out, exec')) : Extends exec.shared exec'.shared := by
  unfold step at h
  split at h
  · rename_i ran
    cases h
    exact stepItem_moves (R := Adds) cfg it _ _ _ ran
  · cases h

theorem next_extends {r r' : Run} (h : r.next cfg = .ok (.running r')) :
    Extends r.exec.shared r'.exec.shared := by
  obtain ⟨_, _, _, _, -, -, stepped, rfl⟩ | ⟨_, _, -, -, -, rfl⟩ := Run.next_running h
  · exact step_extends stepped
  · exact .refl _

theorem addCbargs_extends (exec : Exec) (k : Nat) :
    Extends exec.shared (addCbargs exec k).shared := by
  induction k with
  | zero => exact .refl _
  | succ k ih =>
    rw [addCbargs]
    split
    · exact ih
    · exact ih.trans (.snoc _ rfl)

theorem initRun_extends {exec : Exec} {entryPc : Int} :
    Extends exec.shared (initRun cfg exec entryPc callback).exec.shared := by
  rw [initRun]
  dsimp only
  split
  · exact addCbargs_extends exec 5
  · exact .refl _

theorem run_extends {exec exec' : Exec} {entryPc : Int}
    {paths : List Path} (h : run cfg exec entryPc callback fuel = some (.ok (paths, exec'))) :
    Extends exec.shared exec'.shared := by
  obtain ⟨r, reached, returned⟩ := Run.exec?_returned
    (fun r => Extends exec.shared r.exec.shared)
    (fun _ _ before next => before.trans (next_extends next)) initRun_extends h
  exact (Run.next_returned returned).2.2.2 ▸ reached

theorem runSide_extends {sigs : String → Option KfuncSig} {side : Side}
    {tag : String} {paths : List Path}
    (h : runSide tb sigs side tag callback fuel s = some (.ok (paths, s'))) :
    Extends s.shared s'.shared := by
  obtain ⟨exec, ran, rfl⟩ := runSide_runs h
  exact run_extends ran

theorem checkProgram_extends {func : String} {a b : Side} {answer : Verdict × String}
    (h : checkProgram tb func a b callback fuel s = some (.ok (answer, s'))) :
    Extends s.shared s'.shared := by
  obtain ⟨pa, pb, sA, sB, ranA, ranB, _, same⟩ := checkProgram_runs h
  rw [same]
  exact (runSide_extends ranA).trans (runSide_extends ranB)

end BpfEquiv
