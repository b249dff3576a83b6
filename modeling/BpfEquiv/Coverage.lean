import BpfEquiv.Hoare
import BpfEquiv.Smt.Split
import BpfEquiv.Asm

/-!
Path coverage. Every instruction splits the executions of its item among the items
it continues or queues and the paths it ends. Over a whole run each assignment of
the inputs therefore selects exactly one of the returned paths.
-/
namespace BpfEquiv
open Smt Hoare List Bool Option

variable {sec name : String} {pc : Int} {conds : Conds} {stack : List Frame} {c : Term .bool}
  {ret : Val} {idx : Nat} {ins : Insn} {exec : Exec} {paths : List Path} {s : Srt}

/-- Condition lists of everything a step leaves behind. -/
def StepOut.alive (out : StepOut) : List Conds :=
  (out.next.toList ++ out.pushed).map (·.conds) ++ out.ended.map (·.conds)

variable {cfg : Config} {it : Item} {regs : Regs} {what : String}

/-! Single continuations. -/

theorem resume_conds :
    Ensures (resume it sec pc regs conds stack) fun next => next.conds = conds :=
  .andThen fun _ => .pure rfl

theorem goOn_splits :
    Ensures (goOn it pc regs) fun out => Splits it.conds out.alive := by
  refine .bind (resume_conds) fun next kept => .pure ?_
  simpa [StepOut.alive, kept] using splits_self it.conds

theorem enter_splits :
    Ensures (enter it sec pc regs stack) fun out => Splits it.conds out.alive := by
  refine .bind (resume_conds) fun next kept => .pure ?_
  simpa [StepOut.alive, kept] using splits_self it.conds

theorem ended_splits (ret : Term (.bv 64)) (mem : Mem) :
    Splits it.conds (StepOut.alive ⟨none, [], [⟨it.conds, ret, mem⟩]⟩) := by
  simpa [StepOut.alive] using splits_self it.conds

/-! Calls that fork. -/

/-- The continuations of a call split every path that reaches it. -/
def ContsSplit (conts : List Cont) : Prop :=
  ∀ cs : Conds, Splits cs (conts.map fun c => cs ++ condList c.1)

theorem contsSplit_one (regs : Regs) : ContsSplit [(none, regs)] := by
  intro cs
  simpa [condList] using splits_self cs

theorem contsSplit_pair {d : Term .bool} (regs regs' : Regs)
    (compl : ∀ σ, d.eval σ = !c.eval σ) : ContsSplit [(some c, regs), (some d, regs')] := by
  intro cs
  exact splits_fork true true compl nofun nofun

/-- A call leaves the callee-saved registers as they were. -/
def KeepsSaved (regs regs' : Regs) : Prop := ∀ r, 6 ≤ r → regs' r = regs r

/-- What the continuations of a call have in common: they split every path, and each
keeps the callee-saved registers. -/
def ContsOf (regs : Regs) (conts : List Cont) : Prop :=
  ContsSplit conts ∧ ∀ c ∈ conts, KeepsSaved regs c.2

theorem retClobbered_saved :
    Ensures (retClobbered cfg regs ret) fun regs' => KeepsSaved regs regs' := by
  refine .andThen fun s => .andThen fun _ => .pure fun r saved => ?_
  rw [if_neg (by omega), if_neg (by omega)]

theorem contsOf_one {regs' : Regs} (kept : KeepsSaved regs regs') :
    ContsOf regs [(none, regs')] := by
  refine ⟨contsSplit_one regs', fun c member => ?_⟩
  cases mem_singleton.mp member
  exact kept

theorem contsOf_pair {d : Term .bool} {left right : Regs} (compl : ∀ σ, d.eval σ = !c.eval σ)
    (keptLeft : KeepsSaved regs left) (keptRight : KeepsSaved regs right) :
    ContsOf regs [(some c, left), (some d, right)] := by
  refine ⟨contsSplit_pair left right compl, fun e member => ?_⟩
  rcases mem_cons.mp member with rfl | later
  · exact keptLeft
  · cases mem_singleton.mp later
    exact keptRight

theorem contOne_split : Ensures (contOne cfg regs ret) (ContsOf regs) :=
  .bind retClobbered_saved fun _ kept => .pure (contsOf_one kept)

theorem forkNull_split {isnull : Term .bool} :
    Ensures (forkNull cfg regs isnull ret) (ContsOf regs) := by
  refine .bind retClobbered_saved fun _ keptPtr => .bind retClobbered_saved fun _ keptNull => ?_
  exact .pure (contsOf_pair (fun σ => by simp [Term.eval]) keptPtr keptNull)

theorem acquireCall_split :
    Ensures (acquireCall cfg name idx regs what) (ContsOf regs) := by
  refine .andThen fun _ => .andThen fun _ => .bind retClobbered_saved fun _ keptPtr =>
    .bind retClobbered_saved fun _ keptNull => .pure (contsOf_pair (fun σ => ?_) keptPtr keptNull)
  simp [Term.eval, BvRel.eval, bne]

theorem ptrHelper_split {hid : Int} :
    Ensures (ptrHelper cfg hid regs what) (ContsOf regs) := by
  refine .andThen fun idx => .andThen fun ret => .ite (fun _ => ?_) fun _ => ?_
  · exact .bind retClobbered_saved fun _ kept => .pure (contsOf_one kept)
  · exact forkNull_split

theorem iterCall_split {kind op : String} :
    Ensures (iterCall cfg name kind op idx regs what) (ContsOf regs) := by
  refine .ite (fun _ => ?_) fun _ => ?_
  · exact .andThen fun _ => .andThen fun _ => forkNull_split
  · exact .andThen fun _ => .andThen fun _ => contOne_split

theorem kfuncFallback_split :
    Ensures (kfuncFallback cfg name idx regs what) (ContsOf regs) := by
  unfold kfuncFallback
  split
  · exact .throw _
  · exact .ite (fun _ => .andThen fun _ => contOne_split) fun _ => .throw _

theorem kfuncDispatch_split :
    Ensures (kfuncDispatch cfg name idx regs what) (ContsOf regs) := by
  refine .ite (fun _ => .andThen fun _ => contOne_split) fun _ => ?_
  refine .ite (fun _ => .andThen fun _ => .andThen fun _ => contOne_split) fun _ => ?_
  refine .ite (fun _ => contOne_split) fun _ => ?_
  refine .ite (fun _ => .andThen fun _ => .andThen fun _ => contOne_split) fun _ => ?_
  refine .ite (fun _ => .andThen fun _ => .andThen fun _ => .andThen fun _ =>
    contOne_split) fun _ => ?_
  refine .ite (fun _ => .andThen fun _ => .andThen fun _ => .andThen fun _ =>
    contOne_split) fun _ => ?_
  refine .ite (fun _ => .andThen fun _ => .andThen fun _ => contOne_split) fun _ => ?_
  refine .ite (fun _ => acquireCall_split) fun _ => ?_
  refine .ite (fun _ => contOne_split) fun _ => ?_
  refine .ite (fun _ => .andThen fun _ => forkNull_split) fun _ => ?_
  refine .ite (fun _ => .andThen fun _ => .andThen fun _ => contOne_split) fun _ => ?_
  split
  · exact iterCall_split
  refine .ite (fun _ => ?_) fun _ => .ite (fun _ => ?_) fun _ => kfuncFallback_split
  · exact .andThen fun _ => .andThen fun _ => .andThen fun _ => .andThen fun _ =>
      .andThen fun _ => .andThen fun _ => forkNull_split
  · exact .andThen fun _ => .andThen fun _ => .andThen fun _ => .andThen fun _ =>
      contOne_split

theorem kfuncCall_split :
    Ensures (kfuncCall cfg name regs what) (ContsOf regs) :=
  .andThen fun _ => kfuncDispatch_split

theorem forkConts_splits {conts : List Cont} (split : ContsSplit conts) :
    Ensures (forkConts it conts) fun out => Splits it.conds out.alive := by
  cases conts with
  | nil => exact .pure (split it.conds)
  | cons first rest =>
    refine .bind (resume_conds) fun next kept => ?_
    refine .bind (.mapM (fun c => resume_conds) rest) fun pushed same => .pure ?_
    simpa [StepOut.alive, kept, same] using split it.conds

/-! Forks behind a feasibility check. -/

theorem feasible_dead :
    Ensures (feasible cfg conds) fun keep => keep = false → ∀ σ, ¬ Holds σ conds := by
  refine .andThen fun s => .andThen fun _ => .pure fun dropped => ?_
  exact cfg.z3.check_unsat _ _ (by simpa using dropped)

/-- The guard in front of a queued side: a literal false is not even checked. -/
theorem checked_dead :
    Ensures (if c.isFalse then pure false else feasible cfg (conds ++ [c]))
      fun keep => keep = false → ∀ σ, ¬ Holds σ (conds ++ [c]) := by
  refine .ite (fun literal => .pure fun _ σ held => ?_) fun _ => feasible_dead
  have falsified := eval_of_isFalse literal σ
  rw [((holds_snoc ..).mp held).2] at falsified
  cases falsified

theorem queued_conds {keep : Bool} {side : M (List Item)}
    (h : Ensures side fun pushed => pushed.map (·.conds) = [conds]) :
    Ensures (if keep then side else pure [])
      fun pushed => pushed.map (·.conds) = keepIf keep conds := by
  refine .ite (fun kept => h.mono fun pushed same => ?_) fun dropped => .pure ?_
  · simp [keepIf, kept, same]
  · simp [keepIf, dropped]

theorem resume_one :
    Ensures (do let item ← resume it sec pc regs conds stack; pure [item])
      fun pushed => pushed.map (·.conds) = [conds] :=
  .bind resume_conds fun item same => .pure (by simp [same])

theorem stepCondJump_splits :
    Ensures (stepCondJump cfg it ins what) fun out => Splits it.conds out.alive := by
  refine .andThen fun raw => .ite (fun _ => goOn_splits) fun _ =>
    .ite (fun _ => goOn_splits) fun _ => ?_
  refine .bind feasible_dead fun takes deadTaken => ?_
  refine .bind (queued_conds resume_one) fun pushed queued => ?_
  refine .bind feasible_dead fun falls deadFall => ?_
  have fork := splits_fork takes falls (fun σ => rfl) deadTaken deadFall
  refine .ite (fun kept => .bind resume_conds fun next same => .pure ?_) fun dropped => .pure ?_
  · refine fork.perm ?_
    simp [StepOut.alive, same, queued, keepIf, kept]
  · simpa [StepOut.alive, queued, keepIf, dropped] using fork

theorem eval_skip_enter (z : Solver) (n : Term (.bv 64)) (σ : Assignment) :
    (z.simplify (.rel .ugt n (bv64 0))).eval σ =
      !(z.simplify (.rel .eq n (bv64 0))).eval σ := by
  simp only [z.simplify_eval, Term.eval, BvRel.eval, bv64]
  have zero : (BitVec.ofInt 64 0).toNat = 0 := by decide
  rw [Bool.eq_iff_iff]
  simp only [BitVec.ult_iff_lt, BitVec.lt_def, zero, Bool.not_eq_true', beq_eq_false_iff_ne,
    ne_eq, ← BitVec.toNat_inj]
  omega

theorem stepCallback_splits :
    Ensures (stepCallback cfg it ins what) fun out => Splits it.conds out.alive := by
  refine .guard (.andThen fun started => ?_)
  cases started with
  | none => exact .andThen fun _ => goOn_splits
  | some f =>
    refine .bind checked_dead fun skips deadSkip => ?_
    refine .bind (queued_conds (.andThen fun _ => resume_one)) fun pushed queued => ?_
    refine .bind feasible_dead fun enters deadEnter => ?_
    have fork := splits_fork skips enters (eval_skip_enter cfg.z3 f.1.n) deadSkip deadEnter
    refine .ite (fun kept => ?_) fun dropped => .pure ?_
    · refine .andThen fun _ => .bind resume_conds fun next same => .pure fun σ => ?_
      rw [← fork σ]
      have entered : live σ [next.conds] =
          live σ [it.conds ++ [cfg.z3.simplify (.rel .ugt f.1.n (bv64 0))]] := by
        rw [same]
        split
        · next literal => exact live_of_isTrue literal σ
        · rfl
      simp only [StepOut.alive, toList_some, singleton_append, map_cons,
        map_nil, queued, append_nil, keepIf, kept, if_true, live_append]
      rw [← singleton_append, live_append, entered]
      exact Nat.add_comm ..
    · simpa [StepOut.alive, queued, keepIf, dropped] using fork

theorem eval_stop_more (z : Solver) (n r0 i : Term (.bv 64)) (σ : Assignment) :
    (z.simplify (.and (z.simplify (.rel .ugt n i)) (.rel .eq r0 (bv64 0)))).eval σ =
      !(z.simplify (.or (.rel .ule n i) (.rel .ne r0 (bv64 0)))).eval σ := by
  simp only [z.simplify_eval, Term.eval, BvRel.eval, BitVec.ule_eq_not_ult, bne]
  cases BitVec.ult (i.eval σ) (n.eval σ) <;> simp

theorem stepCbExit_splits {f : CbFrame} {rest : List Frame} :
    Ensures (stepCbExit cfg it f rest what) fun out => Splits it.conds out.alive := by
  refine .andThen fun r0 => .bind checked_dead fun stops deadStop => ?_
  refine .bind (queued_conds (.andThen fun _ => resume_one)) fun pushed queued => ?_
  refine .bind checked_dead fun goes deadGo => ?_
  have fork := splits_fork stops goes (eval_stop_more cfg.z3 f.n r0 _) deadStop deadGo
  refine .ite (fun dropped => .pure ?_) fun kept => ?_
  · simp only [not_eq_true'] at dropped
    simpa [StepOut.alive, queued, keepIf, dropped] using fork
  simp only [not_eq_true', not_eq_false] at kept
  refine .ite (fun _ => .throw _) fun _ => .andThen fun _ => .andThen fun _ =>
    .bind resume_conds fun next same => .pure (fork.perm ?_)
  simp [StepOut.alive, same, queued, keepIf, kept]

/-! Dispatch. -/

theorem stepTailCall_splits :
    Ensures (stepTailCall cfg it what) fun out => Splits it.conds out.alive := by
  refine .andThen fun idx => .andThen fun _ => .andThen fun _ =>
    .bind resume_conds fun next same => .pure ?_
  have fork : Splits it.conds
      [it.conds ++ [tailCallSucc idx], it.conds ++ [.not (tailCallSucc idx)]] :=
    splits_fork true true (fun _ => rfl) nofun nofun
  simpa [StepOut.alive, same] using fork.perm (.swap ..)

theorem stepThrow_splits :
    Ensures (stepThrow cfg it what) fun out => Splits it.conds out.alive := by
  refine .andThen fun cookie => .andThen fun target => ?_
  cases target with
  | none => exact .andThen fun _ => .pure (ended_splits _ _)
  | some _ => exact .andThen fun _ => .andThen fun _ => .andThen fun _ => enter_splits

theorem stepCall_splits :
    Ensures (stepCall cfg it ins what) fun out => Splits it.conds out.alive := by
  unfold stepCall
  split
  · exact .ite (fun _ => stepThrow_splits) fun _ => .bind kfuncCall_split fun _ conts =>
      forkConts_splits conts.1
  refine .ite (fun _ => ?_) fun _ => .ite (fun _ => .throw _) fun _ => ?_
  · exact .guard (.andThen fun _ => .andThen fun _ => .andThen fun _ => enter_splits)
  refine .ite (fun _ => stepTailCall_splits) fun _ =>
    .ite (fun _ => stepCallback_splits) fun _ => .ite (fun _ => ?_) fun _ => ?_
  · exact .bind ptrHelper_split fun _ conts => forkConts_splits conts.1
  · exact .andThen fun _ => goOn_splits

theorem stepExit_splits :
    Ensures (stepExit cfg it what) fun out => Splits it.conds out.alive := by
  unfold stepExit
  split
  · exact stepCbExit_splits
  · exact .ite (fun _ => .throw _) fun _ => .andThen fun _ => enter_splits
  · exact .andThen fun _ => .andThen fun _ => .pure (ended_splits _ _)

/-- What calls, exits and conditional jumps ensure, and going on elsewhere, an instruction does. -/
theorem stepInsn_ensures {Q : StepOut → Prop} (go : ∀ pc regs, Ensures (goOn it pc regs) Q)
    (call : ins.dst ≤ 10 ∧ ins.src ≤ 10 ∧ (ins.op % 8 = 5 ∨ ins.op % 8 = 6) ∧ ins.op / 16 = 8 →
      Ensures (stepCall cfg it ins what) Q)
    (exits : ins.dst ≤ 10 ∧ ins.src ≤ 10 ∧ (ins.op % 8 = 5 ∨ ins.op % 8 = 6) ∧ ins.op / 16 = 9 →
      Ensures (stepExit cfg it what) Q)
    (cond : Ensures (stepCondJump cfg it ins what) Q) : Ensures (stepInsn cfg it ins what) Q := by
  refine .ite (fun _ => .throw _) fun small => ?_
  refine .ite (fun _ => .guard (.andThen fun _ => go _ _)) fun _ => ?_
  refine .ite (fun _ => .andThen fun _ => .andThen fun _ => go _ _) fun _ => ?_
  refine .ite (fun _ => .andThen fun _ => go _ _) fun _ => ?_
  refine .ite (fun _ => .andThen fun _ => ?_) fun _ => ?_
  · exact .ite (fun _ => .andThen fun _ => go _ _) fun _ =>
      .ite (fun _ => .throw _) fun _ => go _ _
  refine .ite (fun _ => ?_) fun _ => .ite (fun jump => ?_) fun _ => .throw _
  · exact .ite (fun _ => .guard (.andThen fun _ => go _ _)) fun _ =>
      .ite (fun _ => .throw _) fun _ => .andThen fun _ => go _ _
  exact .ite (fun isCall => call ⟨by omega, by omega, jump, isCall⟩) fun _ =>
    .ite (fun isExit => exits ⟨by omega, by omega, jump, isExit⟩) fun _ =>
    .ite (fun _ => go _ _) fun _ => .ite (fun _ => go _ _) fun _ => cond

theorem stepInsn_splits :
    Ensures (stepInsn cfg it ins what) fun out => Splits it.conds out.alive :=
  stepInsn_ensures (fun _ _ => goOn_splits) (fun _ => stepCall_splits) (fun _ => stepExit_splits)
    stepCondJump_splits

theorem step_splits {exec' : Exec} {out : StepOut}
    (h : step cfg it exec = .ok (out, exec')) : Splits it.conds out.alive := by
  have stepped : Ensures (stepItem cfg it) fun out => Splits it.conds out.alive :=
    .andThen fun _ => stepInsn_splits
  simp only [step] at h
  split at h
  · rename_i returned
    cases h
    exact stepped _ _ _ returned
  · cases h

/-! Whole runs. -/

/-- Condition lists of the finished paths, the item in progress and the work list. -/
def Run.alive (r : Run) : List Conds :=
  r.paths.map (·.conds) ++ (r.cur.toList.map (·.1) ++ r.work).map (·.conds)

/-- Every assignment satisfies exactly one of the condition lists. -/
def Covered (css : List Conds) : Prop := ∀ σ, live σ css = 1

theorem initRun_covered (exec : Exec) (entryPc : Int) (callback : Bool) :
    Covered (initRun cfg exec entryPc callback).alive := by
  intro σ
  simp [initRun, initItem, Run.alive, live_cons]

theorem next_covered {r r' : Run} (covered : Covered r.alive)
    (h : r.next cfg = .ok (.running r')) : Covered r'.alive := by
  obtain ⟨it, steps, out, exec, current, -, stepped, rfl⟩ | ⟨it, rest, current, queued, -, rfl⟩ :=
    Run.next_running h
  · intro σ
    rw [← covered σ]
    have split := step_splits stepped σ
    have perm := live_perm (out.pushed.map (·.conds)).reverse_perm σ
    simp only [Run.alive, StepOut.alive, current, map_append, live_append,
      toList_some, map_cons, map_nil, live_cons, live_nil,
      map_reverse] at split perm ⊢
    cases hn : out.next <;> simp [hn] at split ⊢ <;> omega
  · intro σ
    simpa [Run.alive, current, queued] using covered σ

theorem returned_covered {r : Run} (covered : Covered r.alive)
    (h : r.next cfg = .ok (.returned paths exec)) : Covered (paths.map (·.conds)) := by
  obtain ⟨current, queued, rfl, -⟩ := Run.next_returned h
  intro σ
  simpa [Run.alive, current, queued] using covered σ

theorem run_covered {exec' : Exec} {entryPc : Int} {callback : Bool} {fuel : Nat}
    (h : run cfg exec entryPc callback fuel = some (.ok (paths, exec'))) :
    Covered (paths.map (·.conds)) := by
  obtain ⟨r, covered, returned⟩ := Run.exec?_returned (fun r => Covered r.alive)
    (fun r r' covered next => next_covered covered next) (initRun_covered exec entryPc callback) h
  exact returned_covered covered returned

/-! Summaries. -/

/-- A list with exactly one member of a kind, cut at that member. -/
theorem selected_of_live {σ : Assignment}
    (h : live σ (paths.map (·.conds)) = 1) :
    ∃ before p after, paths = before ++ p :: after ∧ Holds σ p.conds ∧
      ∀ q ∈ before ++ after, ¬ Holds σ q.conds := by
  induction paths with
  | nil => cases h
  | cons q qs ih =>
    rw [map_cons, live_cons] at h
    by_cases held : Holds σ q.conds
    · refine ⟨[], q, qs, rfl, held, fun r member other => ?_⟩
      simp only [held, if_true, live, Nat.add_eq_left, countP_eq_zero] at h
      exact h r.conds (mem_map_of_mem member) (decide_eq_true other)
    rw [if_neg held, Nat.zero_add] at h
    obtain ⟨before, p, after, rfl, hp, others⟩ := ih h
    refine ⟨q :: before, p, after, rfl, hp, fun r member => ?_⟩
    rcases mem_cons.mp member with rfl | later
    · exact held
    · exact others r later

theorem iteFold_cons (value : Path → Term s) (p q : Path) (qs : List Path) :
    iteFold value (p :: q :: qs) =
      (iteFold value (q :: qs)).map fun rest => .ite (conj p.conds) (value p) rest := rfl

theorem iteFold_some (value : Path → Term s) (q : Path) (qs : List Path) :
    ∃ t, iteFold value (q :: qs) = some t := by
  induction qs generalizing q with
  | nil => exact ⟨_, rfl⟩
  | cons q' qs ih =>
    obtain ⟨rest, found⟩ := ih q'
    exact ⟨_, by rw [iteFold_cons, found, map_some]⟩

/-- The fold has the value of the selected path, also when that path is the
unconditional tail. -/
theorem eval_iteFold (value : Path → Term s) {σ : Assignment}
    (before : List Path) {p : Path} (after : List Path) (held : Holds σ p.conds)
    (others : ∀ q ∈ before, ¬ Holds σ q.conds) :
    ∃ t, iteFold value (before ++ p :: after) = some t ∧ t.eval σ = (value p).eval σ := by
  induction before with
  | nil =>
    cases after with
    | nil => exact ⟨_, rfl, rfl⟩
    | cons q qs =>
      obtain ⟨rest, found⟩ := iteFold_some value q qs
      refine ⟨.ite (conj p.conds) (value p) rest, ?_, ?_⟩
      · rw [nil_append, iteFold_cons, found, map_some]
      · simp [Term.eval, eval_conj, held]
  | cons q qs ih =>
    obtain ⟨rest, found, same⟩ := ih fun r member => others r (.tail q member)
    obtain ⟨r, rs, shape⟩ : ∃ r rs, qs ++ p :: after = r :: rs :=
      exists_cons_of_ne_nil (by simp)
    refine ⟨.ite (conj q.conds) (value q) rest, ?_, ?_⟩
    · rw [cons_append, shape, iteFold_cons, ← shape, found, map_some]
    · simp [Term.eval, eval_conj, others q mem_cons_self, same]

/-- Every assignment of the inputs selects exactly one of the paths a run returns, and
the summaries have the final arrays and the return value of that path. A side is
dropped only if no assignment satisfies it, and kept on an inconclusive check. -/
theorem run_selects_one_path (cfg : Config) (exec exec' : Exec) (entryPc : Int)
    (callback : Bool) (fuel : Nat) (paths : List Path)
    (returned : run cfg exec entryPc callback fuel = some (.ok (paths, exec')))
    (σ : Assignment) :
    (∃ before p after, paths = before ++ p :: after ∧ Holds σ p.conds ∧
      (∀ q ∈ before ++ after, ¬ Holds σ q.conds) ∧
      (∃ ret, summarizeRet paths = some ret ∧ ret.eval σ = p.ret.eval σ) ∧
      ∀ (shared : Region → Option (Term .arr)) (region : Region) (init : Term .arr),
        shared region = some init →
        ∃ arr, summarize paths shared region = some arr ∧
          arr.eval σ = ((p.mem.arrs region).getD init).eval σ) ∧
    ∀ (conds : Conds) (s s' : St) (keep : Bool), Returns (feasible cfg conds) s keep s' →
      (keep = false → ¬ Holds σ conds) ∧
      (cfg.z3.check s.exec.queries conds = .unknown → keep = true) := by
  refine ⟨?_, fun conds s s' keep checked => ⟨fun dropped => ?_, fun unknown => ?_⟩⟩
  · obtain ⟨before, p, after, rfl, held, others⟩ := selected_of_live (run_covered returned σ)
    have skipped : ∀ q ∈ before, ¬ Holds σ q.conds := fun q member =>
      others q (mem_append_left after member)
    refine ⟨before, p, after, rfl, held, others, eval_iteFold _ before after held skipped, ?_⟩
    intro shared region init found
    obtain ⟨arr, folded, same⟩ := eval_iteFold (finalArr init region) before after held skipped
    exact ⟨arr, by simp only [summarize, found, bind_some, folded], same⟩
  · exact feasible_dead s keep s' checked dropped σ
  · simp only [feasible, returns_bind, returns_get, modifyExec, returns_modify,
      returns_pure] at checked
    obtain ⟨_, _, ⟨rfl, rfl⟩, _, _, _, rfl, _⟩ := checked
    simp [unknown]

/-- r0 = *(u64 *)(ctx + 0); if r0 == 0 goto +1; r0 = 7; exit. -/
def branchWords : List Word :=
  [word 0x79 0 1 0 0, word 0x15 0 0 1 0, word 0xb7 0 0 0 7, word 0x95 0 0 0 0]

def branchRun : Option (Except Err (List Path × Exec)) :=
  run (plainConfig "sk" branchWords) baseExec 0 false 20

def returnedOf {α : Type} : Option (Except Err α) → Option α
  | some (.ok a) => some a
  | _ => none

theorem eq_of_returnedOf {α : Type} {r : Option (Except Err α)} {a : α}
    (h : returnedOf r = some a) : r = some (.ok a) := by
  unfold returnedOf at h
  split at h
  · cases h
    rfl
  · cases h

theorem run_selects_one_path_branch : ∃ paths exec', branchRun = some (.ok (paths, exec')) ∧
    paths.length = 2 ∧ ∀ σ, ∃ before p after, paths = before ++ p :: after ∧ Holds σ p.conds ∧
      ∀ q ∈ before ++ after, ¬ Holds σ q.conds := by
  have two : (returnedOf branchRun).map (·.1.length) = some 2 := by decide +kernel
  obtain ⟨⟨paths, exec'⟩, found, length⟩ := map_eq_some_iff.mp two
  have returned := eq_of_returnedOf found
  refine ⟨paths, exec', returned, length, fun σ => ?_⟩
  obtain ⟨⟨before, p, after, shape, held, others, _⟩, _⟩ :=
    run_selects_one_path _ _ _ _ _ _ paths returned σ
  exact ⟨before, p, after, shape, held, others⟩

end BpfEquiv
