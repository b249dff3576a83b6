import BpfEquiv.Asm
import BpfEquiv.Hoare

/-!
The budgets of the main loop.

An item that is resumed executes at most MAX_INSNS_PER_PATH instructions, and the paths
and queued items together never exceed MAX_PATHS when one is resumed. Neither bounds how
often items are resumed: an item that only queues one side of itself again adds nothing
to either count, and a loop of such lulls never stops. The lulls bound the number of
resumed items, and without any a run stops within a number of steps that the two limits
fix.
-/
namespace BpfEquiv
open Smt Hoare List Option

/-! Resumed items. -/

/-- The item being executed goes on until it ends or is queued again. -/
inductive Executes (cfg : Config) : Run → Run → Prop
  | stop {r : Run} (idle : r.cur = none) : Executes cfg r r
  | step {r r₁ r' : Run} (busy : r.cur ≠ none) (next : r.next cfg = .ok (.running r₁))
      (rest : Executes cfg r₁ r') : Executes cfg r r'

def Resumes (cfg : Config) (r r' : Run) : Prop :=
  r.cur = none ∧ ∃ r₁, r.next cfg = .ok (.running r₁) ∧ Executes cfg r₁ r'

def Takes (cfg : Config) (k : Nat) (r r' : Run) : Prop :=
  ∀ fuel, r.exec? cfg (fuel + k) = r'.exec? cfg fuel

variable {cfg : Config} {r r₁ r' : Run}

theorem takes_next (next : r.next cfg = .ok (.running r₁)) {k : Nat} (rest : Takes cfg k r₁ r') :
    Takes cfg (k + 1) r r' := by
  intro fuel
  rw [← Nat.add_assoc, Run.exec?, next]
  exact rest fuel

theorem next_busy (busy : r.cur ≠ none) (next : r.next cfg = .ok (.running r₁)) :
    ∃ it steps, r.cur = some (it, steps) ∧ steps < maxInsnsPerPath ∧
      (∀ it' steps', r₁.cur = some (it', steps') → steps' = steps + 1) ∧
      r.work.length ≤ r₁.work.length ∧ r.paths.length ≤ r₁.paths.length := by
  obtain ⟨it, steps, out, exec, current, within, -, rfl⟩ | ⟨_, _, current, -⟩ :=
    Run.next_running next
  · refine ⟨it, steps, current, within, fun it' steps' later => ?_, by simp, by simp⟩
    obtain ⟨_, _, same⟩ := map_eq_some_iff.mp later
    cases same
    rfl
  · exact absurd current busy

theorem next_idle (idle : r.cur = none) (next : r.next cfg = .ok (.running r₁)) :
    r.paths.length + r.work.length ≤ maxPaths ∧ r₁.work.length + 1 = r.work.length ∧
      r₁.paths = r.paths ∧ ∃ it, r₁.cur = some (it, 0) := by
  obtain ⟨_, _, _, _, current, -⟩ | ⟨it, rest, -, queued, within, rfl⟩ := Run.next_running next
  · cases idle.symm.trans current
  · exact ⟨within, by simp [queued], rfl, it, rfl⟩

theorem Executes.grows (h : Executes cfg r r') :
    r'.cur = none ∧ r.work.length ≤ r'.work.length ∧ r.paths.length ≤ r'.paths.length := by
  induction h with
  | stop idle => exact ⟨idle, le_rfl, le_rfl⟩
  | step busy next _ ih =>
    obtain ⟨_, _, _, _, _, work, paths⟩ := next_busy busy next
    exact ⟨ih.1, work.trans ih.2.1, paths.trans ih.2.2⟩

/-- An item comes back to the work list or the run stops within its own budget. -/
theorem executes_or_stops (d : Nat) (r : Run)
    (budget : ∀ it steps, r.cur = some (it, steps) → maxInsnsPerPath ≤ steps + d) :
    (∃ r' k, k ≤ d ∧ Executes cfg r r' ∧ Takes cfg k r r') ∨ r.exec? cfg (d + 1) ≠ none := by
  induction d generalizing r with
  | zero =>
    cases current : r.cur with
    | none => exact .inl ⟨r, 0, le_rfl, .stop current, fun _ => rfl⟩
    | some x =>
      have spent : maxInsnsPerPath ≤ x.2 := budget x.1 x.2 current
      refine .inr ?_
      rw [Run.exec?, Run.next, current]
      simp only [if_pos (Nat.lt_succ_of_le spent)]
      exact some_ne_none _
  | succ d ih =>
    by_cases idle : r.cur = none
    · exact .inl ⟨r, 0, Nat.zero_le _, .stop idle, fun _ => rfl⟩
    cases next : r.next cfg with
    | error e =>
      refine .inr ?_
      rw [Run.exec?, next]
      exact some_ne_none _
    | ok progress =>
      cases progress with
      | returned paths exec =>
        refine .inr ?_
        rw [Run.exec?, next]
        exact some_ne_none _
      | running r₁ =>
        obtain ⟨it, steps, current, _, later, _⟩ := next_busy idle next
        have rest := ih r₁ fun it' steps' here => by
          have := budget it steps current
          rw [later it' steps' here]
          omega
        rcases rest with ⟨r', k, few, executes, takes⟩ | stops
        · exact .inl ⟨r', k + 1, by omega, .step idle next executes, takes_next next takes⟩
        · refine .inr ?_
          rw [Run.exec?, next]
          exact stops

def itemBudget : Nat := maxInsnsPerPath + 1

theorem exec?_more {fuel : Nat} (h : r.exec? cfg fuel ≠ none) (more : Nat) :
    r.exec? cfg (fuel + more) ≠ none := by
  induction fuel generalizing r with
  | zero => exact absurd rfl h
  | succ fuel ih =>
    rw [Nat.add_right_comm, Run.exec?]
    rw [Run.exec?] at h
    cases next : r.next cfg with
    | error e => exact some_ne_none _
    | ok progress =>
      rw [next] at h
      cases progress with
      | returned paths exec => exact some_ne_none _
      | running r₁ => exact ih h

theorem resumes_or_stops (idle : r.cur = none) :
    (∃ r' k, k ≤ itemBudget ∧ Resumes cfg r r' ∧ Takes cfg k r r') ∨
      r.exec? cfg (itemBudget + 1) ≠ none := by
  cases next : r.next cfg with
  | error e =>
    refine .inr ?_
    rw [Run.exec?, next]
    exact some_ne_none _
  | ok progress =>
    cases progress with
    | returned paths exec =>
      refine .inr ?_
      rw [Run.exec?, next]
      exact some_ne_none _
    | running r₁ =>
      rcases @executes_or_stops cfg maxInsnsPerPath r₁ fun _ _ _ => Nat.le_add_left _ _ with
        ⟨r', k, few, executes, takes⟩ | stops
      · exact .inl ⟨r', k + 1, Nat.succ_le_succ few, ⟨idle, r₁, next, executes⟩,
          takes_next next takes⟩
      · refine .inr ?_
        rw [Run.exec?, next]
        exact stops

/-! Lulls. -/

/-- No more paths and no more queued items than before. -/
def Lull (r r' : Run) : Prop :=
  r'.paths.length ≤ r.paths.length ∧ r'.work.length ≤ r.work.length

instance (r r' : Run) : Decidable (Lull r r') := inferInstanceAs (Decidable (_ ∧ _))

/-- What grows with every resumed item that is not a lull. -/
def weight (r : Run) : Nat := r.work.length + 2 * r.paths.length

theorem Resumes.weight (h : Resumes cfg r r') :
    weight r + 1 ≤ weight r' + 2 * (if Lull r r' then 1 else 0) ∧ weight r ≤ 2 * maxPaths := by
  obtain ⟨idle, r₁, next, executes⟩ := h
  obtain ⟨within, work, paths, _⟩ := next_idle idle next
  obtain ⟨_, work', paths'⟩ := executes.grows
  rw [paths] at paths'
  simp only [BpfEquiv.weight]
  refine ⟨?_, by omega⟩
  by_cases lull : Lull r r'
  · rw [if_pos lull]
    omega
  · rw [if_neg lull]
    rw [Lull, not_and_or] at lull
    omega

/-- Items are resumed one after the other until the run stops. -/
theorem chain_or_stops (n : Nat) (idle : r.cur = none) :
    (∃ l, l.length = n ∧ List.IsChain (Resumes cfg) (r :: l)) ∨
      r.exec? cfg (n * (itemBudget + 1)) ≠ none := by
  induction n generalizing r with
  | zero => exact .inl ⟨[], rfl, .singleton r⟩
  | succ n ih =>
    rcases @resumes_or_stops cfg r idle with ⟨r', k, few, resumes, takes⟩ | stops
    · have back : r'.cur = none := by
        obtain ⟨_, _, _, executes⟩ := resumes
        exact executes.grows.1
      rcases ih back with ⟨l, length, chain⟩ | stops
      · exact .inl ⟨r' :: l, by simp [length], isChain_cons_cons.mpr ⟨resumes, chain⟩⟩
      refine .inr ?_
      rw [← takes] at stops
      have more := exec?_more stops (itemBudget + 1 - k)
      rwa [show n * (itemBudget + 1) + k + (itemBudget + 1 - k) = (n + 1) * (itemBudget + 1) by
        rw [Nat.add_assoc, Nat.add_sub_cancel' (by omega), Nat.succ_mul]] at more
    · refine .inr ?_
      have more := exec?_more stops (n * (itemBudget + 1))
      rwa [Nat.add_comm, ← Nat.succ_mul] at more

/-- Refutes a list that contains a condition and its negation, and gives up on every other
query. -/
def complementing : Solver where
  simplify t := t
  simplify_eval _ _ := rfl
  check _ cs := if cs.any fun c => cs.contains (.not c) then .unsat else .unknown
  check_unsat _ cs h σ holds := by
    by_cases bad : (cs.any fun c => cs.contains (.not c)) = true
    · obtain ⟨c, member, negated⟩ := any_eq_true.mp bad
      have yes := holds c member
      have no := holds _ (contains_iff_mem.mp negated)
      rw [Term.eval, yes] at no
      cases no
    · rw [if_neg bad] at h
      cases h
  prove _ _ := .unknown
  prove_proved _ _ h := nomatch h
  prove_refuted _ _ _ h := nomatch h
  survivors _ := []

/-- The loop jumps to itself while r3 is five. -/
def spinCode : List Word := [word 0x15 3 0 (-1) 5, word 0x95 0 0 0 0]

def spinConfig : Config :=
  executor { plainTables with z3 := complementing } (fun _ => none)
    (objectSide (object "tc" spinCode [] [] none) "tc" spinCode) "A"

def spinCond : Term .bool := .rel .eq (.bvVar 64 "uninit_A_r3") (bv64 5)

def spinItem (n : Nat) : Item :=
  { initItem spinConfig 0 false with conds := List.replicate n spinCond }

theorem fetch_loop (n : Nat) (s : St) :
    Returns (fetch (withEntry spinConfig 0) (spinItem n)) s
      ((word 0x15 3 0 (-1) 5).insn none) s := by
  rfl

theorem check_stays (q n : Nat) :
    complementing.check q (List.replicate (n + 1) spinCond ++ [spinCond]) = .unknown := by
  refine if_neg fun bad => ?_
  obtain ⟨c, member, negated⟩ := any_eq_true.mp bad
  have all : ∀ d ∈ List.replicate (n + 1) spinCond ++ [spinCond], d = spinCond := by
    rw [← replicate_succ']
    exact fun d => eq_of_mem_replicate
  cases all _ (contains_iff_mem.mp negated)

theorem check_leaves (q n : Nat) :
    complementing.check q (List.replicate (n + 1) spinCond ++ [.not spinCond]) = .unsat := by
  have bad : ((List.replicate (n + 1) spinCond ++ [Term.not spinCond]).any fun c =>
      (List.replicate (n + 1) spinCond ++ [Term.not spinCond]).contains (.not c)) = true := by
    refine any_eq_true.mpr ⟨spinCond, ?_, contains_iff_mem.mpr ?_⟩
    · exact mem_append_left _ (mem_replicate.mpr ⟨n.succ_ne_zero, rfl⟩)
    · exact mem_append_right _ (.head _)
  exact if_pos bad

theorem feasible_asks {cfg : Config} {conds : List (Term .bool)} {s : St} {answer : CheckResult}
    (told : cfg.z3.check s.exec.queries conds = answer) :
    Returns (feasible cfg conds) s (decide (answer ≠ .unsat))
      { s with exec := { s.exec with queries := s.exec.queries + 1 } } :=
  told ▸ rfl

/-- A round asks about both sides, queues the item again and drops the other side. -/
theorem step_loop (n : Nat) (exec : Exec) :
    step (withEntry spinConfig 0) (spinItem (n + 1)) exec =
      .ok (⟨none, [spinItem (n + 2)], []⟩, { exec with queries := exec.queries + 2 }) := by
  have round : Returns (stepItem (withEntry spinConfig 0) (spinItem (n + 1)))
      ⟨(spinItem (n + 1)).mem, (spinItem (n + 1)).counters, exec⟩ ⟨none, [spinItem (n + 2)], []⟩
      ⟨(spinItem (n + 1)).mem, (spinItem (n + 1)).counters,
        { exec with queries := exec.queries + 2 }⟩ := by
    refine returns_bind.mpr ⟨_, _, fetch_loop _ _, ?_⟩
    refine returns_bind.mpr ⟨spinCond, _, rfl, ?_⟩
    have again : spinItem (n + 2) = { spinItem (n + 1) with
        conds := List.replicate (n + 1) spinCond ++ [spinCond] } := by
      rw [← replicate_succ']
      rfl
    rw [again]
    refine returns_bind.mpr ⟨true, _, @feasible_asks _ _ _ .unknown (check_stays _ n), ?_⟩
    refine returns_bind.mpr ⟨[_], _, rfl, ?_⟩
    exact returns_bind.mpr ⟨false, _, @feasible_asks _ _ _ .unsat (check_leaves _ n), rfl⟩
  simp only [step]
  rw [show (stepItem (withEntry spinConfig 0) (spinItem (n + 1))).run _ = _ from round]

/-- The item is queued or about to take its round; the other side has ended its path. -/
inductive Looping : Run → Prop
  | queued (n : Nat) (p : Path) (exec : Exec) : Looping ⟨[spinItem (n + 1)], none, [p], exec⟩
  | resumed (n : Nat) (p : Path) (exec : Exec) : Looping ⟨[], some (spinItem (n + 1), 0), [p], exec⟩

theorem Looping.next {r : Run} (h : Looping r) :
    ∃ r', r.next (withEntry spinConfig 0) = .ok (.running r') ∧ Looping r' := by
  cases h with
  | queued n p exec => exact ⟨_, rfl, .resumed n p exec⟩
  | resumed n p exec =>
    refine ⟨_, ?_, .queued (n + 1) p { exec with queries := exec.queries + 2 }⟩
    simp only [Run.next, step_loop]
    rfl

theorem Looping.running {r : Run} (h : Looping r) (fuel : Nat) :
    r.exec? (withEntry spinConfig 0) fuel = none := by
  induction fuel generalizing r with
  | zero => rfl
  | succ fuel ih =>
    obtain ⟨r', next, later⟩ := h.next
    rw [Run.exec?, next]
    exact ih later

end BpfEquiv
