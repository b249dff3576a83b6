import Mathlib

/-!
The spin lock of `arena_spin_lock`: any number of CPUs run `prog` again and again, one atomic access
at a time. Whoever holds the lock is told from its place in the program; the invariant says what the
counter is at each of these places.
-/
namespace BpfEquiv.ArenaLock

open Function

def maxLoops : Nat := 2 ^ 23
def lockRetryBound : Nat := 8 * 1024 * 1024

/-- How often `bpf_loop` calls a callback that does not stop it. -/
def loopCount (nr : Nat) : Nat := if maxLoops < nr then 0 else nr

structure Config where
  nrCpus : Nat
  limit : BitVec 32
  csCount : BitVec 32

/-- Where a CPU stands in `prog`: outside with the value it returned last, in the loop of
`arena_spin_lock`, before an access to the counter, in the delay loop, before the release. -/
inductive Pc where
  | idle (ret : Option Int)
  | trying (left : Nat)
  | compare
  | load
  | store (value : BitVec 32)
  | delay (left : Nat)
  | unlock

/-- Between a successful `arena_spin_lock` and its `arena_spin_unlock`. -/
def Pc.holds : Pc → Bool
  | .idle _ | .trying _ => false
  | _ => true

/-- The shared words and the place of each CPU. Beside them stand the number of runs that returned 0
and whether the present or last run of a CPU changed a shared word. -/
structure State (Cpu : Type) where
  lock : BitVec 32
  counter : BitVec 32
  pc : Cpu → Pc
  zeros : Nat
  changed : Cpu → Bool

variable {Cpu : Type} [DecidableEq Cpu] {cfg : Config} {start : BitVec 32}
  {s : State Cpu} {c d : Cpu}

/-- The next access of a CPU: the words after it and the place it comes to. -/
def access (cfg : Config) (lock counter : BitVec 32) : Pc → BitVec 32 × BitVec 32 × Pc
  | .idle _ =>
    if 1024 < cfg.nrCpus then (lock, counter, .idle (some (-95)))
    else (lock, counter, .trying (loopCount lockRetryBound))
  | .trying 0 => (lock, counter, .idle (some (-110)))
  | .trying (left + 1) => if lock = 0 then (1, counter, .compare) else (lock, counter, .trying left)
  | .compare =>
    (lock, counter, if counter ≠ cfg.limit then .load else .delay (loopCount cfg.csCount.toNat))
  | .load => (lock, counter, .store counter)
  | .store value => (lock, value + 1, .delay (loopCount cfg.csCount.toNat))
  | .delay (left + 1) => (lock, counter, .delay left)
  | .delay 0 => (lock, counter, .unlock)
  | .unlock => (0, counter, .idle (some 0))

def Pc.starts : Pc → Bool
  | .idle _ => true
  | _ => false

/-- Outside after a run that returned 0. -/
def Pc.returnedZero : Pc → Bool
  | .idle (some ret) => ret = 0
  | _ => false

def next (cfg : Config) (s : State Cpu) (c : Cpu) : State Cpu :=
  let (lock, counter, pc) := access cfg s.lock s.counter (s.pc c)
  { lock, counter, pc := update s.pc c pc
    zeros := if pc.returnedZero then s.zeros + 1 else s.zeros
    changed := update s.changed c
      (!(s.pc c).starts && s.changed c || decide (lock ≠ s.lock ∨ counter ≠ s.counter)) }

def initial (Cpu : Type) (start : BitVec 32) : State Cpu :=
  { lock := 0, counter := start, pc := fun _ => .idle none, zeros := 0, changed := fun _ => false }

/-- An interleaving is the list of the CPUs that make the next access. -/
def run (cfg : Config) (start : BitVec 32) (schedule : List Cpu) : State Cpu :=
  schedule.foldl (next cfg) (initial Cpu start)

/-- The counter after `n` increments, for a start that is not above the limit. -/
def Counts (cfg : Config) (start counter : BitVec 32) (n : Nat) : Prop :=
  start.toInt ≤ cfg.limit.toInt → counter.toInt = min cfg.limit.toInt (start.toInt + n)

def CounterAt (cfg : Config) (start counter : BitVec 32) (zeros : Nat) : Pc → Prop
  | .load => Counts cfg start counter zeros ∧ counter ≠ cfg.limit
  | .store value => Counts cfg start counter zeros ∧ counter ≠ cfg.limit ∧ value = counter
  | .delay _ | .unlock => Counts cfg start counter (zeros + 1)
  | _ => Counts cfg start counter zeros

/-- Nobody holds the lock, or one CPU does. -/
inductive Owned (cfg : Config) (start : BitVec 32) (s : State Cpu) : Prop
  | free (lock : s.lock = 0) (none_ : ∀ c, (s.pc c).holds = false)
    (counter : Counts cfg start s.counter s.zeros)
  | held (c : Cpu) (lock : s.lock = 1) (holder : (s.pc c).holds = true)
    (alone : ∀ d, d ≠ c → (s.pc d).holds = false)
    (counter : CounterAt cfg start s.counter s.zeros (s.pc c))

variable {lock counter : BitVec 32} {pc : Pc} {zeros : Nat}

theorem Counts.increment (counts : Counts cfg start counter zeros) (ne : counter ≠ cfg.limit) :
    Counts cfg start (counter + 1) (zeros + 1) := by
  intro low
  have is := counts low
  have differs : counter.toInt ≠ cfg.limit.toInt := fun eq => ne (BitVec.eq_of_toInt_eq eq)
  have upper := cfg.limit.toInt_lt
  have lower := counter.le_toInt
  have sum : (counter + 1).toInt = counter.toInt + 1 := by
    rw [BitVec.toInt_add]
    exact Int.bmod_eq_of_le (by simp at *; omega) (by simp at *; omega)
  rw [sum]
  push_cast
  omega

theorem Counts.saturated (counts : Counts cfg start counter zeros) (eq : counter = cfg.limit) :
    Counts cfg start counter (zeros + 1) := by
  subst eq
  intro low
  have is := counts low
  push_cast
  omega

/-- A CPU that does not hold the lock can only take it, and only when it is free. -/
theorem access_outside (cfg : Config) (lock counter : BitVec 32) (out : pc.holds = false) :
    (∃ pc', access cfg lock counter pc = (lock, counter, pc') ∧ pc'.holds = false ∧
      pc'.returnedZero = false) ∨
      lock = 0 ∧ access cfg lock counter pc = (1, counter, .compare) := by
  cases pc with
  | idle ret =>
    rw [access]
    split
    · exact .inl ⟨_, rfl, rfl, rfl⟩
    · exact .inl ⟨_, rfl, rfl, rfl⟩
  | trying left =>
    cases left with
    | zero => exact .inl ⟨_, rfl, rfl, rfl⟩
    | succ left =>
      rw [access]
      split
      · exact .inr ⟨‹_›, rfl⟩
      · exact .inl ⟨_, rfl, rfl, rfl⟩
  | compare | load | store _ | delay _ | unlock => cases out

theorem returnedZero_of_holds (inside : pc.holds = true) : pc.returnedZero = false := by
  cases pc with
  | idle _ => cases inside
  | trying _ | compare | load | store _ | delay _ | unlock => rfl

/-- The holder keeps the lock or gives it back. -/
theorem access_inside (inside : pc.holds = true)
    (is : CounterAt cfg start counter zeros pc) :
    (∃ counter' pc', access cfg 1 counter pc = (1, counter', pc') ∧ pc'.holds = true ∧
      CounterAt cfg start counter' zeros pc') ∨
      access cfg 1 counter pc = (0, counter, .idle (some 0)) ∧
        Counts cfg start counter (zeros + 1) := by
  cases pc with
  | idle _ | trying _ => cases inside
  | compare =>
    rw [access]
    split
    · exact .inl ⟨_, _, rfl, rfl, is, ‹_›⟩
    · exact .inl ⟨_, _, rfl, rfl, is.saturated (Decidable.not_not.mp ‹_›)⟩
  | load => exact .inl ⟨_, _, rfl, rfl, is.1, is.2, rfl⟩
  | store value =>
    obtain ⟨is, ne, rfl⟩ := is
    exact .inl ⟨_, _, rfl, rfl, is.increment ne⟩
  | delay left =>
    cases left with
    | zero => exact .inl ⟨_, _, rfl, rfl, is⟩
    | succ left => exact .inl ⟨_, _, rfl, rfl, is⟩
  | unlock => exact .inr ⟨rfl, is⟩

theorem holds_update (ne : d ≠ c) : (update s.pc c pc d).holds = (s.pc d).holds := by
  rw [update_of_ne ne]

theorem Owned.next (owned : Owned cfg start s) (c : Cpu) : Owned cfg start (next cfg s c) := by
  unfold ArenaLock.next
  cases owned with
  | free lock none_ counter =>
    obtain ⟨pc, eq, out, ret⟩ | ⟨-, eq⟩ := access_outside cfg s.lock s.counter (none_ c)
    · simp only [eq, ret, Bool.false_eq_true, if_false]
      refine .free lock ?_ counter
      intro d
      by_cases same : d = c
      · simpa [same] using out
      · exact (holds_update same).trans (none_ d)
    · simp only [eq]
      refine .held c rfl ?_ (fun d ne => (holds_update ne).trans (none_ d)) ?_
      · simp [Pc.holds]
      · simpa [CounterAt, Pc.returnedZero] using counter
  | held e lock holder alone counter =>
    by_cases own : c = e
    · subst own
      obtain ⟨counter', pc, eq, inside, is⟩ | ⟨eq, is⟩ := access_inside holder counter
      · simp only [lock, eq, returnedZero_of_holds inside, Bool.false_eq_true, if_false]
        refine .held c rfl ?_ (fun d ne => (holds_update ne).trans (alone d ne)) ?_
        · simpa using inside
        · simpa using is
      simp only [lock, eq]
      refine .free rfl ?_ is
      intro d
      by_cases same : d = c
      · simp [same, Pc.holds]
      · exact (holds_update same).trans (alone d same)
    · obtain ⟨pc, eq, out, ret⟩ | ⟨zero, -⟩ := access_outside cfg s.lock s.counter (alone c own)
      · simp only [eq, ret, Bool.false_eq_true, if_false]
        refine .held e lock ?_ ?_ ?_
        · simpa [update_of_ne (Ne.symm own)] using holder
        · intro d ne
          by_cases same : d = c
          · simpa [same] using out
          · exact (holds_update same).trans (alone d ne)
        · simpa [update_of_ne (Ne.symm own)] using counter
      · cases lock.symm.trans zero

def Pc.fails : Pc → Bool
  | .idle (some ret) => ret ≠ 0
  | .trying _ => true
  | _ => false

theorem access_fails (fails : (access cfg lock counter pc).2.2.fails = true) :
    (access cfg lock counter pc).1 = lock ∧ (access cfg lock counter pc).2.1 = counter ∧
      (pc.starts = true ∨ pc.fails = true) := by
  cases pc with
  | idle ret =>
    rw [access]
    split <;> exact ⟨rfl, rfl, .inl rfl⟩
  | trying left =>
    cases left with
    | zero => exact ⟨rfl, rfl, .inr rfl⟩
    | succ left =>
      rw [access] at fails ⊢
      split at fails
      · cases fails
      · rw [if_neg ‹_›]
        exact ⟨rfl, rfl, .inr rfl⟩
  | compare =>
    rw [access] at fails
    dsimp only at fails
    split at fails <;> cases fails
  | delay left => cases left <;> cases fails
  | load | store _ | unlock => cases fails

theorem changed_next (quiet : ∀ c, (s.pc c).fails = true → s.changed c = false) (c d : Cpu)
    (fails : ((next cfg s c).pc d).fails = true) : (next cfg s c).changed d = false := by
  unfold next at *
  by_cases same : d = c
  · subst same
    simp only [update_self] at fails ⊢
    obtain ⟨lock, counter, before⟩ := access_fails fails
    simp only [lock, counter, ne_eq, not_true_eq_false, or_self, decide_false, Bool.or_false]
    rcases before with starts | fails
    · simp [starts]
    · simp [quiet d fails]
  · simp only [update_of_ne same] at fails ⊢
    exact quiet d fails

theorem run_keeps (cfg : Config) (start : BitVec 32) (schedule : List Cpu) :
    Owned cfg start (run cfg start schedule) ∧
      ∀ c, ((run cfg start schedule).pc c).fails = true →
        (run cfg start schedule).changed c = false := by
  induction schedule using List.reverseRecOn with
  | nil =>
    refine ⟨.free rfl (fun _ => rfl) fun low => ?_, nofun⟩
    show start.toInt = min cfg.limit.toInt (start.toInt + 0)
    omega
  | append_singleton schedule c ih =>
    rw [run, List.foldl_append]
    exact ⟨ih.1.next c, changed_next ih.2 c⟩

/-- At most one CPU holds the lock and the word says so, the counter has all increments when nobody
holds it, and a run that does not acquire the lock changes nothing. -/
theorem arena_spin_lock_law (cfg : Config) (start : BitVec 32) (schedule : List Cpu) :
    let s := run cfg start schedule
    (∀ c d, (s.pc c).holds = true → (s.pc d).holds = true → c = d) ∧
      (s.lock = 1 ↔ ∃ c, (s.pc c).holds = true) ∧
      (start.toInt ≤ cfg.limit.toInt → (∀ c, (s.pc c).holds = false) →
        s.counter.toInt = min cfg.limit.toInt (start.toInt + s.zeros)) ∧
      ∀ c ret, s.pc c = .idle (some ret) → ret ≠ 0 → s.changed c = false := by
  intro s
  obtain ⟨owned, quiet⟩ := run_keeps cfg start schedule
  refine ⟨?_, ?_, ?_, fun c ret ends ne => quiet c (by rw [ends]; simpa [Pc.fails] using ne)⟩
  · intro c d holds_c holds_d
    cases owned with
    | free _ none_ _ => rw [none_ c] at holds_c; cases holds_c
    | held e _ _ alone _ =>
      have is_e (c : Cpu) (holds : (s.pc c).holds = true) : c = e := by
        by_contra ne
        rw [alone c ne] at holds
        cases holds
      exact (is_e c holds_c).trans (is_e d holds_d).symm
  · cases owned with
    | free lock none_ _ =>
      refine ⟨fun one => absurd (lock.symm.trans one) (by decide), fun ⟨c, holds⟩ => ?_⟩
      rw [none_ c] at holds
      cases holds
    | held e lock holder _ _ => exact ⟨fun _ => ⟨e, holder⟩, fun _ => lock⟩
  · intro low idle
    cases owned with
    | free _ _ counter => exact counter low
    | held e _ holder _ _ => rw [idle e] at holder; cases holder

/-- Two CPUs: the first runs to its end while the second tries in vain, and then takes the lock. -/
def contended : State Bool :=
  run ⟨2, 5, 0⟩ 3 [true, false, true, false, true, true, true, true, true, false]

theorem arena_spin_lock_law_contended :
    (contended.pc true = .idle (some 0) ∧ contended.zeros = 1 ∧ contended.counter = 4 ∧
      (contended.pc false).holds = true) ∧
      (contended.lock = 1 ↔ ∃ c, (contended.pc c).holds = true) := by
  refine ⟨⟨rfl, rfl, rfl, rfl⟩, ?_⟩
  exact (arena_spin_lock_law ⟨2, 5, 0⟩ 3 _).2.1

end BpfEquiv.ArenaLock
