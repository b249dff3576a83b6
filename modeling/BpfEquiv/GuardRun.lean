import BpfEquiv.ToolHash

/-!
Runs of the guard, one after the other.

A run finds the hashes of the tools and the objects, proves the tests whose row in the
baseline is not up to date, and writes their verdicts to the baseline that the next run
starts from. The answers of the prover are inputs and come in any order.
-/
namespace BpfEquiv.GuardRun
open Cache List

/-! The baseline. -/

/-- The verdict in a row: one that the guard finds, or a word of the sweep whose summary the
baseline was made from. -/
inductive RowVerdict where
  | found (v : GuardVerdict)
  | waivedEquiv
  | other (word : String)
  deriving DecidableEq

def good : List RowVerdict := [.found .equiv, .waivedEquiv]

def nonproof : List RowVerdict := [.found .bail, .found .timeout, .found .unknown, .found .noprogs]

structure Row where
  c : Bytes
  r : Bytes
  t : Bytes
  verdict : RowVerdict
  detail : List Char
  deriving DecidableEq

abbrev Rows := String → Option Row

def Rows.set (rows : Rows) (name : String) (row : Row) : Rows :=
  fun n => if n = name then some row else rows n

/-! One run. -/

/-- What a run finds: the hash of the tools, the tests with an object in bld in order, and the
hashes of the two objects of a test where both exist. -/
structure World where
  toolHash : Bytes
  bld : List String
  objects : String → Option (Bytes × Bytes)

structure Job where
  name : String
  c : Bytes
  r : Bytes

structure Answer where
  verdict : RowVerdict
  detail : List Char

/-- The answers for a list of jobs, in the order in which they come. -/
structure Prover where
  answers : List Job → List (Job × Answer)
  complete : ∀ work, ((answers work).map (·.1)).Perm work

inductive Command where
  | guard (names : List String) (all : Bool) (prover : Prover)
  | reseed (source : String) (summary : List (String × RowVerdict))

structure Run where
  world : World
  command : Command

/-- The row of a test is up to date. -/
def Row.current (row : Row) (world : World) (c r : Bytes) : Bool :=
  decide (row.c = c ∧ row.r = r ∧ row.t = world.toolHash)

structure Triage where
  work : List Job
  alarmsCached : List (String × List Char)

/-- Sorts a test into those to prove and those that keep their verdict. A recorded divergence
keeps alarming. -/
def triage1 (world : World) (rows : Rows) (out : Triage) (name : String) : Triage :=
  match world.objects name with
  | none => out
  | some (c, r) =>
    match (rows name).filter (·.current world c r) with
    | some row =>
      if row.verdict = .found .inequiv then
        { out with alarmsCached := out.alarmsCached ++ [(name, row.detail)] }
      else out
    | none => { out with work := out.work ++ [⟨name, c, r⟩] }

def triage (world : World) (rows : Rows) (names : List String) : Triage :=
  names.foldl (triage1 world rows) ⟨[], []⟩

structure Loop where
  rows : Rows
  alarms : List (String × List Char)
  downgrades : List (String × RowVerdict × RowVerdict)

/-- What is done with one answer. -/
def record (world : World) (s : Loop) (done : Job × Answer) : Loop :=
  let job := done.1
  let answer := done.2
  let old := (s.rows job.name).map (·.verdict)
  { rows := s.rows.set job.name ⟨job.c, job.r, world.toolHash, answer.verdict, answer.detail⟩
    alarms :=
      if answer.verdict = .found .inequiv then s.alarms ++ [(job.name, answer.detail)] else s.alarms
    downgrades :=
      if answer.verdict = .found .inequiv then s.downgrades
      else
        match old with
        | some old =>
          if old ∈ good ∧ answer.verdict ∈ nonproof then
            s.downgrades ++ [(job.name, old, answer.verdict)]
          else s.downgrades
        | none => s.downgrades }

structure Result where
  status : Nat
  rows : Rows
  alarms : List (String × List Char)
  downgrades : List (String × RowVerdict × RowVerdict)

/-- A row taken over from the summary of a sweep. -/
def seed1 (world : World) (source : String) (rows : Rows) (entry : String × RowVerdict) : Rows :=
  match world.objects entry.1 with
  | none => rows
  | some (c, r) =>
    rows.set entry.1 ⟨c, r, world.toolHash, entry.2, ("seeded from " ++ source).toList⟩

def Command.names (command : Command) (world : World) : List String :=
  match command with
  | .guard names _ _ => if names = [] then world.bld else names
  | .reseed _ _ => []

def staleTool (world : World) (rows : Rows) (names : List String) : List String :=
  names.filter fun n => (rows n).any fun row => decide (row.t ≠ world.toolHash)

def main (rows : Rows) (run : Run) : Result :=
  match run.command with
  | .reseed source summary => ⟨0, summary.foldl (seed1 run.world source) rows, [], []⟩
  | .guard names all prover =>
    let names := if names = [] then run.world.bld else names
    if staleTool run.world rows names ≠ [] ∧ all = false then ⟨2, rows, [], []⟩
    else
      let sorted := triage run.world rows names
      let done := (prover.answers sorted.work).foldl (record run.world) ⟨rows, [], []⟩
      let alarms := done.alarms ++ sorted.alarmsCached
      ⟨if alarms = [] then 0 else 1, done.rows, alarms, done.downgrades⟩

def after (rows : Rows) (runs : List Run) : Rows :=
  runs.foldl (fun rows run => (main rows run).rows) rows

/-! What a run says of a test. -/

/-- The run refuses to go on because rows were made by other tools. -/
def Refused (rows : Rows) (run : Run) : Prop :=
  match run.command with
  | .guard _ all _ => staleTool run.world rows (run.command.names run.world) ≠ [] ∧ all = false
  | .reseed _ _ => False

def Guards (run : Run) (name : String) : Prop := name ∈ run.command.names run.world

/-- The verdict of a test in a run that goes on: the one in its row if that is up to date, or
an answer of the prover. -/
inductive Gets (rows : Rows) (run : Run) (name : String) : RowVerdict → Prop
  | cached {c r : Bytes} {row : Row} (goesOn : ¬ Refused rows run) (guarded : Guards run name)
      (objects : run.world.objects name = some (c, r)) (here : rows name = some row)
      (current : row.current run.world c r = true) : Gets rows run name row.verdict
  | proved {names : List String} {all : Bool} {prover : Prover} {done : Job × Answer}
      (command : run.command = .guard names all prover) (goesOn : ¬ Refused rows run)
      (answered : done ∈ prover.answers (triage run.world rows (run.command.names run.world)).work)
      (same : done.1.name = name) : Gets rows run name done.2.verdict

def Divergent (rows : Rows) (run : Run) : Prop := ∃ name, Gets rows run name (.found .inequiv)

/-! Tests that are proved and tests that keep their verdict. -/

variable {world : World} {rows : Rows} {run : Run} {name : String}

def toProve (world : World) (rows : Rows) (name : String) : Option Job :=
  (world.objects name).bind fun (c, r) =>
    if (rows name).any (·.current world c r) then none else some ⟨name, c, r⟩

def cachedAlarm (world : World) (rows : Rows) (name : String) : Option (String × List Char) :=
  (world.objects name).bind fun (c, r) =>
    ((rows name).filter fun row =>
      row.current world c r && decide (row.verdict = .found .inequiv)).map fun row =>
        (name, row.detail)

theorem triage1_eq (out : Triage) :
    triage1 world rows out name = ⟨out.work ++ (toProve world rows name).toList,
      out.alarmsCached ++ (cachedAlarm world rows name).toList⟩ := by
  unfold triage1 toProve cachedAlarm
  cases world.objects name with
  | none => simp
  | some objects =>
    obtain ⟨c, r⟩ := objects
    cases rows name with
    | none => simp
    | some row =>
      by_cases current : row.current world c r = true
      · by_cases diverged : row.verdict = .found .inequiv <;>
          simp [Option.filter_some, current, diverged]
      · simp [Option.filter_some, current]

theorem triage_eq (names : List String) :
    triage world rows names =
      ⟨names.filterMap (toProve world rows), names.filterMap (cachedAlarm world rows)⟩ := by
  have grow (out : Triage) : names.foldl (triage1 world rows) out =
      ⟨out.work ++ names.filterMap (toProve world rows),
        out.alarmsCached ++ names.filterMap (cachedAlarm world rows)⟩ := by
    induction names generalizing out with
    | nil => simp
    | cons n ns ih =>
      rw [foldl_cons, ih, triage1_eq]
      cases prove : toProve world rows n <;> cases alarm : cachedAlarm world rows n <;>
        simp [prove, alarm]
  exact grow ⟨[], []⟩

theorem toProve_some {job : Job} (found : toProve world rows name = some job) :
    job.name = name ∧ world.objects name = some (job.c, job.r) ∧
      ∀ row ∈ rows name, row.current world job.c job.r = false := by
  unfold toProve at found
  obtain ⟨⟨c, r⟩, objects, found⟩ := Option.bind_eq_some_iff.mp found
  dsimp only at found
  split at found
  · cases found
  rename_i stale
  cases found
  refine ⟨rfl, objects, fun row here => Bool.eq_false_iff.mpr fun current => stale ?_⟩
  rw [Option.mem_def.mp here]
  exact current

theorem toProve_none {c r : Bytes} (none' : toProve world rows name = none)
    (objects : world.objects name = some (c, r)) :
    ∃ row, rows name = some row ∧ row.current world c r = true := by
  rw [toProve, objects, Option.bind_some, ite_eq_left_iff] at none'
  by_contra no
  refine absurd (none' fun current => no ?_) (Option.some_ne_none _)
  exact (Option.any_eq_true ..).mp current

theorem mem_work {names : List String} {job : Job} :
    job ∈ (triage world rows names).work ↔
      job.name ∈ names ∧ toProve world rows job.name = some job := by
  rw [triage_eq, mem_filterMap]
  constructor
  · rintro ⟨n, listed, found⟩
    obtain rfl := (toProve_some found).1
    exact ⟨listed, found⟩
  · exact fun ⟨listed, found⟩ => ⟨_, listed, found⟩

theorem cachedAlarm_iff {alarm : String × List Char} :
    cachedAlarm world rows name = some alarm ↔ ∃ c r row, world.objects name = some (c, r) ∧
      rows name = some row ∧ row.current world c r = true ∧ row.verdict = .found .inequiv ∧
        (name, row.detail) = alarm := by
  simp only [cachedAlarm, Option.bind_eq_some_iff, Option.map_eq_some_iff,
    Option.filter_eq_some_iff, Bool.and_eq_true, decide_eq_true_eq, Prod.exists, and_assoc,
    exists_and_left]

/-! The answers. -/

theorem loop_alarms (answers : List (Job × Answer)) (s : Loop) :
    (answers.foldl (record world) s).alarms = s.alarms ++
      (answers.filter (·.2.verdict = .found .inequiv)).map fun done =>
        (done.1.name, done.2.detail) := by
  induction answers generalizing s with
  | nil => simp
  | cons done rest ih =>
    rw [foldl_cons, ih]
    by_cases diverged : done.2.verdict = .found .inequiv <;> simp [record, diverged]

/-- The row of a test after the loop: the old one, or one that was made from an answer. -/
theorem loop_rows (answers : List (Job × Answer)) (s : Loop) :
    (answers.foldl (record world) s).rows name = s.rows name ∧
      (∀ done ∈ answers, done.1.name ≠ name) ∨
      ∃ done ∈ answers, done.1.name = name ∧ (answers.foldl (record world) s).rows name =
        some ⟨done.1.c, done.1.r, world.toolHash, done.2.verdict, done.2.detail⟩ := by
  induction answers generalizing s with
  | nil => exact .inl ⟨rfl, nofun⟩
  | cons done rest ih =>
    rw [foldl_cons]
    rcases ih (record world s done) with ⟨same, others⟩ | ⟨last, member, is, made⟩
    · by_cases here : done.1.name = name
      · refine .inr ⟨done, (.head _), here, same.trans ?_⟩
        exact if_pos here.symm
      · refine .inl ⟨same.trans ?_, forall_mem_cons.mpr ⟨here, others⟩⟩
        exact if_neg fun is => here is.symm
    · exact .inr ⟨last, .tail _ member, is, made⟩

/-! The exit status. -/

section Guard

variable {names : List String} {all : Bool} {prover : Prover}

theorem main_guard (command : run.command = .guard names all prover) (goesOn : ¬ Refused rows run) :
    main rows run =
      (let sorted := triage run.world rows (run.command.names run.world)
       let done := (prover.answers sorted.work).foldl (record run.world) ⟨rows, [], []⟩
       let alarms := done.alarms ++ sorted.alarmsCached
       ⟨if alarms = [] then 0 else 1, done.rows, alarms, done.downgrades⟩) := by
  obtain ⟨world, _⟩ := run
  cases command
  exact if_neg goesOn

theorem main_refused (command : run.command = .guard names all prover)
    (refused : Refused rows run) :
    main rows run = ⟨2, rows, [], []⟩ := by
  obtain ⟨world, _⟩ := run
  cases command
  exact if_pos refused

theorem mem_alarms (command : run.command = .guard names all prover) (goesOn : ¬ Refused rows run)
    {alarm : String × List Char} : alarm ∈ (main rows run).alarms ↔
      (∃ done ∈ prover.answers (triage run.world rows (run.command.names run.world)).work,
        done.2.verdict = .found .inequiv ∧ (done.1.name, done.2.detail) = alarm) ∨
      ∃ n, Guards run n ∧ cachedAlarm run.world rows n = some alarm := by
  rw [main_guard command goesOn]
  dsimp only
  rw [loop_alarms, nil_append, mem_append, mem_map, triage_eq, mem_filterMap]
  simp only [mem_filter, decide_eq_true_eq, and_assoc]
  rfl

/-- A run that goes on finds nothing just if no test diverges in it. -/
theorem quiet_iff (command : run.command = .guard names all prover) (goesOn : ¬ Refused rows run) :
    (main rows run).status = 0 ↔ ¬ Divergent rows run := by
  have zero : (main rows run).status = 0 ↔ (main rows run).alarms = [] := by
    rw [main_guard command goesOn]
    dsimp only
    split
    · next none' => exact iff_of_true rfl none'
    · next some' => exact iff_of_false one_ne_zero some'
  rw [zero, eq_nil_iff_forall_not_mem]
  simp only [mem_alarms command goesOn]
  constructor
  · rintro none' ⟨name, diverged⟩
    generalize is : RowVerdict.found .inequiv = v at diverged
    cases diverged with
    | cached _ guarded objects here current =>
      exact none' _ (.inr ⟨name, guarded, cachedAlarm_iff.mpr
        ⟨_, _, _, objects, here, current, is.symm, rfl⟩⟩)
    | proved command' _ answered _ =>
      cases command.symm.trans command'
      exact none' _ (.inl ⟨_, answered, is.symm, rfl⟩)
  · rintro none' alarm (⟨done, answered, diverged, -⟩ | ⟨n, guarded, cached⟩)
    · exact none' ⟨done.1.name, diverged ▸ .proved command goesOn answered rfl⟩
    · obtain ⟨c, r, row, objects, here, current, diverged, -⟩ := cachedAlarm_iff.mp cached
      exact none' ⟨n, diverged ▸ .cached goesOn guarded objects here current⟩

theorem loud_iff (command : run.command = .guard names all prover) (goesOn : ¬ Refused rows run) :
    (main rows run).status = 1 ↔ Divergent rows run := by
  have two : (main rows run).status = 0 ∨ (main rows run).status = 1 := by
    rw [main_guard command goesOn]
    dsimp only
    split
    · exact .inl rfl
    · exact .inr rfl
  rw [← not_iff_not, ← quiet_iff command goesOn]
  omega

/-! Verdicts that stay. -/

/-- The row of a test after a run: the old one, which is up to date if the run guards the test,
or one that was made from an answer. -/
theorem row_left (command : run.command = .guard names all prover) (goesOn : ¬ Refused rows run)
    (name : String) :
    (main rows run).rows name = rows name ∧
        (Guards run name → toProve run.world rows name = none) ∨
      ∃ done ∈ prover.answers (triage run.world rows (run.command.names run.world)).work,
        Guards run name ∧ toProve run.world rows name = some done.1 ∧ (main rows run).rows name =
          some ⟨done.1.c, done.1.r, run.world.toolHash, done.2.verdict, done.2.detail⟩ := by
  rw [main_guard command goesOn]
  dsimp only
  generalize listed : (triage run.world rows (run.command.names run.world)).work = work
  have jobs := prover.complete work
  rcases @loop_rows run.world name (prover.answers work) ⟨rows, [], []⟩ with
    ⟨same, none'⟩ | ⟨done, answered, rfl, made⟩
  · refine .inl ⟨same, fun guarded => Option.eq_none_iff_forall_ne_some.mpr fun job found => ?_⟩
    obtain rfl := (toProve_some found).1
    rw [← listed] at jobs none'
    obtain ⟨done, answered, is⟩ := mem_map.mp (jobs.mem_iff.mpr (mem_work.mpr ⟨guarded, found⟩))
    exact none' done answered (is ▸ rfl)
  · have job := jobs.mem_iff.mp (mem_map_of_mem answered)
    rw [← listed, mem_work] at job
    exact .inr ⟨done, answered, job.1, job.2, made⟩

theorem row_current {c r : Bytes} {row : Row} (command : run.command = .guard names all prover)
    (goesOn : ¬ Refused rows run) (here : rows name = some row)
    (current : Guards run name →
      run.world.objects name = some (c, r) ∧ row.current run.world c r = true) :
    (main rows run).rows name = some row := by
  obtain ⟨same, -⟩ | ⟨done, -, guarded, found, -⟩ := row_left command goesOn name
  · exact same.trans here
  -- an answer for the test would need a row that is not up to date
  obtain ⟨-, objects, stale⟩ := toProve_some found
  obtain ⟨objects', now⟩ := current guarded
  obtain ⟨rfl, rfl⟩ := Prod.mk.inj (Option.some.inj (objects'.symm.trans objects))
  exact absurd now (Bool.eq_false_iff.mp (stale row here))

/-- Every test of the run that has objects has a row that is up to date. -/
def Settled (rows : Rows) (run : Run) : Prop :=
  ∀ n c r, Guards run n → run.world.objects n = some (c, r) →
    ∃ row, rows n = some row ∧ row.current run.world c r = true

theorem settled_left (command : run.command = .guard names all prover)
    (goesOn : ¬ Refused rows run) :
    Settled (main rows run).rows run := by
  intro n c r guarded objects
  obtain ⟨same, none'⟩ | ⟨done, -, -, found, made⟩ := row_left command goesOn n
  · rw [same]
    exact toProve_none (none' guarded) objects
  · cases objects.symm.trans (toProve_some found).2.1
    exact ⟨_, made, decide_eq_true ⟨rfl, rfl, rfl⟩⟩

end Guard

/-- A later run finds the tools and the objects of a test as they were, if it guards the test,
and does not take over a verdict for it. -/
def Kept (world : World) (name : String) (later : Run) : Prop :=
  match later.command with
  | .guard _ _ _ => Guards later name →
      later.world.toolHash = world.toolHash ∧ later.world.objects name = world.objects name
  | .reseed _ summary => name ∉ summary.map (·.1)

/-- A row that was made under the hashes of a run. -/
structure MadeIn (world : World) (name : String) (row : Row) : Prop where
  objects : world.objects name = some (row.c, row.r)
  tools : row.t = world.toolHash

theorem MadeIn.current {row : Row} (made : MadeIn world name row) {later : Run}
    (same : later.world.toolHash = world.toolHash ∧ later.world.objects name = world.objects name) :
    later.world.objects name = some (row.c, row.r) ∧
      row.current later.world row.c row.r = true := by
  refine ⟨same.2.trans made.objects, decide_eq_true ⟨rfl, rfl, ?_⟩⟩
  rw [made.tools, same.1]

theorem seed_other {source : String} {summary : List (String × RowVerdict)}
    (other : name ∉ summary.map (·.1)) (rows : Rows) :
    summary.foldl (seed1 world source) rows name = rows name := by
  induction summary generalizing rows with
  | nil => rfl
  | cons entry rest ih =>
    rw [map_cons, mem_cons, not_or] at other
    rw [foldl_cons, ih other.2]
    unfold seed1
    cases world.objects entry.1 with
    | none => rfl
    | some objects => exact if_neg other.1

theorem row_kept {row : Row} {later : Run} (here : rows name = some row)
    (made : MadeIn world name row)
    (kept : Kept world name later) : (main rows later).rows name = some row := by
  unfold Kept at kept
  cases command : later.command with
  | reseed source summary =>
    simp only [command] at kept
    simp only [main, command]
    rw [seed_other kept, here]
  | guard names all prover =>
    simp only [command] at kept
    by_cases refused : Refused rows later
    · rw [main_refused command refused]
      exact here
    exact row_current command refused here fun guarded => made.current (kept guarded)

theorem row_kept_runs {row : Row} {mid : List Run} (here : rows name = some row)
    (made : MadeIn world name row) (kept : ∀ later ∈ mid, Kept world name later) :
    after rows mid name = some row := by
  induction mid generalizing rows with
  | nil => exact here
  | cons run rest ih =>
    rw [forall_mem_cons] at kept
    exact ih (row_kept here made kept.1) kept.2

theorem guard_of_guards (guarded : Guards run name) :
    ∃ names all prover, run.command = .guard names all prover := by
  cases command : run.command with
  | guard names all prover => exact ⟨names, all, prover, rfl⟩
  | reseed source summary => simp only [Guards, command, Command.names, not_mem_nil] at guarded

theorem Gets.found {v : RowVerdict} (gets : Gets rows run name v) :
    ∃ names all prover, run.command = .guard names all prover ∧ ¬ Refused rows run ∧
      Guards run name ∧ ∃ c r, run.world.objects name = some (c, r) := by
  cases gets with
  | cached goesOn guarded objects =>
    obtain ⟨names, all, prover, command⟩ := guard_of_guards guarded
    exact ⟨names, all, prover, command, goesOn, guarded, _, _, objects⟩
  | @proved names all prover done command goesOn answered is =>
    have job := mem_work.mp ((prover.complete _).mem_iff.mp (mem_map_of_mem answered))
    rw [is] at job
    exact ⟨names, all, prover, command, goesOn, job.1, _, _, (toProve_some job.2).2.1⟩

theorem row_made {v : RowVerdict} {row : Row} (gets : Gets rows run name v)
    (left : (main rows run).rows name = some row) : MadeIn run.world name row := by
  obtain ⟨names, all, prover, command, goesOn, guarded, c, r, objects⟩ := gets.found
  obtain ⟨row', left', current⟩ := settled_left command goesOn name c r guarded objects
  cases left.symm.trans left'
  obtain ⟨rfl, rfl, tools⟩ := of_decide_eq_true current
  exact ⟨objects, tools⟩

/-! The alarm law. -/

/-- The test was proved when the run began. -/
def WasProved (rows : Rows) (name : String) : Prop :=
  ∃ row, rows name = some row ∧ row.verdict ∈ good

/-- A proof is lost, but not to a divergence. -/
def Lost (rows : Rows) (name : String) (v : RowVerdict) : Prop :=
  WasProved rows name ∧ v ∉ good ∧ v ≠ .found .inequiv

/-- A divergence, or the loss of a proof. -/
def Alarming (rows : Rows) (name : String) (v : RowVerdict) : Prop :=
  v = .found .inequiv ∨ WasProved rows name ∧ v ∉ good

/-- A later run guards a test whose verdict was written to the baseline and not replaced, and
nothing that the test depends on has changed since. -/
structure Pending (rows : Rows) (run : Run) (name : String) (v : RowVerdict) (mid : List Run)
    (later : Run) : Prop where
  recorded : ((main rows run).rows name).map (·.verdict) = some v
  kept : ∀ r ∈ mid ++ [later], Kept run.world name r
  guarded : Guards later name

/-- Every run with a cause for alarm exits with one, and no later run exits with zero for the
test while the cause is pending. -/
def AlarmLaw (rows : Rows) (runs : List Run) : Prop :=
  ∀ pre run post, runs = pre ++ run :: post → ∀ name v, Gets (after rows pre) run name v →
    Alarming (after rows pre) name v → (main (after rows pre) run).status = 1 ∧
      ∀ mid later rest, post = mid ++ later :: rest →
        Pending (after rows pre) run name v mid later →
        (main (after rows (pre ++ run :: mid)) later).status ≠ 0

/-- Where a proof is lost some test diverges in the same run, and in each later run for the
test while the loss is pending, unless that run refuses to go on. -/
def LossesCovered (rows : Rows) (runs : List Run) : Prop :=
  ∀ pre run post, runs = pre ++ run :: post → ∀ name v, Gets (after rows pre) run name v →
    Lost (after rows pre) name v → Divergent (after rows pre) run ∧
      ∀ mid later rest, post = mid ++ later :: rest →
        Pending (after rows pre) run name v mid later →
        Refused (after rows (pre ++ run :: mid)) later ∨
          Divergent (after rows (pre ++ run :: mid)) later

theorem not_quiet_iff (guarded : Guards run name) :
    (main rows run).status ≠ 0 ↔ Refused rows run ∨ Divergent rows run := by
  obtain ⟨names, all, prover, command⟩ := guard_of_guards guarded
  by_cases refused : Refused rows run
  · rw [main_refused command refused]
    exact ⟨fun _ => .inl refused, fun _ => Nat.succ_ne_zero 1⟩
  · rw [ne_eq, quiet_iff command refused, not_not]
    exact ⟨.inr, fun both => both.resolve_left refused⟩

theorem Gets.loud_iff {v : RowVerdict} (gets : Gets rows run name v) :
    (main rows run).status = 1 ↔ Divergent rows run := by
  obtain ⟨names, all, prover, command, goesOn, -⟩ := gets.found
  exact GuardRun.loud_iff command goesOn

theorem pending_divergent {mid : List Run} {later : Run}
    (gets : Gets rows run name (.found .inequiv))
    (pending : Pending rows run name (.found .inequiv) mid later) :
    Refused (after (main rows run).rows mid) later ∨
      Divergent (after (main rows run).rows mid) later := by
  obtain ⟨row, left, verdict⟩ := Option.map_eq_some_iff.mp pending.recorded
  have made := row_made gets left
  have here := row_kept_runs left made fun r member => pending.kept r (mem_append_left _ member)
  by_cases refused : Refused (after (main rows run).rows mid) later
  · exact .inl refused
  refine .inr ⟨name, ?_⟩
  have kept := pending.kept later (mem_append_right _ (.head _))
  obtain ⟨names, all, prover, command⟩ := guard_of_guards pending.guarded
  simp only [Kept, command] at kept
  obtain ⟨objects, current⟩ := made.current (kept pending.guarded)
  exact verdict ▸ .cached refused pending.guarded objects here current

theorem after_append (pre mid : List Run) (rows : Rows) :
    after rows (pre ++ run :: mid) = after (main (after rows pre) run).rows mid := by
  rw [after, foldl_append, foldl_cons]
  rfl

/-- The guard keeps its alarm law just if no loss of a proof goes without a divergence. -/
theorem alarm_law_iff (rows : Rows) (runs : List Run) :
    AlarmLaw rows runs ↔ LossesCovered rows runs := by
  constructor
  · intro law pre run post split name v gets lost
    obtain ⟨loud, later⟩ := law pre run post split name v gets (.inr ⟨lost.1, lost.2.1⟩)
    refine ⟨gets.loud_iff.mp loud, fun mid run' rest split' pending => ?_⟩
    exact (not_quiet_iff pending.guarded).mp (later mid run' rest split' pending)
  intro covered pre run post split name v gets alarming
  by_cases diverged : v = .found .inequiv
  · subst diverged
    refine ⟨gets.loud_iff.mpr ⟨name, gets⟩, fun mid later rest _ pending => ?_⟩
    rw [not_quiet_iff pending.guarded, after_append]
    exact pending_divergent gets pending
  have proved := alarming.resolve_left diverged
  obtain ⟨loud, later⟩ := covered pre run post split name v gets ⟨proved.1, proved.2, diverged⟩
  refine ⟨gets.loud_iff.mpr loud, fun mid run' rest split' pending => ?_⟩
  exact (not_quiet_iff pending.guarded).mpr (later mid run' rest split' pending)

def answering (v : RowVerdict) : Prover where
  answers work := work.map fun job => (job, ⟨v, []⟩)
  complete work := by
    rw [map_map]
    exact .of_eq (map_id work)

def provedRows : Rows := fun n => if n = "a" then some ⟨[1], [2], [0], .found .equiv, []⟩ else none

/-- A run in which the Rust object of the test has changed. -/
def changedRun (v : RowVerdict) : Run where
  world := ⟨[0], ["a"], fun n => if n = "a" then some ([1], [3]) else none⟩
  command := .guard [] false (answering v)

/-- A proof that is lost to BAIL is reported, with status zero, and forgotten by the next run. A
proof that is lost to ERROR is not even reported. -/
theorem proof_lost_quietly :
    let bail := changedRun (.found .bail)
    let error := changedRun (.found .error)
    (main provedRows bail).status = 0 ∧
      (main provedRows bail).downgrades = [("a", .found .equiv, .found .bail)] ∧
      (main (after provedRows [bail]) bail).status = 0 ∧
      (main (after provedRows [bail]) bail).downgrades = [] ∧
      (main provedRows error).status = 0 ∧ (main provedRows error).downgrades = [] ∧
      ¬ AlarmLaw provedRows [bail] := by
  refine ⟨by decide, by decide, by decide, by decide, by decide, by decide, fun law => ?_⟩
  have goesOn : ¬ Refused provedRows (changedRun (.found .bail)) := fun refused =>
    absurd refused.1 (by decide)
  have gets : Gets provedRows (changedRun (.found .bail)) "a" (.found .bail) :=
    .proved rfl goesOn (.head _) rfl
  have alarming : Alarming provedRows "a" (.found .bail) := .inr ⟨⟨_, rfl, by decide⟩, by decide⟩
  have loud := (law [] _ [] rfl "a" _ gets alarming).1
  exact absurd loud (by decide)

/-! Runs that are repeated. -/

/-- A later run over some of the tests, with the tools and the objects as they were. -/
structure Repeats (run later : Run) : Prop where
  guard : ∃ names all prover, later.command = .guard names all prover
  world : later.world = run.world
  tests : ∀ n, Guards later n → Guards run n

section Settled
variable {mid : List Run} {later : Run} (settled : Settled rows run)
include settled

theorem Settled.main (again : Repeats run later) (goesOn : ¬ Refused rows later) :
    (triage later.world rows (later.command.names later.world)).work = [] ∧
      ∃ status, GuardRun.main rows later = ⟨status, rows,
        (later.command.names later.world).filterMap (cachedAlarm run.world rows), []⟩ := by
  have done : (triage later.world rows (later.command.names later.world)).work = [] := by
    refine eq_nil_iff_forall_not_mem.mpr fun job member => ?_
    obtain ⟨guarded, found⟩ := mem_work.mp member
    obtain ⟨-, objects, stale⟩ := toProve_some found
    rw [again.world] at objects stale
    obtain ⟨row, here, current⟩ := settled _ _ _ (again.tests _ guarded) objects
    exact absurd current (Bool.eq_false_iff.mp (stale row here))
  obtain ⟨names, all, prover, command⟩ := again.guard
  have none' : prover.answers [] = [] := map_eq_nil_iff.mp (prover.complete []).eq_nil
  rw [main_guard command goesOn]
  dsimp only
  rw [done, none', triage_eq, again.world]
  exact ⟨rfl, _, rfl⟩

theorem Settled.after (each : ∀ r ∈ mid, Repeats run r) : after rows mid = rows := by
  induction mid with
  | nil => rfl
  | cons later mid ih =>
    rw [forall_mem_cons] at each
    have stays : (GuardRun.main rows later).rows = rows := by
      by_cases refused : Refused rows later
      · obtain ⟨_, _, _, command⟩ := each.1.guard
        rw [main_refused command refused]
      · obtain ⟨-, _, result⟩ := settled.main each.1 refused
        rw [result]
    rw [GuardRun.after, foldl_cons, stays]
    exact ih each.2

theorem Settled.refused (again : Repeats run later) (refused : Refused rows later) :
    ∃ n row, Guards later n ∧ run.world.objects n = none ∧ rows n = some row ∧
      row.t ≠ run.world.toolHash := by
  obtain ⟨_, _, _, command⟩ := again.guard
  simp only [Refused, command] at refused
  rw [← command] at refused
  obtain ⟨n, stale⟩ := exists_mem_of_ne_nil _ refused.1
  obtain ⟨guarded, other⟩ := mem_filter.mp stale
  obtain ⟨row, here, differs⟩ := (Option.any_eq_true ..).mp other
  rw [again.world, decide_eq_true_eq] at differs
  refine ⟨n, row, guarded, Option.eq_none_iff_forall_ne_some.mpr fun pair objects => ?_,
    here, differs⟩
  obtain ⟨row', here', current⟩ := settled n _ _ (again.tests n guarded) objects
  cases here.symm.trans here'
  exact differs (of_decide_eq_true current).2.2

end Settled

section
variable {names : List String} {all : Bool} {prover : Prover}
  (command : run.command = .guard names all prover) (goesOn : ¬ Refused rows run)
include command goesOn

/-- A run raises the alarms that its rows stand for. Were a test named twice, it could have two
answers and one row. -/
theorem mem_alarms_left (distinct : (run.command.names run.world).Nodup)
    {alarm : String × List Char} : alarm ∈ (main rows run).alarms ↔
      Guards run alarm.1 ∧ cachedAlarm run.world (main rows run).rows alarm.1 = some alarm := by
  have jobs := prover.complete (triage run.world rows (run.command.names run.world)).work
  have once := (jobs.map Job.name).nodup_iff.mpr (by
    rw [triage_eq, map_filterMap]
    refine distinct.filterMap fun a a' n here there => ?_
    obtain ⟨job, found, rfl⟩ := Option.map_eq_some_iff.mp here
    obtain ⟨job', found', same⟩ := Option.map_eq_some_iff.mp there
    rw [← (toProve_some found).1, ← (toProve_some found').1, same])
  rw [map_map] at once
  rw [mem_alarms command goesOn]
  constructor
  · rintro (⟨done, answered, diverged, rfl⟩ | ⟨n, guarded, cached⟩)
    · have job := mem_work.mp (jobs.mem_iff.mp (mem_map_of_mem answered))
      obtain ⟨-, none'⟩ | ⟨done', answered', guarded, found, made⟩ :=
        row_left command goesOn done.1.name
      · exact absurd ((none' job.1).symm.trans job.2) (Option.some_ne_none _).symm
      obtain ⟨is, objects, -⟩ := toProve_some found
      obtain rfl := inj_on_of_nodup_map once answered' answered is
      exact ⟨guarded, cachedAlarm_iff.mpr
        ⟨_, _, _, objects, made, decide_eq_true ⟨rfl, rfl, rfl⟩, diverged, rfl⟩⟩
    · obtain ⟨c, r, row, objects, here, current, diverged, rfl⟩ := cachedAlarm_iff.mp cached
      have kept := row_current command goesOn here fun _ => ⟨objects, current⟩
      exact ⟨guarded, cachedAlarm_iff.mpr ⟨c, r, row, objects, kept, current, diverged, rfl⟩⟩
  · rintro ⟨guarded, cached⟩
    obtain ⟨c, r, row, objects, here, current, diverged, same⟩ := cachedAlarm_iff.mp cached
    obtain ⟨old, -⟩ | ⟨done, answered, -, found, made⟩ := row_left command goesOn alarm.1
    · exact .inr ⟨_, guarded, cachedAlarm_iff.mpr
        ⟨c, r, row, objects, old.symm.trans here, current, diverged, same⟩⟩
    · cases here.symm.trans made
      exact .inl ⟨done, answered, diverged, (toProve_some found).1 ▸ same⟩

/-- A run can be repeated at any time over any of its tests: nothing is proved again, the baseline
stays as the run left it, and the alarms are the same. A repeated run is refused only for a row
of other tools whose test has no objects. -/
theorem repeated_runs_agree (distinct : (run.command.names run.world).Nodup) {mid : List Run}
    {later : Run} (each : ∀ r ∈ mid ++ [later], Repeats run r) :
    let left := (main rows run).rows
    after left (mid ++ [later]) = left ∧
      (Refused (after left mid) later → ∃ n row, Guards later n ∧ run.world.objects n = none ∧
        left n = some row ∧ row.t ≠ run.world.toolHash) ∧
      (¬ Refused (after left mid) later →
        (triage later.world (after left mid) (later.command.names later.world)).work = [] ∧
        (main (after left mid) later).downgrades = [] ∧
        ∀ alarm, alarm ∈ (main (after left mid) later).alarms ↔
          alarm ∈ (main rows run).alarms ∧ Guards later alarm.1) := by
  have settled := settled_left command goesOn
  have again := each later (mem_append_right _ (.head _))
  intro left
  rw [settled.after fun r member => each r (mem_append_left _ member)]
  refine ⟨settled.after each, settled.refused again, fun goesOn' => ?_⟩
  obtain ⟨done, _, result⟩ := settled.main again goesOn'
  refine ⟨done, by rw [result], fun alarm => ?_⟩
  rw [result, mem_filterMap, mem_alarms_left command goesOn distinct]
  constructor
  · rintro ⟨n, guarded, cached⟩
    obtain ⟨_, _, _, -, -, -, -, rfl⟩ := cachedAlarm_iff.mp cached
    exact ⟨⟨again.tests n guarded, cached⟩, guarded⟩
  · exact fun ⟨⟨_, cached⟩, guarded⟩ => ⟨_, guarded, cached⟩

end

/-- A divergence stays one, whatever the prover would answer the next time. -/
theorem repeated_runs_agree_changed :
    let run := changedRun (.found .inequiv)
    let later := changedRun (.found .equiv)
    (main provedRows run).alarms = [("a", [])] ∧
      ∀ alarm, alarm ∈ (main (after (main provedRows run).rows [later]) later).alarms ↔
        alarm ∈ (main provedRows run).alarms ∧ Guards later alarm.1 := by
  intro run later
  have again : Repeats run later := ⟨⟨_, _, _, rfl⟩, rfl, fun _ guarded => guarded⟩
  have law := @repeated_runs_agree provedRows run [] false _ rfl
    (fun refused => absurd refused.1 (by decide)) (by decide) [later] later (by simp [again])
  exact ⟨by decide, (law.2.2 fun refused => absurd refused.1 (by decide)).2.2⟩

end BpfEquiv.GuardRun
