import BpfEquiv.Exc
import BpfEquiv.Text

/-!
The gate that runs objects one after another in a worker's guest.

An object that the guest did not pass is to be run again, alone in a guest of its own. The rerun
depends on the verdict about the object's log: the log of its build with the log of its job after
it. Only the verdict of a failure is run again, and a summary may come from the log of the build.
What a run did is kept as a list of events, so that a row can be compared with what it rests on.
-/
namespace BpfEquiv.Gate

open List

abbrev Chars := List Char

/-! What the source computes. -/

inductive Verdict where
  | pass
  | fail
  | noOracle
  deriving DecidableEq

def exitNoTest : Int := 2

def isSummary (line : Chars) : Bool := "Summary:".toList.isPrefixOf line

def lastSummary (text : Chars) : Chars := ((Text.splitlines text).reverse.find? isSummary).getD []

/-- The texts that begin with a line. -/
def fromLines : Bool → Chars → List Chars
  | _, [] => []
  | first, c :: cs => (if first then [c :: cs] else []) ++ fromLines (c = '\n') cs

/-- `^\[swap\] affected tests:\s*$` -/
def noAffected (text : Chars) : Bool :=
  (fromLines true text).any fun s =>
    match s.dropPrefix? "[swap] affected tests:".toList with
    | none => false
    | some rest =>
      let blanks := rest.takeWhile Text.isSpace
      blanks.length = rest.length || blanks.contains '\n'

def runtimeResult (name : Chars) (rc : Int) (text : Chars) : Verdict × Chars :=
  let summary := lastSummary text
  if rc = 0 ∧ summary ≠ [] then (.pass, summary)
  else if rc = exitNoTest ∧ "Summary: 0/0 PASSED".toList.isPrefixOf summary then
    (.noOracle, "no registered test ran (test_progs EXIT_NO_TEST)".toList)
  else if rc ≠ 124 ∧ (Text.contains ("no prog_tests consume ".toList ++ name) text ∨
    noAffected text) then
    (.noOracle, summary)
  else (.fail,
    if summary = [] then ("exit " ++ toString rc ++ "; no test summary").toList else summary)

structure Row where
  verdict : Verdict
  exit : Int
  summary : Chars
  cExit : Int
  /-- Absent when the C object was not run. -/
  cVerdict : Option Verdict
  cSummary : Chars
  deriving DecidableEq

inductive Which where
  | rust
  | c
  deriving DecidableEq

/-- What a run of an object does: a job of the worker's guest, with the exit status that it gave,
its log and the object's log with it, or a run alone in a fresh guest. -/
inductive Event where
  | job (guest : Chars) (n slot : Nat) (rc : Option Int) (log : Option Chars) (text : Chars)
  | alone (name : Chars) (which : Which) (rc : Int) (text : Chars)
  deriving DecidableEq

structure Config where
  /-- The name of the worker's directory. -/
  dir : Chars
  logDir : Chars
  allowTcg : Bool

structure Guest where
  log : Chars
  nextJob : Nat
  checked : Bool
  /-- It was not stopped. -/
  running : Bool
  deriving DecidableEq

/-- A worker's guest and the number of guests it has booted. -/
structure Worker where
  guest : Option Guest
  boots : Nat
  deriving DecidableEq

structure Prepared where
  name : Chars
  rc : Int
  /-- The log of step 1. -/
  text : Chars
  slot : Nat
  deriving DecidableEq

/-- What the world answers while one object is finished. -/
structure Answers where
  /-- The process of the guest has not ended. -/
  alive : Bool
  /-- The exit status of the job; absent when the guest died or the time was over. -/
  wait : Option Int
  jobLog : Option Chars
  guestLog : Chars
  rustRun : Int × Chars
  cRun : Int × Chars

def underKvm (cfg : Config) (log text : Chars) (booted : Bool) : Except String Unit :=
  if !Text.contains "Linux version".toList text then
    if booted then
      .error ("guest log has no kernel banner; see " ++ String.ofList (cfg.logDir ++ '/' :: log))
    else .ok ()
  else if !cfg.allowTcg && !Text.contains "Hypervisor detected: KVM".toList text then
    .error ("guest ran without KVM (TCG); see " ++ String.ofList (cfg.logDir ++ '/' :: log))
  else .ok ()

def Which.log (name : Chars) : Which → Chars
  | .rust => name ++ ".log".toList
  | .c => name ++ ".c.log".toList

/-- One object alone in a fresh guest. -/
def classic (cfg : Config) (name : Chars) (which : Which) (run : Int × Chars) :
    Except String (Verdict × Chars) := do
  underKvm cfg (which.log name) run.2 false
  pure (runtimeResult name run.1 run.2)

def row (verdict : Verdict × Chars) (rc : Int) : Row := ⟨verdict.1, rc, verdict.2, 0, none, []⟩

def withOracle (cfg : Config) (name : Chars) (a : Answers) (r : Row) :
    Except String (Row × List Event) :=
  if r.verdict = .fail then do
    let c ← classic cfg name .c a.cRun
    pure ({ r with cExit := a.cRun.1, cVerdict := some c.1, cSummary := c.2 },
      [.alone name .c a.cRun.1 a.cRun.2])
  else .ok (r, [])

/-- The worker's guest, booted when there is none that lives. -/
def guestFor (cfg : Config) (w : Worker) (alive : Bool) : Guest × Nat :=
  let fresh : Guest :=
    ⟨"guest-".toList ++ cfg.dir ++ '-' :: (toString (w.boots + 1)).toList ++ ".log".toList,
      0, false, true⟩
  match w.guest with
  | some g => if g.running && alive then (g, w.boots) else (fresh, w.boots + 1)
  | none => (fresh, w.boots + 1)

/-- The line in the object's log before the log of its job. -/
def jobHeader (g : Guest) (rc : Option Int) : Chars :=
  '\n' :: (("[gate] job " ++ toString g.nextJob ++ " of ").toList ++ g.log ++ ": ".toList ++
    (match rc with
      | some rc => ("rc " ++ toString rc).toList
      | none => "no result (guest gone or timed out)".toList) ++ ['\n'])

/-- The log of a guest is looked at once. -/
def checkGuest (cfg : Config) (g : Guest) (log : Chars) : Except String Unit :=
  if g.checked then .ok () else underKvm cfg g.log log true

/-- An object's job in the worker's guest. No row: it has to be run again alone. -/
def gateInGuest (cfg : Config) (w : Worker) (p : Prepared) (a : Answers) :
    Except String (Option Row × List Event × Worker) :=
  if p.rc ≠ 0 then .ok (some (row (runtimeResult p.name p.rc p.text) p.rc), [], w)
  else
    let (g, boots) := guestFor cfg w a.alive
    let text := p.text ++ (jobHeader g a.wait ++ a.jobLog.getD [])
    let event := Event.job g.log g.nextJob p.slot a.wait a.jobLog text
    let g := { g with nextJob := g.nextJob + 1 }
    match a.wait with
    | none => .ok (none, [event], ⟨some { g with running := false }, boots⟩)
    | some rc => do
      checkGuest cfg g a.guestLog
      let g := { g with checked := true }
      let verdict := runtimeResult p.name rc text
      if verdict.1 = .fail then pure (none, [event], ⟨none, boots⟩)
      else pure (some (row verdict rc), [event], ⟨some g, boots⟩)

def orAlone (cfg : Config) (p : Prepared) (a : Answers) (inGuest : Option Row)
    (events : List Event) :
    Except String (Row × List Event) :=
  match inGuest with
  | some r => .ok (r, events)
  | none => do
    let verdict ← classic cfg p.name .rust a.rustRun
    pure (row verdict a.rustRun.1, events ++ [.alone p.name .rust a.rustRun.1 a.rustRun.2])

def finish (cfg : Config) (w : Worker) (p : Prepared) (a : Answers) :
    Except String (Row × List Event × Worker) := do
  let (inGuest, events, w) ← gateInGuest cfg w p a
  let (r, events) ← orAlone cfg p a inGuest events
  let (r, oracle) ← withOracle cfg p.name a r
  pure (r, events ++ oracle, w)

/-- A row as it is recorded, with what was done for it. -/
structure Recorded where
  prepared : Prepared
  row : Row
  events : List Event
  deriving DecidableEq

structure Item where
  prepared : Prepared
  answers : Answers
  /-- The gate is cancelled before the object is finished. -/
  cancelled : Bool

def finishAll (cfg : Config) : Worker → List Item → Except String (List Recorded)
  | _, [] => .ok []
  | w, item :: items =>
    if item.cancelled then .ok []
    else do
      let (r, events, w) ← finish cfg w item.prepared item.answers
      let rest ← finishAll cfg w items
      pure (⟨item.prepared, r, events⟩ :: rest)

/-- A worker with its queue: the guest is booted first. -/
def pipelinedLoop (cfg : Config) (w : Worker) (alive : Bool) (items : List Item) :
    Except String (List Recorded) :=
  if items.isEmpty then .ok []
  else
    let (g, boots) := guestFor cfg w alive
    finishAll cfg ⟨some g, boots⟩ items

/-! What a row rests on. -/

/-- The job of the object gave exit status 0 and a summary, or the object was run alone. -/
inductive Backed (name : Chars) (events : List Event) (r : Row) : Prop where
  | job {guest log text : Chars} {n slot : Nat}
    (done : .job guest n slot (some 0) (some log) text ∈ events)
      (verdict : r.verdict = .pass) (exit : r.exit = 0) (line : r.summary ∈ Text.splitlines log)
      (summary : isSummary r.summary = true) : Backed name events r
  | alone {rc : Int} {text : Chars} (done : .alone name .rust rc text ∈ events)
      (verdict : (r.verdict, r.summary) = runtimeResult name rc text) (exit : r.exit = rc) :
      Backed name events r

/-- The verdict about a job is a failure, which is run again, or its own log has a summary and
its exit status is 0. -/
def Event.Trusted (name : Chars) : Event → Prop
  | .job _ _ _ (some rc) log text =>
    (runtimeResult name rc text).1 = .fail ∨
      (rc = 0 ∧ ∃ line ∈ Text.splitlines (log.getD []), isSummary line = true)
  | _ => True

variable {name text : Chars} {rc : Int} {events : List Event}

theorem lastSummary_append {front log : Chars} {line : Chars} (listed : line ∈ Text.splitlines log)
    (summary : isSummary line = true) :
    lastSummary (front ++ '\n' :: log) ∈ Text.splitlines log ∧
      isSummary (lastSummary (front ++ '\n' :: log)) = true := by
  have isSome : ((Text.splitlines log).reverse.find? isSummary).isSome = true :=
    List.find?_isSome.mpr ⟨line, mem_reverse.mpr listed, summary⟩
  obtain ⟨last, found⟩ := Option.isSome_iff_exists.mp isSome
  have same : lastSummary (front ++ '\n' :: log) = last := by
    rw [lastSummary, Text.splitlines_append, reverse_append, List.find?_append, found]
    rfl
  rw [same]
  exact ⟨mem_reverse.mp (mem_of_find?_eq_some found), List.find?_some found⟩

theorem isSummary_ne_nil {line : Chars} (h : isSummary line = true) : line ≠ [] := by
  rintro rfl
  cases h

theorem runtimeResult_pass :
    (runtimeResult name rc text).1 = .pass ↔ rc = 0 ∧ lastSummary text ≠ [] := by
  unfold runtimeResult
  dsimp only
  constructor
  · intro h
    split at h
    · next both => exact both
    · split at h
      · cases h
      · split at h <;> cases h
  · intro both
    rw [if_pos both]

theorem runtimeResult_summary (h : (runtimeResult name rc text).1 = .pass) :
    (runtimeResult name rc text).2 = lastSummary text := by
  have both := runtimeResult_pass.mp h
  unfold runtimeResult
  dsimp only
  rw [if_pos both]

section Finish
variable {cfg : Config} {w w' : Worker} {p : Prepared} {a : Answers}

theorem jobHeader_newline (g : Guest) (rc : Option Int) : ∃ line, jobHeader g rc = line ++ ['\n'] :=
  ⟨_, (cons_append).symm⟩

/-- A job is run again, and nothing rests on it, or its verdict is kept. -/
theorem gateInGuest_cases {inGuest : Option Row} (prepared : p.rc = 0)
    (h : gateInGuest cfg w p a = .ok (inGuest, events, w')) :
    ∃ guest n text, (∃ front, text = front ++ '\n' :: a.jobLog.getD []) ∧
      events = [.job guest n p.slot a.wait a.jobLog text] ∧
      ((inGuest = none ∧ (Event.job guest n p.slot a.wait a.jobLog text).Trusted p.name) ∨
        ∃ rc, a.wait = some rc ∧ (runtimeResult p.name rc text).1 ≠ .fail ∧
          inGuest = some (row (runtimeResult p.name rc text) rc)) := by
  unfold gateInGuest at h
  rw [if_neg (not_not.mpr prepared)] at h
  dsimp only at h
  generalize (guestFor cfg w a.alive).1 = g at h
  refine ⟨g.log, g.nextJob, p.text ++ (jobHeader g a.wait ++ a.jobLog.getD []), ?_, ?_⟩
  · obtain ⟨line, isHeader⟩ := jobHeader_newline g a.wait
    refine ⟨p.text ++ line, ?_⟩
    rw [isHeader]
    simp
  cases wait : a.wait with
  | none =>
    rw [wait] at h
    cases h
    exact ⟨rfl, .inl ⟨rfl, trivial⟩⟩
  | some rc =>
    rw [wait] at h
    obtain ⟨_, _, h⟩ := Exc.bind_eq_ok.mp h
    split at h
    · rename_i failed
      cases h
      exact ⟨rfl, .inl ⟨rfl, .inl failed⟩⟩
    · rename_i kept
      cases h
      exact ⟨rfl, .inr ⟨rc, rfl, kept, rfl⟩⟩

/-- The verdict of a run alone, with the C object run after a failure. -/
theorem withOracle_cases {r r' : Row}
    (h : withOracle cfg p.name a r = .ok (r', events)) :
    r'.verdict = r.verdict ∧ r'.exit = r.exit ∧ r'.summary = r.summary ∧
      (r.verdict ≠ .fail → r' = r ∧ events = []) ∧
        ∀ e ∈ events, e = .alone p.name .c a.cRun.1 a.cRun.2 := by
  unfold withOracle at h
  split at h
  · rename_i failed
    obtain ⟨c, _, h⟩ := Exc.bind_eq_ok.mp h
    cases h
    exact ⟨rfl, rfl, rfl, fun other => absurd failed other, fun e member => mem_singleton.mp member⟩
  · cases h
    exact ⟨rfl, rfl, rfl, fun _ => ⟨rfl, rfl⟩, fun e none' => nomatch none'⟩

/-- A kept verdict rests on the job just if it is a pass with a summary of the job. -/
theorem kept_backed_iff {guest : Chars} {n slot : Nat} {log : Option Chars}
    (late : ∃ front, text = front ++ '\n' :: log.getD [])
    (kept : (runtimeResult name rc text).1 ≠ .fail) :
    Backed name [.job guest n slot (some rc) log text] (row (runtimeResult name rc text) rc) ↔
      (Event.job guest n slot (some rc) log text).Trusted name := by
  obtain ⟨front, rfl⟩ := late
  constructor
  · intro backed
    cases backed with
    | job done verdict exit line summary =>
      cases mem_singleton.mp done
      exact .inr ⟨rfl, _, line, summary⟩
    | alone done verdict exit => cases mem_singleton.mp done
  · rintro (failed | ⟨rfl, line, listed, summary⟩)
    · exact absurd failed kept
    obtain ⟨inLog, isSummary'⟩ := @lastSummary_append front _ _ listed summary
    have passed : (runtimeResult name 0 (front ++ '\n' :: log.getD [])).1 = .pass :=
      runtimeResult_pass.mpr ⟨rfl, isSummary_ne_nil isSummary'⟩
    cases log with
    | none => cases listed
    | some log =>
      have same : (row (runtimeResult name 0 (front ++ '\n' :: log)) 0).summary =
          lastSummary (front ++ '\n' :: log) := runtimeResult_summary passed
      exact .job (.head _) passed rfl (same ▸ inLog) (same ▸ isSummary')

theorem finish_backed_iff {r : Row} (prepared : p.rc = 0)
    (h : finish cfg w p a = .ok (r, events, w')) :
    Backed p.name events r ↔ ∀ e ∈ events, e.Trusted p.name := by
  unfold finish at h
  obtain ⟨⟨inGuest, jobs, w₁⟩, job, h⟩ := Exc.bind_eq_ok.mp h
  obtain ⟨guest, n, text, late, rfl, outcome⟩ := gateInGuest_cases prepared job
  obtain ⟨⟨r₁, events₁⟩, judged, h⟩ := Exc.bind_eq_ok.mp h
  obtain ⟨⟨r₂, oracle⟩, isOracle, h⟩ := Exc.bind_eq_ok.mp h
  cases h
  obtain ⟨verdict, exit, summary, kept, alone⟩ := withOracle_cases isOracle
  rcases outcome with ⟨rfl, trusted⟩ | ⟨rc, wait, notFailed, rfl⟩
  · obtain ⟨v, isClassic, judged⟩ := Exc.bind_eq_ok.mp judged
    cases judged
    obtain ⟨_, _, isResult⟩ := Exc.bind_eq_ok.mp isClassic
    cases isResult
    refine iff_of_true (.alone (mem_append_left oracle (mem_append_right _ (.head _))) ?_ exit)
      fun e member => ?_
    · rw [verdict, summary]
      rfl
    rcases mem_append.mp member with member | inOracle
    · rcases mem_append.mp member with isJob | isAlone
      · rw [mem_singleton.mp isJob]
        exact trusted
      · rw [mem_singleton.mp isAlone]
        trivial
    · rw [alone e inOracle]
      trivial
  · cases judged
    obtain ⟨rfl, rfl⟩ := kept notFailed
    rw [append_nil, wait, kept_backed_iff late notFailed]
    exact ⟨fun trusted e member => mem_singleton.mp member ▸ trusted,
      fun trusted => trusted _ (.head _)⟩

theorem mem_finishAll {items : List Item} {rs : List Recorded} (h : finishAll cfg w items = .ok rs)
    {r : Recorded} (member : r ∈ rs) :
    ∃ w w' a, finish cfg w r.prepared a = .ok (r.row, r.events, w') := by
  induction items generalizing w rs with
  | nil =>
    cases h
    cases member
  | cons item items ih =>
    rw [finishAll] at h
    split at h
    · cases h
      cases member
    obtain ⟨⟨r₁, events, w₁⟩, first, h⟩ := Exc.bind_eq_ok.mp h
    obtain ⟨rest, later, h⟩ := Exc.bind_eq_ok.mp h
    cases h
    rcases mem_cons.mp member with rfl | inRest
    · exact ⟨w, w₁, item.answers, first⟩
    · exact ih later inRest

end Finish

/-- In every run of a worker, whatever the guests and the runs alone give: the rows of prepared
objects are backed just if every job whose verdict is kept has passed by its own log. -/
theorem rows_backed_iff (cfg : Config) (w : Worker) (alive : Bool) (items : List Item)
    (rs : List Recorded) (h : pipelinedLoop cfg w alive items = .ok rs) :
    (∀ r ∈ rs, r.prepared.rc = 0 → Backed r.prepared.name r.events r.row) ↔
      ∀ r ∈ rs, r.prepared.rc = 0 → ∀ e ∈ r.events, e.Trusted r.prepared.name := by
  unfold pipelinedLoop at h
  split at h
  · cases h
    exact ⟨fun _ r none' => (nomatch none'), fun _ r none' => (nomatch none')⟩
  have each {r : Recorded} (member : r ∈ rs) (prepared : r.prepared.rc = 0) :
      Backed r.prepared.name r.events r.row ↔ ∀ e ∈ r.events, e.Trusted r.prepared.name := by
    obtain ⟨_, _, _, finished⟩ := mem_finishAll h member
    exact finish_backed_iff prepared finished
  exact ⟨fun backed r member prepared => (each member prepared).mp (backed r member prepared),
    fun trusted r member prepared => (each member prepared).mpr (trusted r member prepared)⟩

def okAnd {ε α : Type} (p : α → Bool) : Except ε α → Bool
  | .ok a => p a
  | .error _ => false

theorem exists_of_okAnd {ε α : Type} {x : Except ε α} {p : α → Bool} (h : okAnd p x = true) :
    ∃ a, x = .ok a ∧ p a = true := by
  cases x with
  | error e => cases h
  | ok a => exact ⟨a, rfl, h⟩

def bootedLog : Chars := "Linux version Hypervisor detected: KVM".toList

def workerConfig : Config := ⟨"w".toList, "log".toList, false⟩

/-- An object whose job ends with an exit status and prints a line. -/
def itemWith (name : Chars) (slot : Nat) (rc : Int) (line : Chars) : Item where
  prepared := ⟨name, 0, [], slot⟩
  answers := ⟨true, some rc, some line, bootedLog, (0, line), (0, line)⟩
  cancelled := false

def passLine : Chars := "Summary: 1/0 PASSED".toList
def noTestLine : Chars := "Summary: 0/0 PASSED".toList

theorem rows_backed_iff_pass :
    ∃ rs, pipelinedLoop workerConfig ⟨none, 0⟩ true
        [itemWith ['a'] 0 0 passLine, itemWith ['b'] 1 1 passLine] = .ok rs ∧
      rs.map (·.row.verdict) = [.pass, .pass] ∧ rs.map (·.events.length) = [1, 2] ∧
      ((∀ r ∈ rs, r.prepared.rc = 0 → Backed r.prepared.name r.events r.row) ↔
        ∀ r ∈ rs, r.prepared.rc = 0 → ∀ e ∈ r.events, e.Trusted r.prepared.name) := by
  obtain ⟨rs, run, verdicts⟩ := exists_of_okAnd (x := pipelinedLoop workerConfig ⟨none, 0⟩ true
      [itemWith ['a'] 0 0 passLine, itemWith ['b'] 1 1 passLine])
    (p := fun rs => decide (rs.map (·.row.verdict) = [.pass, .pass] ∧
      rs.map (·.events.length) = [1, 2]))
    (by decide +kernel)
  obtain ⟨verdicts, events⟩ := of_decide_eq_true verdicts
  exact ⟨rs, run, verdicts, events, rows_backed_iff _ _ _ _ _ run⟩

def isSecondJob : List Event → Bool
  | [.job _ n slot rc log _] => decide (n = 1 ∧ slot = 1 ∧ rc = some 2 ∧ log = some noTestLine)
  | _ => false

/-- The second object of a guest ends with the exit status for no test. Its row is taken from
that guest. -/
theorem no_oracle_shared :
    ∃ rs, pipelinedLoop workerConfig ⟨none, 0⟩ true
        [itemWith ['a'] 0 0 passLine, itemWith ['b'] 1 2 noTestLine] = .ok rs ∧
      ∃ r ∈ rs, r.prepared.rc = 0 ∧ r.row.verdict = .noOracle ∧
        (∃ guest text, r.events = [.job guest 1 1 (some 2) (some noTestLine) text]) ∧
        ¬ Backed r.prepared.name r.events r.row := by
  obtain ⟨rs, run, found⟩ := exists_of_okAnd (x := pipelinedLoop workerConfig ⟨none, 0⟩ true
      [itemWith ['a'] 0 0 passLine, itemWith ['b'] 1 2 noTestLine])
    (p := fun rs => rs.any fun r => decide (r.prepared.rc = 0 ∧ r.row.verdict = .noOracle) &&
      isSecondJob r.events)
    (by decide +kernel)
  obtain ⟨r, member, found⟩ := any_eq_true.mp found
  rw [Bool.and_eq_true] at found
  obtain ⟨prepared, verdict⟩ := of_decide_eq_true found.1
  obtain ⟨guest, text, events⟩ : ∃ guest text,
      r.events = [.job guest 1 1 (some 2) (some noTestLine) text] := by
    have job := found.2
    unfold isSecondJob at job
    split at job
    · rename_i guest n slot rc log text shape
      obtain ⟨rfl, rfl, rfl, rfl⟩ := of_decide_eq_true job
      exact ⟨guest, text, shape⟩
    · cases job
  refine ⟨rs, run, r, member, prepared, verdict, ⟨guest, text, events⟩, fun backed => ?_⟩
  cases backed with
  | job _ passed =>
    rw [verdict] at passed
    cases passed
  | alone done =>
    rw [events] at done
    cases mem_singleton.mp done

end BpfEquiv.Gate
