import BpfEquiv.Asm
import BpfEquiv.Driver
import BpfEquiv.Text
import BpfEquiv.TimerScan
import BpfEquiv.Verdict

/-!
The exit status of the driver and the verdict that the guard reads off the printed text.

The status is zero when every selected pair is skipped or accepted; the guard says EQUIV
when, besides, some pair was compared.
-/
namespace BpfEquiv
open Smt Text Bool Option

variable {keys : List ProgKey} {outcomes : List (ProgKey × Outcome)}

/-! Classification of a log. -/

inductive GuardVerdict where
  | equiv | inequiv | bail | unknown | noprogs | error | timeout
  deriving DecidableEq, Repr

def startsWithWord (word : String) (line : List Char) : Bool :=
  ("  " ++ word ++ " ").toList.isPrefixOf line

/-- Lines of a log that report a word. -/
def count (out : List Char) (word : String) : Nat := (splitlines out).countP (startsWithWord word)

def divergences (out : List Char) : List Char :=
  let bad := (splitlines out).filter fun line => "  INEQUIV".toList.isPrefixOf line
  ("; ".toList.intercalate (bad.map strip)).take 400

/-- Verdict for a checker killed at the wall limit. -/
def classifyTimeout (out : List Char) (seconds : Nat) : GuardVerdict × List Char :=
  if (splitlines out).any fun line => "  INEQUIV".toList.isPrefixOf line then
    (.inequiv, divergences out)
  else (.timeout, ("killed after " ++ toString seconds ++ "s").toList)

def lastLine (out : List Char) : List Char :=
  ((splitlines (strip out)).getLast?.getD []).take 200

def totalOf (out : List Char) : List Char :=
  ((splitlines out).find? (contains "program(s) proved".toList)).getD []

/-- Verdict for a completed log. -/
def classify (out : List Char) (returncode : Nat) : GuardVerdict × List Char :=
  if count out "INEQUIV" ≠ 0 then (.inequiv, divergences out)
  else if totalOf out = [] ∨ (returncode ≠ 0 ∧ returncode ≠ 1) ∨
      contains "Traceback (most recent call last)".toList out then (.error, lastLine out)
  else if count out "BAIL" ≠ 0 then (.bail, strip (totalOf out))
  else if count out "UNKNOWN" ≠ 0 ∨ count out "UNPAIRED" ≠ 0 then (.unknown, strip (totalOf out))
  else if count out "EQUIV" + count out "EQUIV32" + count out "WAIVED" ≠ 0 ∧ returncode = 0 then
    (.equiv, strip (totalOf out))
  else if contains "0/0 program".toList out ∧ returncode = 0 then (.noprogs, [])
  else (.error, lastLine out)

def Report.out (r : Report) : List Char := unlines ((r.lines ++ r.errors).map String.toList)

/-! The exit status. -/

section Status
variable {S : Type} {inp : Inputs} {check : PairCheck S} {start : List (Region × Term .arr) → S}
  {set : Setup} {key : ProgKey} {s s' : S} {r : Report}

/-- The answer of a check that is accepted for a pair. -/
def Inputs.Accepts (inp : Inputs) (key : ProgKey) (v : Verdict) : Prop :=
  v.accepted = true ∨ v = .inequiv ∧ ∃ reason, inp.waivers (label key) = some reason

/-- The pair is in both objects and is skipped or answered by an accepted verdict; what
follows is asked of the state that the check leaves. -/
def PairPasses (inp : Inputs) (check : PairCheck S) (set : Setup) (key : ProgKey) (s : S)
    (next : S → Prop) : Prop :=
  ∃ secC entryC secR entryR, set.progsC.lookup key = some (secC, entryC) ∧
    set.progsR.lookup key = some (secR, entryR) ∧
    (key.1 ∈ inp.coreSecs ∧ next s ∨
      key.1 ∉ inp.coreSecs ∧ ∃ v detail s', check key ⟨inp.elfC, secC, entryC⟩
        ⟨inp.elfR, secR, entryR⟩ (set.callbacks.contains key) s = some (.ok ((v, detail), s')) ∧
        inp.Accepts key v ∧ next s')

/-- Every pair passes; the checks run in order over the state they share. -/
def Passes (inp : Inputs) (check : PairCheck S) (set : Setup) : List ProgKey → S → Prop
  | [], _ => True
  | key :: keys, s => PairPasses inp check set key s (Passes inp check set keys)

theorem settle_passes (answer : Except Err ((Verdict × String) × S)) (next : S → Prop) :
    (∃ o s', inp.settle key s answer = .ok (o, s') ∧ o.fails = false ∧ next s') ↔
      ∃ v detail s', answer = .ok ((v, detail), s') ∧ inp.Accepts key v ∧ next s' := by
  match answer with
  | .error (.crash _) => simp [Inputs.settle]
  | .error (.bail _) => simp [Inputs.settle, Outcome.fails, Verdict.accepted]
  | .ok ((v, detail), s') =>
    by_cases bad : v = .inequiv
    · subst bad
      cases waiver : inp.waivers (label key) <;>
        simp [Inputs.settle, Inputs.Accepts, Outcome.fails, Verdict.accepted, waiver]
    · simp [Inputs.settle, Inputs.Accepts, Outcome.fails, bad]

theorem outcomeOf_passes {res : Except String (Outcome × S)}
    (h : outcomeOf inp check set key s = some res) (next : S → Prop) :
    PairPasses inp check set key s next ↔
      ∃ o s', res = .ok (o, s') ∧ o.fails = false ∧ next s' := by
  unfold outcomeOf at h
  split at h
  · rename_i secC entryC secR entryR inC inR
    have paired : PairPasses inp check set key s next ↔
        (key.1 ∈ inp.coreSecs ∧ next s ∨
          key.1 ∉ inp.coreSecs ∧ ∃ v detail s', check key ⟨inp.elfC, secC, entryC⟩
            ⟨inp.elfR, secR, entryR⟩ (set.callbacks.contains key) s =
              some (.ok ((v, detail), s')) ∧ inp.Accepts key v ∧ next s') := by
      constructor
      · rintro ⟨_, _, _, _, hC, hR, passed⟩
        cases inC.symm.trans hC
        cases inR.symm.trans hR
        exact passed
      · exact fun passed => ⟨_, _, _, _, inC, inR, passed⟩
    rw [paired]
    by_cases skipped : key.1 ∈ inp.coreSecs
    · rw [if_pos (List.contains_iff_mem.mpr skipped)] at h
      cases h
      simp [skipped, Outcome.fails]
    rw [if_neg fun listed => skipped (List.contains_iff_mem.mp listed)] at h
    obtain ⟨answer, asked, rfl⟩ := map_eq_some_iff.mp h
    rw [settle_passes, asked]
    simp [skipped]
  · rename_i missing
    obtain rfl := Option.some.inj h
    constructor
    · rintro ⟨secC, entryC, secR, entryR, inC, inR, _⟩
      exact absurd inR (missing secC entryC secR entryR inC)
    · rintro ⟨o, s', same, passed, _⟩
      cases same
      cases passed

theorem checkLoop_passes
    {exn : Option String} (h : checkLoop inp check set keys s = some (outcomes, exn)) :
    Passes inp check set keys s ↔ exn = none ∧ ∀ e ∈ outcomes, e.2.fails = false := by
  induction keys generalizing s outcomes with
  | nil =>
    cases h
    simp [Passes]
  | cons key keys ih =>
    rw [checkLoop] at h
    obtain ⟨message | ⟨o, s'⟩, turn, h⟩ :=
      bind_eq_some_iff.mp h <;> rw [Passes, outcomeOf_passes turn]
    · cases h
      simp
    · obtain ⟨⟨rest, exn'⟩, later, ⟨⟩⟩ := map_eq_some_iff.mp h
      rw [List.forall_mem_cons]
      constructor
      · rintro ⟨_, _, ⟨⟩, passed, next⟩
        obtain ⟨clean, all⟩ := (ih later).mp next
        exact ⟨clean, passed, all⟩
      · rintro ⟨clean, passed, all⟩
        exact ⟨o, s', rfl, passed, (ih later).mpr ⟨clean, all⟩⟩

/-- A run that exits with zero. -/
structure Clean (inp : Inputs) (check : PairCheck S) (start : List (Region × Term .arr) → S)
    (set : Setup) (r : Report) : Prop where
  tables : setup inp = .ok set
  selected : set.keys = [] → ∀ s ∈ inp.sec, s = ""
  loop : checkLoop inp check set set.keys (start set.globals.regions) = some (r.outcomes, none)
  passed : ∀ e ∈ r.outcomes, e.2.fails = false
  errors : r.errors = []
  lines : r.lines = inp.notes.map ("  CORE " ++ ·) ++ set.globals.warnings.map ("  WARN " ++ ·) ++
    r.outcomes.map (fun e => e.2.line e.1) ++ [totalLine inp.prog 0 set.keys.length]

theorem failures_eq_zero :
    failures outcomes = 0 ↔ ∀ e ∈ outcomes, e.2.fails = false := by
  simp [failures, List.countP_eq_zero]

theorem driver_clean (h : driver inp check start = some r) (zero : r.status = 0) :
    ∃ set, Clean inp check start set r := by
  unfold driver at h
  split at h
  · cases h
    cases zero
  · cases h
    cases zero
  rename_i set tables
  dsimp only at h
  split at h
  · cases h
    cases zero
  rename_i selected
  obtain ⟨⟨outcomes, exn⟩, loop, same⟩ := map_eq_some_iff.mp h
  cases exn with
  | some message =>
    cases same
    cases zero
  | none =>
    cases same
    have none' : failures outcomes = 0 := by
      by_contra some'
      simp [some'] at zero
    refine ⟨set, tables, fun empty s sec => ?_, loop, failures_eq_zero.mp none', rfl, ?_⟩
    · by_contra named
      exact selected ⟨empty, by simp [mem_def.mp sec, named]⟩
    · simp only [none', List.append_assoc]

theorem status_zero_iff (h : driver inp check start = some r) :
    r.status = 0 ↔ ∃ set, setup inp = .ok set ∧ (set.keys = [] → ∀ s ∈ inp.sec, s = "") ∧
      Passes inp check set set.keys (start set.globals.regions) := by
  constructor
  · intro zero
    obtain ⟨set, clean⟩ := driver_clean h zero
    exact ⟨set, clean.tables, clean.selected, (checkLoop_passes clean.loop).mpr ⟨rfl, clean.passed⟩⟩
  rintro ⟨set, tables, selected, passed⟩
  unfold driver at h
  simp only [tables] at h
  split at h
  · rename_i unmatched
    cases sec : inp.sec with
    | none => simp [sec] at unmatched
    | some s =>
      have empty := selected unmatched.1 s sec
      simp [sec, empty] at unmatched
  · obtain ⟨⟨outcomes, exn⟩, loop, same⟩ := map_eq_some_iff.mp h
    obtain ⟨rfl, all⟩ := (checkLoop_passes loop).mp passed
    cases same
    simp [failures_eq_zero.mpr all]

end Status

/-! The printed text. -/

def Outcome.word : Outcome → String
  | .unpaired _ => "UNPAIRED"
  | .coreskip => "CORESKIP"
  | .verdict v _ => v.name

/-- A line that begins with two blanks and a word. -/
def Reports (word : String) (line : List Char) : Prop :=
  ∃ rest, line = ' ' :: ' ' :: (word.toList ++ ' ' :: rest)

theorem Outcome.line_reports (key : ProgKey) (o : Outcome) :
    Reports o.word (o.line key).toList := by
  cases o with
  | unpaired inRust =>
    exact ⟨(label key ++ " (only in " ++ sideName inRust ++ " object)").toList, by
      simp [Outcome.line, Outcome.word, String.toList_append]⟩
  | coreskip =>
    exact ⟨(label key ++ "  [unapplied CO-RE relocs; pre-load compare invalid]").toList, by
      simp [Outcome.line, Outcome.word, String.toList_append]⟩
  | verdict v detail =>
    -- the padding and the blank after it commute
    have shift (n : Nat) (t : List Char) :
        List.replicate n ' ' ++ ' ' :: t = ' ' :: (List.replicate n ' ' ++ t) := by
      rw [List.append_cons, ← List.replicate_succ', List.replicate_succ, List.cons_append]
    refine ⟨List.replicate (8 - v.name.length) ' ' ++
      (label key ++ "  [" ++ detail ++ "]").toList, ?_⟩
    simp [Outcome.line, Outcome.word, String.toList_append, pad8, shift]

theorem Outcome.word_plain (o : Outcome) : ' ' ∉ o.word.toList := by
  cases o with
  | unpaired _ | coreskip => simp [Outcome.word]
  | verdict v _ => cases v <;> simp [Outcome.word, Verdict.name]

theorem Reports.startsWithWord {word k : String} {line : List Char} (h : Reports word line)
    (hw : ' ' ∉ word.toList) (hk : ' ' ∉ k.toList) : startsWithWord k line = true ↔ k = word := by
  obtain ⟨rest, rfl⟩ := h
  have same := @word_start_iff _ _ rest hk hw
  rw [String.toList_inj] at same
  rw [← same]
  simp [BpfEquiv.startsWithWord, String.toList_append]

section Printed
variable {S : Type} {inp : Inputs} {check : PairCheck S} {start : List (Region × Term .arr) → S}
  {set : Setup} {r : Report}

/-- The printed lines contain no line breaks and no header of an exception, and the name of
the object is not taken for an indented line. -/
structure Plain (inp : Inputs) (r : Report) : Prop where
  breaks : ∀ line ∈ r.lines, line.toList.any isBreak = false
  header : ∀ line ∈ r.lines, contains "Traceback (most recent call last)".toList line.toList = false
  name : inp.prog.toList.head? ≠ some ' '

theorem Clean.splitlines (clean : Clean inp check start set r) (plain : Plain inp r) :
    splitlines r.out = r.lines.map String.toList := by
  rw [Report.out, clean.errors, List.append_nil]
  refine splitlines_unlines fun line member => ?_
  obtain ⟨text, listed, rfl⟩ := List.mem_map.mp member
  exact fun c inside => eq_false_iff.mpr (List.any_eq_false.mp (plain.breaks text listed) c inside)

theorem totalLine_word (prog : String) (failed total : Nat) (k : String)
    (name : prog.toList.head? ≠ some ' ') :
    startsWithWord k (totalLine prog failed total).toList = false := by
  have head : (totalLine prog failed total).toList.head? ≠ some ' ' := by
    cases chars : prog.toList with
    | nil => simp [totalLine, String.toList_append, chars]
    | cons c cs =>
      rw [chars] at name
      simpa [totalLine, String.toList_append, chars] using name
  cases chars : (totalLine prog failed total).toList with
  | nil => simp [startsWithWord, String.toList_append]
  | cons c cs =>
    rw [chars] at head
    have differs : ¬ (' ' = c) := fun same => head (congrArg some same.symm)
    simp [startsWithWord, String.toList_append, List.isPrefixOf, differs]

/-- In a clean run the lines that report a word are those of the outcomes. -/
theorem Clean.count (clean : Clean inp check start set r) (plain : Plain inp r) {k : String}
    (blank : ' ' ∉ k.toList) (core : k ≠ "CORE") (warn : k ≠ "WARN") :
    count r.out k ≠ 0 ↔ ∃ e ∈ r.outcomes, e.2.word = k := by
  have note (word text : String) (hw : ' ' ∉ word.toList) (other : k ≠ word) :
      startsWithWord k ("  " ++ word ++ " " ++ text).toList = false := by
    have shape : Reports word ("  " ++ word ++ " " ++ text).toList :=
      ⟨text.toList, by simp [String.toList_append]⟩
    exact eq_false_iff.mpr fun starts => other ((shape.startsWithWord hw blank).mp starts)
  have outcome (e : ProgKey × Outcome) :
      startsWithWord k (e.2.line e.1).toList = true ↔ k = e.2.word :=
    (e.2.line_reports e.1).startsWithWord e.2.word_plain blank
  rw [BpfEquiv.count, clean.splitlines plain, clean.lines, ← Nat.pos_iff_ne_zero,
    List.countP_pos_iff]
  constructor
  · rintro ⟨chars, member, starts⟩
    obtain ⟨line, listed, rfl⟩ := List.mem_map.mp member
    simp only [List.mem_append, List.mem_map, List.mem_singleton] at listed
    rcases listed with ((⟨text, _, rfl⟩ | ⟨text, _, rfl⟩) | ⟨e, there, rfl⟩) | rfl
    · exact absurd starts (eq_false_iff.mp (note "CORE" text (by simp) core))
    · exact absurd starts (eq_false_iff.mp (note "WARN" text (by simp) warn))
    · exact ⟨e, there, ((outcome e).mp starts).symm⟩
    · exact absurd starts (eq_false_iff.mp (totalLine_word _ _ _ k plain.name))
  · rintro ⟨e, there, rfl⟩
    refine ⟨(e.2.line e.1).toList, List.mem_map_of_mem ?_, (outcome e).mpr rfl⟩
    exact List.mem_append_left _ (List.mem_append_right _ (List.mem_map.mpr ⟨e, there, rfl⟩))

theorem Clean.totalOf (clean : Clean inp check start set r) (plain : Plain inp r) :
    totalOf r.out ≠ [] := by
  have total : totalLine inp.prog 0 set.keys.length ∈ r.lines := by
    rw [clean.lines]
    exact List.mem_append_right _ List.mem_cons_self
  have found : ((Text.splitlines r.out).find? (contains "program(s) proved".toList)).isSome := by
    rw [clean.splitlines plain, List.find?_isSome]
    refine ⟨_, List.mem_map_of_mem total, contains_iff.mpr ?_⟩
    refine ⟨(inp.prog ++ ": " ++ toString set.keys.length ++ "/" ++ toString set.keys.length ++
      " ").toList, " equivalent".toList, ?_⟩
    simp [totalLine, String.toList_append]
  obtain ⟨line, here⟩ := isSome_iff_exists.mp found
  rw [BpfEquiv.totalOf, here]
  rintro rfl
  have inside := contains_iff.mp (List.find?_some here)
  exact absurd (List.eq_nil_of_infix_nil inside) (by simp)

theorem Outcome.word_of_passed {o : Outcome} (passed : o.fails = false) :
    o = .coreskip ∨ o.word = "EQUIV" ∨ o.word = "EQUIV32" ∨ o.word = "WAIVED" := by
  cases o with
  | unpaired _ => cases passed
  | coreskip => exact .inl rfl
  | verdict v _ => cases v <;> simp_all [Outcome.fails, Verdict.accepted,
      Outcome.word, Verdict.name]

theorem Clean.absent (clean : Clean inp check start set r) (plain : Plain inp r) {k : String}
    (bad : k ∈ ["INEQUIV", "BAIL", "UNKNOWN", "UNPAIRED"]) : BpfEquiv.count r.out k = 0 := by
  by_contra reported
  have fixed : ∀ k ∈ ["INEQUIV", "BAIL", "UNKNOWN", "UNPAIRED"], ' ' ∉ k.toList ∧ k ≠ "CORE" ∧
      k ≠ "WARN" ∧ k ≠ "CORESKIP" ∧ k ≠ "EQUIV" ∧ k ≠ "EQUIV32" ∧ k ≠ "WAIVED" := by decide
  obtain ⟨blank, core, warn, skip', others⟩ := fixed k bad
  obtain ⟨e, member, word⟩ := (clean.count plain blank core warn).mp reported
  rcases Outcome.word_of_passed (clean.passed e member) with skip | other
  · rw [skip] at word
    exact skip' word.symm
  · rw [word] at other
    grind

end Printed

/-! The verdict on two objects. -/

end BpfEquiv
