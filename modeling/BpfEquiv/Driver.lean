import BpfEquiv.Check
import BpfEquiv.Dict
import BpfEquiv.Slots

/-!
The driver over two objects: the tables of programs, registered callbacks and globals, the
loop over the program pairs, what it prints and its exit status.

The loop is stated over any check of one pair, so that facts about it hold for every
outcome of the checks.
-/
namespace BpfEquiv
open Smt

/-! Tables. -/

/-- Section and function. -/
abbrev ProgKey := String × String

abbrev ProgTable := List (ProgKey × (Section × Nat))

def Elf.sectionAt (elf : Elf) (shndx : Nat) : Except Err Section :=
  match elf.sections[shndx]? with
  | some sec => .ok sec
  | none => .error (.crash "IndexError: list index out of range")

def programs (elf : Elf) : Except Err ProgTable :=
  elf.symbols.foldlM (fun out sym =>
    if sym.type ≠ sttFunc ∨ sym.name = "" then pure out
    else do
      let sec ← elf.sectionAt sym.shndx
      if !sec.isExec || sec.size = 0 then pure out
      -- subprograms, not entry programs
      else if sec.name = ".text" then pure out
      else pure (Dict.set out (sec.name, sym.name) (sec, sym.value / 8))) []

/-! Registered callbacks. -/

def slotImm (data : List Byte) (i : Nat) : Int :=
  (slotByte data i 7 ++ slotByte data i 6 ++ slotByte data i 5 ++ slotByte data i 4 :
    BitVec 32).toInt

def isTimerCall (data : List Byte) (i : Nat) : Bool :=
  slotByte data i 0 = 0x85 && slotImm data i = hTimerSetCallback

/-- The function that a slot loads into r2 by its address. -/
def callbackAt (elf : Elf) (sec : Section) (j : Nat) : Except Err (Option (Section × Symbol)) :=
  if slotByte sec.data j 0 ≠ 0x18 ∨ (slotByte sec.data j 1).toNat % 16 ≠ 2 then pure none
  else
    match elf.relocs sec.idx (8 * j) with
    | none => pure none
    | some rel =>
      if rel.sym.shndx = 0 then pure none
      else do
        let target ← elf.sectionAt rel.sym.shndx
        if !target.isExec then pure none
        else
          match elf.namedSymbolAt rel.sym.shndx (rel.sym.value + slotImm sec.data j) with
          | some named => pure (if named.name = "" then none else some (target, named))
          | none => pure none

/-- Slots in front of a call in which the callback is looked for. -/
def callbackWindow (i : Nat) : List Nat := (List.range i).filter (i - 6 ≤ ·)

/-- Functions whose addresses are loaded in front of the timer calls of a section. -/
def takenIn (elf : Elf) (sec : Section) : Except Err (List (Section × Symbol)) := do
  let calls := (List.range (sec.data.length / 8)).filter (isTimerCall sec.data)
  let found ← (calls.flatMap callbackWindow).mapM (callbackAt elf sec)
  pure (found.filterMap id)

/-- Callbacks of an object by the names they are paired under. A set is iterated in an
order of Python's choosing, which decides between callbacks of one key. -/
def callbackPrograms (order : List (Section × Symbol) → List (Section × Symbol)) (elf : Elf) :
    Except Err ProgTable := do
  let found ← elf.execSections.mapM (takenIn elf)
  let taken := order found.flatten.dedup
  pure (Dict.update [] (taken.map fun (sec, sym) =>
    ((".text", normalizeName sym.name), (sec, sym.value / 8))))

/-! Globals. -/

/-- Sections of writable memory; struct_ops data is map material. -/
def holdsGlobals (sec : Section) : Bool :=
  sec.isAlloc && !sec.isExec && !".rodata".toList.isPrefixOf sec.name.toList &&
    decide (sec.name ≠ ".maps") && !".BTF".toList.isPrefixOf sec.name.toList &&
    !".struct_ops".toList.isPrefixOf sec.name.toList

/-- Initial bytes of an object; a section without bits holds zeros. -/
def initBytes (sym : Symbol) (sec : Section) : List Byte :=
  if sec.type = shtNobits then List.replicate sym.size 0
  else (sec.data.drop sym.value).take sym.size

structure Globals where
  regions : List (Region × Term .arr)
  warnings : List String
  seen : List (String × (Nat × List Byte))

def addGlobal (elf : Elf) (g : Globals) (sym : Symbol) : Except Err Globals :=
  if sym.type ≠ sttObject ∨ sym.name = "" then pure g
  else do
    let sec ← elf.sectionAt sym.shndx
    if !holdsGlobals sec then pure g
    else
      let name := normalizeName sym.name
      let init := initBytes sym sec
      let warnings := match g.seen.lookup name with
        | some old =>
          if old = (sym.size, init) then []
          else ["global '" ++ name ++ "': size/init differs between objects (" ++
            toString old.1 ++ "B vs " ++ toString sym.size ++ "B)"]
        | none => []
      let regions := if (g.regions.lookup (.g name)).isSome then g.regions
        else g.regions ++ [(.g name, .arrVar ("g_" ++ name))]
      pure ⟨regions, g.warnings ++ warnings, Dict.set g.seen name (sym.size, init)⟩

/-- Named writable globals of both objects with their shared arrays. -/
def globalRegions (elves : List Elf) : Except Err Globals :=
  elves.foldlM (fun g elf => elf.symbols.foldlM (addGlobal elf) g) ⟨[], [], []⟩

/-! Outcomes. -/

def sideName (inRust : Bool) : String := if inRust then "rust" else "C"

/-- What the driver says about one pair. -/
inductive Outcome where
  | unpaired (inRust : Bool)
  | coreskip
  | verdict (v : Verdict) (detail : String)
  deriving DecidableEq

def label (key : ProgKey) : String := key.1 ++ ":" ++ key.2

def pad8 (s : String) : String := s ++ String.ofList (List.replicate (8 - s.length) ' ')

def Outcome.line (key : ProgKey) : Outcome → String
  | .unpaired inRust => "  UNPAIRED " ++ label key ++ " (only in " ++ sideName inRust ++ " object)"
  | .coreskip => "  CORESKIP " ++ label key ++
      "  [unapplied CO-RE relocs; pre-load compare invalid]"
  | .verdict v detail => "  " ++ pad8 v.name ++ " " ++ label key ++ "  [" ++ detail ++ "]"

def Verdict.accepted : Verdict → Bool
  | .equiv | .equiv32 | .waived => true
  | _ => false

def Outcome.fails : Outcome → Bool
  | .unpaired _ => true
  | .coreskip => false
  | .verdict v _ => !v.accepted

/-! The loop. -/

/-- What the driver is given once the objects are loaded: its arguments, the objects, what
the application of the CO-RE relocations noted, the waivers of this pair by label, and the
order of Python's sets. -/
structure Inputs where
  prog : String
  sec : Option String
  elfC : Elf
  elfR : Elf
  notes : List String
  waivers : String → Option String
  order : List (Section × Symbol) → List (Section × Symbol)

/-- A check of one pair, over a state that the pairs share; none while it is running. -/
abbrev PairCheck (S : Type) :=
  ProgKey → Side → Side → Bool → S → Option (Except Err ((Verdict × String) × S))

structure Setup where
  globals : Globals
  progsC : ProgTable
  progsR : ProgTable
  callbacks : List ProgKey
  keys : List ProgKey

/-- Sections whose programs are not compared because their relocations are not applied. -/
def Inputs.coreSecs (inp : Inputs) : List String :=
  if inp.elfC.coreApplied then [] else inp.elfC.coreReloSections ++ inp.elfR.coreReloSections

def Inputs.selects (inp : Inputs) (key : ProgKey) : Bool :=
  match inp.sec with
  | some s => decide (s = "" ∨ key.1 = s ∨ key.2 = s)
  | none => true

def keyLe (a b : ProgKey) : Bool :=
  decide (a.1.toList < b.1.toList) || (decide (a.1 = b.1) && decide (a.2.toList ≤ b.2.toList))

def withCallbacks (progs cbs : ProgTable) (common : List ProgKey) : ProgTable :=
  Dict.update progs (cbs.filter fun e => common.contains e.1)

def setup (inp : Inputs) : Except Err Setup := do
  let progsC ← programs inp.elfC
  let progsR ← programs inp.elfR
  let globals ← globalRegions [inp.elfC, inp.elfR]
  let cbsC ← callbackPrograms inp.order inp.elfC
  let cbsR ← callbackPrograms inp.order inp.elfR
  let callbacks := (Dict.keys cbsC).filter (Dict.keys cbsR).contains
  let progsC := withCallbacks progsC cbsC callbacks
  let progsR := withCallbacks progsR cbsR callbacks
  let keys := (Dict.keys progsC ++ Dict.keys progsR).dedup.insertionSort (keyLe · ·)
  pure ⟨globals, progsC, progsR, callbacks, keys.filter inp.selects⟩

/-- What becomes of the answer of a check. A check that bails leaves the shared state as it
was. -/
def Inputs.settle {S : Type} (inp : Inputs) (key : ProgKey) (s : S) :
    Except Err ((Verdict × String) × S) → Except String (Outcome × S)
  | .error (.crash exn) => .error exn
  | .error (.bail msg) => .ok (.verdict .bail msg, s)
  | .ok ((v, detail), s') =>
    match (if v = .inequiv then inp.waivers (label key) else none) with
    | some reason => .ok (.verdict .waived reason, s')
    | none => .ok (.verdict v detail, s')

def outcomeOf {S : Type} (inp : Inputs) (check : PairCheck S) (set : Setup)
    (key : ProgKey) (s : S) :
    Option (Except String (Outcome × S)) :=
  match set.progsC.lookup key, set.progsR.lookup key with
  | some (secC, entryC), some (secR, entryR) =>
    if inp.coreSecs.contains key.1 then some (.ok (.coreskip, s))
    else
      (check key ⟨inp.elfC, secC, entryC⟩ ⟨inp.elfR, secR, entryR⟩
        (set.callbacks.contains key) s).map (inp.settle key s)
  | _, inR => some (.ok (.unpaired inR.isSome, s))

/-- The outcomes in order, up to an exception. -/
def checkLoop {S : Type} (inp : Inputs) (check : PairCheck S) (set : Setup) :
    List ProgKey → S → Option (List (ProgKey × Outcome) × Option String)
  | [], _ => some ([], none)
  | key :: keys, s =>
    (outcomeOf inp check set key s).bind fun
      | .error exn => some ([], some exn)
      | .ok (o, s') =>
        (checkLoop inp check set keys s').map fun (rest, exn) => ((key, o) :: rest, exn)

/-! The run. -/

structure Report where
  lines : List String
  errors : List String
  outcomes : List (ProgKey × Outcome)
  status : Nat
  deriving DecidableEq

def traceback (exn : String) : List String := ["Traceback (most recent call last):", exn]

def totalLine (prog : String) (failures total : Nat) : String :=
  prog ++ ": " ++ toString (total - failures) ++ "/" ++ toString total ++
    " program(s) proved equivalent"

def failures (outcomes : List (ProgKey × Outcome)) : Nat := outcomes.countP fun e => e.2.fails

/-- The driver from the loaded objects on. The initial state of the checks is made from the
shared arrays. -/
def driver {S : Type} (inp : Inputs) (check : PairCheck S)
    (start : List (Region × Term .arr) → S) : Option Report :=
  match setup inp with
  | .error (.crash exn) | .error (.bail exn) =>
    some ⟨inp.notes.map ("  CORE " ++ ·), traceback exn, [], 1⟩
  | .ok set =>
    let head := inp.notes.map ("  CORE " ++ ·) ++ set.globals.warnings.map ("  WARN " ++ ·)
    if set.keys = [] ∧ inp.sec.any (· ≠ "") then
      some ⟨head, ["no program matches --sec " ++ inp.sec.getD ""], [], 1⟩
    else
      (checkLoop inp check set set.keys (start set.globals.regions)).map fun (outcomes, exn) =>
        let lines := head ++ outcomes.map fun e => e.2.line e.1
        match exn with
        | some exn => ⟨lines, traceback exn, outcomes, 1⟩
        | none =>
          let failed := failures outcomes
          ⟨lines ++ [totalLine inp.prog failed set.keys.length], [], outcomes,
            if failed = 0 then 0 else 1⟩

def startSession (regions : List (Region × Term .arr)) : Session := ⟨regions ++ baseShared, 0⟩

/-- The check of one pair by the executor and the solver. -/
def checkPair (tb : Tables) (fuel : Nat) : PairCheck Session := fun key a b callback s =>
  checkProgram tb key.2 a b callback fuel s

end BpfEquiv
