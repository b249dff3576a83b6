import BpfEquiv.GlobalNames
import BpfEquiv.Guard
import BpfEquiv.Shared

/-!
Which load images an accepted object pair speaks about.

A writable variable starts as one symbolic array that both objects share, whatever their
files say. A read-only section starts with the bytes of its own file. An exit status of
zero therefore covers every content of the writable variables, and of the read-only data
exactly the content in the files; variables whose images differ are only reported.
-/
namespace BpfEquiv
open Smt List Option

/-! The contents at the start. -/

/-- What the regions of an object start with in a run over it: its writable variables with
the array of their name, its read-only sections with their bytes. -/
structure Loads (inp : Inputs) (cfg : Config) (exec : Exec) : Prop where
  globals : ∀ elf ∈ [inp.elfC, inp.elfR], ∀ sym ∈ elf.symbols, ∀ sec, DataSymbol elf sym sec →
    initTerm cfg exec (.g (normalizeName sym.name)) =
      some (.arrVar ("g_" ++ normalizeName sym.name))
  rodata : ∀ tag name sec, cfg.elf.sectionByName name = some sec → sec.data.length ≤ 2 ^ 64 →
    ∃ t, initTerm cfg exec (.ro tag name) = some t ∧
      ∀ σ a, t.eval σ a = sec.data.getD a.toNat 0

theorem lookup_ro {elves : List Elf} {g : Globals} (table : globalRegions elves = .ok g)
    (tag name : String) : g.regions.lookup (.ro tag name) = none := by
  have symbols (elf : Elf) (b b' : Globals) (h : elf.symbols.foldlM (addGlobal elf) b = .ok b')
      (absent : b.regions.lookup (.ro tag name) = none) :
      b'.regions.lookup (.ro tag name) = none := by
    refine Exc.foldlM_keeps (I := fun g => g.regions.lookup (.ro tag name) = none)
      (fun sym _ c c' one before => ?_) h absent
    obtain ⟨rfl, _⟩ | regions := addGlobal_cases one
    · exact before
    rw [regions, withRegion]
    split
    · exact before
    · rw [lookup_append, before]
      rfl
  exact Exc.foldlM_keeps (I := fun g => g.regions.lookup (.ro tag name) = none)
    (fun elf _ b b' h absent => symbols elf b b' h absent) table rfl

theorem setup_globals {inp : Inputs} {set : Setup} (h : setup inp = .ok set) :
    globalRegions [inp.elfC, inp.elfR] = .ok set.globals := by
  obtain ⟨progsC, _, h⟩ := Exc.bind_eq_ok.mp h
  obtain ⟨progsR, _, h⟩ := Exc.bind_eq_ok.mp h
  obtain ⟨g, table, h⟩ := Exc.bind_eq_ok.mp h
  obtain ⟨cbsC, _, h⟩ := Exc.bind_eq_ok.mp h
  obtain ⟨cbsR, _, h⟩ := Exc.bind_eq_ok.mp h
  cases h
  exact table

/-- Every state of the executor whose table goes back to the driver's. -/
theorem loads_of_extends {inp : Inputs} {set : Setup} (tables : setup inp = .ok set) (cfg : Config)
    {exec : Exec} (later : Extends (startSession set.globals.regions).shared exec.shared) :
    Loads inp cfg exec := by
  have table := setup_globals tables
  refine ⟨fun elf member sym inside sec data => ?_, fun tag name sec place fits => ?_⟩
  · have found : exec.sharedArr (.g (normalizeName sym.name)) =
        some (.arrVar ("g_" ++ normalizeName sym.name)) := by
      rw [Exec.sharedArr, later.lookup rfl, startSession, lookup_append,
        globalRegions_has table member inside data]
      rfl
    simp only [initTerm, found]
  · have absent : exec.sharedArr (.ro tag name) = none := by
      rw [Exec.sharedArr, later.lookup rfl, startSession, lookup_append, lookup_ro table]
      rfl
    refine ⟨storeConsts false 0 sec.data zeroArr, ?_, fun σ a => eval_constBytes σ fits a⟩
    simp only [initTerm, absent, place, map_some]

/-! Accepted pairs. -/

section Passing
variable {S : Type} {inp : Inputs} {check : PairCheck S} {set : Setup}

/-- Each pair of a passing list passes in a state of which the checks before it keep what
held at the start. -/
theorem Passes.of_mem {I : S → Prop}
    (keep : ∀ key a b callback s answer s',
      check key a b callback s = some (.ok (answer, s')) → I s → I s')
    {keys : List ProgKey} {s : S} (h : Passes inp check set keys s) (start : I s) {key : ProgKey}
    (member : key ∈ keys) : ∃ s', I s' ∧ PairPasses inp check set key s' fun _ => True := by
  induction keys generalizing s with
  | nil => cases member
  | cons first rest ih =>
    obtain ⟨secC, entryC, secR, entryR, inC, inR, passed⟩ := h
    cases member with
    | head =>
      refine ⟨s, start, secC, entryC, secR, entryR, inC, inR, ?_⟩
      obtain ⟨skipped, _⟩ | ⟨compared, v, detail, s', asked, accepted, _⟩ := passed
      · exact .inl ⟨skipped, trivial⟩
      · exact .inr ⟨compared, v, detail, s', asked, accepted, trivial⟩
    | tail _ later =>
      obtain ⟨_, next⟩ | ⟨_, v, detail, s', asked, _, next⟩ := passed
      · exact ih next start later
      · exact ih next (keep _ _ _ _ _ _ _ asked start) later

end Passing

/-- What an accepted answer says about the paths that an assignment selects. -/
theorem judge_selected {z : Solver} {query : Nat} {retBits : Option Nat}
    {shared : List (Region × Term .arr)} {pa pb : List Path} {v : Verdict} {note : String}
    (h : judge z query retBits shared pa pb = .ok (v, note)) (accepted : v = .equiv ∨ v = .equiv32)
    {σ : Assignment} {p q : Path} (hp : Selects σ pa p) (hq : Selects σ pb q) :
    (∀ region ∈ obsRegions shared, ∀ init, shared.lookup region = some init →
      (finalArr init region p).eval σ = (finalArr init region q).eval σ) ∧
    (v = .equiv → retObservable retBits (voidRet "A" pa) (voidRet "B" pb) = true →
      RetAgrees σ retBits p.ret q.ret) ∧
    (v = .equiv32 → (p.ret.eval σ).extractLsb' 0 32 = (q.ret.eval σ).extractLsb' 0 32) := by
  obtain ⟨ra, rb, memEq, foldA, foldB, mems, compared⟩ := judge_folds h
  obtain rfl | ⟨rfl, agreed⟩ | ⟨_, rfl | rfl | ⟨rfl, _, low⟩⟩ := compare_cases compared
  · simp at accepted
  · obtain ⟨memory, ret⟩ := (agreed_iff hp hq foldA foldB mems).mp (agreed σ)
    exact ⟨memory, fun _ => ret, nofun⟩
  · simp at accepted
  · simp at accepted
  · obtain ⟨memory, same⟩ := low σ
    rw [hp.eval_iteFold foldA, hq.eval_iteFold foldB] at same
    exact ⟨(memEqns_hold hp hq mems).mp memory, nofun, fun _ => same⟩

theorem judge_verdict {z : Solver} {query : Nat} {retBits : Option Nat}
    {shared : List (Region × Term .arr)} {pa pb : List Path} {v : Verdict} {note : String}
    (h : judge z query retBits shared pa pb = .ok (v, note)) : v ≠ .waived := by
  rintro rfl
  obtain ⟨ra, rb, memEq, _, _, _, compared⟩ := judge_folds h
  obtain h | ⟨h, _⟩ | ⟨_, h | h | ⟨h, _⟩⟩ := compare_cases compared <;> cases h

/-- Two runs of one program pair from the load images, the verdict on them, and how they end:
for every value of the symbolic inputs the writable variables and the other compared regions
agree. Where the verdict is EQUIV, r0 agrees at its declared width, if it is compared, and where
it is EQUIV32, in its low half. -/
structure Compared (tb : Tables) (fuel : Nat) (inp : Inputs) (set : Setup) (key : ProgKey)
    (a b : Side) (v : Verdict) (s sA sB : Session) (pa pb : List Path) : Prop where
  sideC : a.elf = inp.elfC ∧ set.progsC.lookup key = some (a.sec, a.entry)
  sideR : b.elf = inp.elfR ∧ set.progsR.lookup key = some (b.sec, b.entry)
  verdict : (v = .equiv ∨ v = .equiv32) ∧ ∃ detail s',
    checkPair tb fuel key a b (set.callbacks.contains key) s = some (.ok ((v, detail), s'))
  runC : runSide tb (agreedKfuncSigs a.elf b.elf tb.kfuncSigs) a "A" (set.callbacks.contains key)
    fuel s = some (.ok (pa, sA))
  runR : runSide tb (agreedKfuncSigs a.elf b.elf tb.kfuncSigs) b "B" (set.callbacks.contains key)
    fuel sA = some (.ok (pb, sB))
  images : ∀ cfg exec, Extends s.shared exec.shared → Loads inp cfg exec
  regions : ∀ σ p q, Selects σ pa p → Selects σ pb q → ∀ region ∈ obsRegions sB.shared,
    ∀ init, sB.shared.lookup region = some init →
      (finalArr init region p).eval σ = (finalArr init region q).eval σ
  globals : ∀ σ p q, Selects σ pa p → Selects σ pb q → ∀ elf ∈ [inp.elfC, inp.elfR],
    ∀ sym ∈ elf.symbols, ∀ sec, DataSymbol elf sym sec →
      let start := Term.arrVar ("g_" ++ normalizeName sym.name)
      (finalArr start (.g (normalizeName sym.name)) p).eval σ =
        (finalArr start (.g (normalizeName sym.name)) q).eval σ
  ret : v = .equiv → ∀ σ p q, Selects σ pa p → Selects σ pb q →
    retObservable (inp.elfC.funcRetBits key.2) (voidRet "A" pa) (voidRet "B" pb) = true →
      RetAgrees σ (inp.elfC.funcRetBits key.2) p.ret q.ret
  low : v = .equiv32 → ∀ σ p q, Selects σ pa p → Selects σ pb q →
    (p.ret.eval σ).extractLsb' 0 32 = (q.ret.eval σ).extractLsb' 0 32

theorem mem_obsRegions {shared : List (Region × Term .arr)} {x : String} {a : Term .arr}
    (found : shared.lookup (.g x) = some a) : Region.g x ∈ obsRegions shared := by
  obtain ⟨before, after, rfl, _⟩ := lookup_eq_some_iff.mp found
  simp [obsRegions, comparedRegion]

/-- Exit status zero: every pair that is neither skipped nor waived was run from the load
images, and agrees for all symbolic inputs. -/
theorem exit_zero_images {tb : Tables} {fuel : Nat} {inp : Inputs} {r : Report}
    (h : driver inp (checkPair tb fuel) startSession = some r) (zero : r.status = 0) :
    ∃ set, setup inp = .ok set ∧ ∀ key ∈ set.keys, key.1 ∉ inp.coreSecs →
      inp.waivers (label key) = none →
      ∃ a b v s sA sB pa pb, Compared tb fuel inp set key a b v s sA sB pa pb := by
  obtain ⟨set, tables, _, passes⟩ := (status_zero_iff h).mp zero
  refine ⟨set, tables, fun key member unskipped unwaived => ?_⟩
  obtain ⟨s, later, secC, entryC, secR, entryR, inC, inR, passed⟩ := passes.of_mem
    (I := fun s => Extends (startSession set.globals.regions).shared s.shared)
    (fun _ _ _ _ _ _ _ asked before => before.trans (checkProgram_extends asked)) (.refl _) member
  obtain ⟨skipped, _⟩ | ⟨_, v, detail, s', asked, accepts, _⟩ := passed
  · exact absurd skipped unskipped
  obtain ⟨pa, pb, sA, sB, ranA, ranB, judged, _⟩ := checkProgram_runs asked
  have accepted : v = .equiv ∨ v = .equiv32 := by
    obtain accepted | ⟨_, reason, waived⟩ := accepts
    · cases v with
      | equiv => exact .inl rfl
      | equiv32 => exact .inr rfl
      | waived => exact absurd rfl (judge_verdict judged)
      | inequiv | bail | unknown => cases accepted
    · rw [unwaived] at waived
      cases waived
  have selected (σ p q) (hp : Selects σ pa p) (hq : Selects σ pb q) :=
    judge_selected judged accepted hp hq
  have atEnd : Extends (startSession set.globals.regions).shared sB.shared :=
    (later.trans (runSide_extends ranA)).trans (runSide_extends ranB)
  refine ⟨⟨inp.elfC, secC, entryC⟩, ⟨inp.elfR, secR, entryR⟩, v, s, sA, sB, pa, pb, ⟨rfl, inC⟩,
    ⟨rfl, inR⟩, ⟨accepted, detail, s', asked⟩, ranA, ranB,
    fun cfg exec after => loads_of_extends tables cfg (later.trans after),
    fun σ p q hp hq => (selected σ p q hp hq).1,
    fun σ p q hp hq elf object sym inside sec data => ?_,
    fun equiv σ p q hp hq => (selected σ p q hp hq).2.1 equiv,
    fun equiv32 σ p q hp hq => (selected σ p q hp hq).2.2 equiv32⟩
  have found : sB.shared.lookup (.g (normalizeName sym.name)) =
      some (.arrVar ("g_" ++ normalizeName sym.name)) := by
    rw [atEnd.lookup rfl, startSession, lookup_append,
      globalRegions_has (setup_globals tables) object inside data]
    rfl
  exact (selected σ p q hp hq).1 _ (mem_obsRegions found) _ found

/-! A tunable in read-only data and a variable with two images. -/

/-- Returns the variable that the first instruction loads the address of. -/
def readWords : List Word :=
  [word 0x18 1 0 0 0, word 0 0 0 0 0, word 0x61 0 1 0 0, word 0x95 0 0 0 0]

def zeroWords : List Word := [word 0xb7 0 0 0 0, word 0x95 0 0 0 0]

/-- A program beside one variable of four bytes with a given image. -/
def imageObject (ws : List Word) (name : String) (writable : Bool) (image : List Byte) : Elf :=
  let sym : Symbol := { symbolAt name sttObject 3 0 with size := 4 }
  let sec := if writable then ⟨3, ".data", 1, 3, 4, image⟩ else ⟨3, ".rodata", 1, 2, 4, image⟩
  { object "tc" ws [(0, sym)] [] (some 32) with
    sections := [⟨0, "", 0, 0, 0, []⟩, codeSection "tc" ws, mapsSection, sec]
    symbols := [symbolAt "prog" sttFunc 1 0, sym] }

def imageInputs (elfC elfR : Elf) : Inputs where
  prog := "images"
  sec := none
  elfC := elfC
  elfR := elfR
  notes := []
  waivers _ := none
  order := id

/-- C returns the tunable len and Rust returns zero; both objects hold len with the image. -/
def tunableInputs (image : List Byte) : Inputs :=
  imageInputs (imageObject readWords "len" false image) (imageObject zeroWords "len" false image)

/-- Both objects return x, whose images differ. -/
def imageDiffers : Inputs :=
  imageInputs (imageObject readWords "x" true [1, 0, 0, 0])
    (imageObject readWords "x" true [2, 0, 0, 0])

theorem exit_zero_images_differ :
    ∃ r, driver imageDiffers (checkPair plainTables 200) startSession = some r ∧ r.status = 0 ∧
      ∃ set, setup imageDiffers = .ok set ∧ ∀ key ∈ set.keys, key.1 ∉ imageDiffers.coreSecs →
        imageDiffers.waivers (label key) = none →
        ∃ a b v s sA sB pa pb,
          Compared plainTables 200 imageDiffers set key a b v s sA sB pa pb := by
  have status : (driver imageDiffers (checkPair plainTables 200) startSession).map (·.status) =
      some 0 := by decide +kernel
  obtain ⟨r, ran, zero⟩ := map_eq_some_iff.mp status
  exact ⟨r, ran, zero, exit_zero_images ran zero⟩

/-- The tunable objects with five in the files, but their section is skipped for relocations
that are not applied. -/
def tunableSkipped : Inputs :=
  let inp := tunableInputs [5, 0, 0, 0]
  { inp with elfC := { inp.elfC with coreReloSections := ["tc"], coreApplied := false } }

/-- With the tunable zero in the files the objects are accepted, with five, as user space
may set it, they are not, unless their difference is waived or their section skipped; and a
variable with two images is accepted with a warning. -/
theorem images_frozen :
    (driver (tunableInputs [0, 0, 0, 0]) (checkPair plainTables 200) startSession).map (·.status) =
        some 0 ∧
      (driver (tunableInputs [5, 0, 0, 0]) (checkPair plainTables 200) startSession).map
        (·.status) = some 1 ∧
      (driver { tunableInputs [5, 0, 0, 0] with waivers := fun _ => some "known" }
        (checkPair { plainTables with z3 := refuting } 200) startSession).map (·.status) = some 0 ∧
      (driver tunableSkipped (checkPair plainTables 200) startSession).map (·.status) = some 0 ∧
      (driver imageDiffers (checkPair plainTables 200) startSession).map
          (fun r => (r.status, r.lines.head?)) =
        some (0, some "  WARN global 'x': size/init differs between objects (4B vs 4B)") := by
  refine ⟨?_, ?_, ?_, ?_, ?_⟩ <;> decide +kernel

end BpfEquiv
