import BpfEquiv.Run

/-!
The driver: one program pair is checked by running both objects over shared
inputs and asking the solver about the summaries; an object pair is checked by
pairing its programs and folding the verdicts into an exit status.
-/
namespace BpfEquiv
open Smt

/-! Summaries. -/

/-- If-then-else over the paths in order; the last path is the unconditional tail. -/
def iteFold {s : Srt} (out : Path → Term s) : List Path → Option (Term s)
  | [] => none
  | [p] => some (out p)
  | p :: ps => (iteFold out ps).map fun rest => .ite (conj p.conds) (out p) rest

/-- Final array of a region on one path: initial if untouched. -/
def finalArr (init : Term .arr) (region : Region) (p : Path) : Term .arr :=
  (p.mem.arrs region).getD init

def summarize (paths : List Path) (shared : Region → Option (Term .arr)) (region : Region) :
    Option (Term .arr) :=
  (shared region).bind fun init => iteFold (finalArr init region) paths

def summarizeRet (paths : List Path) : Option (Term (.bv 64)) := iteFold (·.ret) paths

/-! Prototypes. -/

/-- Prototype of a function in an object's own BTF; the last declaration counts. -/
def kfuncSigsOf (elf : Elf) (name : String) : Option (List (Bool × Option Nat) × Bool) := do
  let funcs ← elf.btfFuncs
  let f ← (funcs.filter fun f => f.name = name ∧ f.proto.isSome).getLast?
  let (params, voidRet, _) ← f.proto
  pure (params, voidRet)

/-- The kernel's prototype, else what the two objects agree on. -/
def agreedKfuncSigs (a b : Elf) (kernel : String → Option KfuncSig) (name : String) :
    Option KfuncSig :=
  match kernel name with
  | some sig => some sig
  | none => do
    let (pa, voidRet) ← kfuncSigsOf a name
    let (pb, _) ← kfuncSigsOf b name
    if pa.map (·.1) = pb.map (·.1) then
      let params := (pa.zip pb).map fun (x, y) =>
        (x.1, (if x.2 = y.2 then x.2.map Int.ofNat else none), none)
      pure ⟨params, voidRet, none⟩
    else none

/-! One program pair. -/

inductive Verdict where
  | equiv | equiv32 | inequiv | bail | unknown | waived
  deriving DecidableEq, Repr

def Verdict.name : Verdict → String
  | .equiv => "EQUIV"
  | .equiv32 => "EQUIV32"
  | .inequiv => "INEQUIV"
  | .bail => "BAIL"
  | .unknown => "UNKNOWN"
  | .waived => "WAIVED"

/-- One object's side of a program pair. -/
structure Side where
  elf : Elf
  sec : Section
  entry : Nat

/-- What the checks of one object pair share and extend as they go. -/
structure Session where
  shared : List (Region × Term .arr)
  queries : Nat

/-- The regions that exist before any program runs. -/
def baseShared : List (Region × Term .arr) :=
  [(.ctx, .arrVar "ctx"), (.kmem, .arrVar "kmem"), (.trace, .arrVar "trace_init"),
    (.skbdata, .arrVar "skbdata"), (.sysret, .arrVar "sysret")]

structure Tables where
  z3 : Solver
  helperSigs : Int → Option HelperSig
  kfuncSigs : String → Option KfuncSig

def executor (tb : Tables) (sigs : String → Option KfuncSig) (side : Side) (tag : String) :
    Config where
  elf := side.elf
  sec := side.sec
  tag := tag
  z3 := tb.z3
  kfuncSigOverride := sigs
  helperSigs := tb.helperSigs
  entryFunc := none

def freshExec (s : Session) : Exec := ⟨s.shared, 0, [], [], s.queries⟩

def runSide (tb : Tables) (sigs : String → Option KfuncSig) (side : Side) (tag : String)
    (callback : Bool) (fuel : Nat) (s : Session) :
    Option (Except Err (List Path × Session)) :=
  (run (executor tb sigs side tag) (freshExec s) side.entry callback fuel).map fun r =>
    r.map fun (paths, exec) => (paths, ⟨exec.shared, exec.queries⟩)

/-- r0 was never assigned on any path. -/
def voidRet (tag : String) (paths : List Path) : Bool :=
  paths.all fun p => decide (p.ret = .bvVar 64 s!"uninit_{tag}_r0")

def comparedRegion : Region → Bool
  | .g _ | .mapval _ | .arenapg _ => true
  | _ => false

def obsRegions (shared : List (Region × Term .arr)) : List Region :=
  (shared.map (·.1)).filter comparedRegion ++ [.ctx, .trace, .sysret, .skbdata, .kmem]

def memEqn (shared : List (Region × Term .arr)) (pa pb : List Path) (region : Region) :
    Option Eqn := do
  let a ← summarize pa (shared.lookup ·) region
  let b ← summarize pb (shared.lookup ·) region
  pure (.arr a b)

def privateRegister (name : String) : Bool :=
  ["uninit_A_", "uninit_B_", "clobber_A_", "clobber_B_", "cbclobber_A_", "cbclobber_B_"].any
    fun pre => pre.toList.isPrefixOf name.toList

def unresolvedRegisters (z : Solver) (es : List Eqn) : List String :=
  (((es.flatMap z.survivors).filter privateRegister).dedup).insertionSort
    fun a b => a.toList ≤ b.toList

def inequivDetail (m : Model) (ret : Option ((w : Nat) × Term (.bv w) × Term (.bv w)))
    (regions : List Region) (memEq : List Eqn) : String :=
  let retPart := match ret with
    | some ⟨_, a, b⟩ =>
      if m.agrees (.bv a b) then []
      else
        let va := (m.value a).toNat
        let vb := (m.value b).toNat
        [s!"ret: C={va} rust={vb}"]
    | none => []
  let memPart := ((regions.zip memEq).filter fun (_, e) => !m.agrees e).map fun (r, _) =>
    "observable '" ++ r.name ++ "' differs"
  let detail := "; ".intercalate (retPart ++ memPart)
  if detail = "" then "model found (details unavailable)" else detail

/-- Whether r0 is compared: the C object's BTF decides, and without it r0 is compared
unless one side never assigns it. -/
def retObservable (retBits : Option Nat) (voidA voidB : Bool) : Bool :=
  match retBits with
  | some bits => bits != 0
  | none => !(voidA || voidB)

def retPair (retBits : Option Nat) (a b : Term (.bv 64)) :
    (w : Nat) × Term (.bv w) × Term (.bv w) :=
  match retBits with
  | some bits =>
    if bits ≤ 32 then ⟨32, .extract 0 32 a, .extract 0 32 b⟩ else ⟨64, a, b⟩
  | none => ⟨64, a, b⟩

def retEqn : Option ((w : Nat) × Term (.bv w) × Term (.bv w)) → List Eqn
  | some ⟨_, a, b⟩ => [.bv a b]
  | none => []

def compare (z : Solver) (query : Nat) (retBits : Option Nat)
    (shared : List (Region × Term .arr)) (pa pb : List Path) (ra rb : Term (.bv 64))
    (memEq : List Eqn) : Verdict × String :=
  let observable := retObservable retBits (voidRet "A" pa) (voidRet "B" pb)
  let ret := if observable then some (retPair retBits ra rb) else none
  let eqs := retEqn ret ++ memEq
  match z.prove query eqs with
  | .proved =>
    let note := if observable then "" else "; void ret"
    (.equiv, s!"paths C={pa.length} rust={pb.length}{note}")
  | .unknown => (.unknown, "solver timeout/gave-up")
  | .refuted m =>
    let priv := unresolvedRegisters z eqs
    if !priv.isEmpty then
      (.bail, "observable depends on unmodeled register state: " ++ ", ".intercalate priv)
    else
      let wide := observable && (match retBits with
        | some bits => decide (bits > 32)
        | none => true)
      let low := Eqn.bv (Term.extract 0 32 ra) (.extract 0 32 rb) :: memEq
      match wide, z.prove (query + 1) low with
      | true, .proved => (.equiv32, "ret equal in low 32 bits only (check BTF ret width)")
      | _, _ => (.inequiv, inequivDetail m ret (obsRegions shared) memEq)

def judge (z : Solver) (query : Nat) (retBits : Option Nat)
    (shared : List (Region × Term .arr)) (pa pb : List Path) : Except Err (Verdict × String) :=
  match summarizeRet pa, summarizeRet pb, (obsRegions shared).mapM (memEqn shared pa pb) with
  | some ra, some rb, some memEq => pure (compare z query retBits shared pa pb ra rb memEq)
  | _, _, _ => .error (.crash "KeyError")

def checkProgram (tb : Tables) (func : String) (a b : Side) (callback : Bool) (fuel : Nat)
    (s : Session) : Option (Except Err ((Verdict × String) × Session)) :=
  let sigs := agreedKfuncSigs a.elf b.elf tb.kfuncSigs
  (runSide tb sigs a "A" callback fuel s).bind fun resA =>
    match resA with
    | .error e => some (.error e)
    | .ok (pa, sA) =>
      (runSide tb sigs b "B" callback fuel sA).map fun resB => do
        let (pb, sB) ← resB
        let verdict ← judge tb.z3 sB.queries (a.elf.funcRetBits func) sB.shared pa pb
        pure (verdict, ⟨sB.shared, sB.queries + 2⟩)

end BpfEquiv
