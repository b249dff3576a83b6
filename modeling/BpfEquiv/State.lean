import BpfEquiv.Smt.Solver
import BpfEquiv.Elf

/-!
Values and state of the symbolic executor.

Registers hold either a 64-bit term or a pointer into a named region. Memory is
one byte-array term per region together with a shadow of spilled pointers. A
region is the structured form of the executor's region string; Region.name gives
the string back wherever the code looks at it.
-/
namespace BpfEquiv
open Smt Function

def stackSize : Nat := 512
def maxInsnsPerPath : Nat := 50000
def maxPaths : Nat := 4096
def maxCopy : Nat := 512
def maxArg : Nat := 8192
def strPointee : Int := -1
def mapkeyPointee : Int := -2
def mapvalPointee : Int := -3
def strCap : Nat := 64
def maxCallDepth : Nat := 8
def maxCbIters : Nat := 8
def maxTimerCbDepth : Nat := 1

/-! Regions. -/

inductive StackFrame where
  | main
  | sub (fid : Nat)
  | cb (fid : Nat)
  deriving DecidableEq

/-- Memory handed back by the environment, by the call that produced it. -/
inductive MapvalKey where
  | call (hid : Int) (mname : String) (idx : Nat)
  | sk (hid : Int) (idx : Nat)
  | percpu (hid : Int) (tag : String)
  | xchg (hid : Int) (idx : Nat)
  | cookie (idx : Nat)
  | iter (kind : String) (idx : Nat)
  | timer (mname : String) (fid : Nat)
  | cb (mname : String) (fid i : Nat)
  deriving DecidableEq

inductive Region where
  | ctx | kmem | trace | sysret | skbdata
  | g (name : String)
  | ro (tag sec : String)
  | kcfg (tag name : String)
  | stack (tag : String) (frame : StackFrame)
  | map (name : String)
  | func (sec : String) (idx : Int)
  | mapval (key : MapvalKey)
  | rbuf (idx : Nat)
  | arenapg (idx : Nat)
  | cbkey (mname : String) (fid i : Nat)
  | cbarg (i : Nat)
  deriving DecidableEq

def MapvalKey.name : MapvalKey → String
  | .call hid mname idx => s!"{hid}:{mname}:{idx}"
  | .sk hid idx => s!"{hid}:sk:{idx}"
  | .percpu hid tag => s!"{hid}:{tag}"
  | .xchg hid idx => s!"{hid}:old:{idx}"
  | .cookie idx => s!"kf:cookie:{idx}"
  | .iter kind idx => s!"kf:iter_{kind}:{idx}"
  | .timer mname fid => s!"timer:{mname}:{fid}"
  | .cb mname fid i => s!"cb:{mname}:{fid}:{i}"

def Region.name : Region → String
  | .ctx => "ctx"
  | .kmem => "kmem"
  | .trace => "trace"
  | .sysret => "sysret"
  | .skbdata => "skbdata"
  | .g name => "g:" ++ name
  | .ro tag sec => "ro:" ++ tag ++ ":" ++ sec
  | .kcfg tag name => "kcfg:" ++ tag ++ ":" ++ name
  | .stack tag .main => "stack:" ++ tag
  | .stack tag (.sub fid) => "stack:" ++ tag ++ ":f" ++ toString fid
  | .stack tag (.cb fid) => "stack:" ++ tag ++ ":cb" ++ toString fid
  | .map name => "map:" ++ name
  | .func sec idx => "func:" ++ sec ++ ":" ++ toString idx
  | .mapval key => "mapval:" ++ key.name
  | .rbuf idx => "rbuf:" ++ toString idx
  | .arenapg idx => "arenapg:" ++ toString idx
  | .cbkey mname fid i => s!"cbkey:{mname}:{fid}:{i}"
  | .cbarg i => "cbarg:" ++ toString i

def Region.isMap : Region → Bool
  | .map _ => true
  | _ => false

def Region.isStack : Region → Bool
  | .stack _ _ => true
  | _ => false

def Region.isReadOnly : Region → Bool
  | .ro _ _ | .map _ | .kcfg _ _ => true
  | _ => false

/-- Regions into which a whole pointer may be stored. -/
def Region.takesSpill : Region → Bool
  | .kmem | .stack _ _ | .g _ | .mapval _ | .arenapg _ => true
  | _ => false

/-- Regions the driver compares in their own right. -/
def Region.isObservable : Region → Bool
  | .ctx | .kmem | .trace | .sysret | .skbdata | .g _ | .mapval _ | .arenapg _ => true
  | _ => false

/-! Values. -/

structure Ptr where
  region : Region
  off : Term (.bv 64)
  deriving DecidableEq

inductive Val where
  | data (t : Term (.bv 64))
  | ptr (p : Ptr)
  deriving DecidableEq

def Val.isPtr : Val → Bool
  | .data _ => false
  | .ptr _ => true

def bv64 (x : Int) : Term (.bv 64) := .bvVal (BitVec.ofInt 64 x)

def byteVal (x : Nat) : Term (.bv 8) := .bvVal (BitVec.ofNat 8 x)

def lo32 (v : Term (.bv 64)) : Term (.bv 32) := .extract 0 32 v

def zext64 {w : Nat} (v : Term (.bv w)) : Term (.bv 64) := .zext 64 v

def byteOf {w : Nat} (v : Term (.bv w)) (k : Nat) : Term (.bv 8) := .extract (8 * k) 8 v

inductive Size where
  | b | h | w | dw
  deriving DecidableEq, Repr

def Size.bytes : Size → Nat
  | .b => 1
  | .h => 2
  | .w => 4
  | .dw => 8

/-! Memory. -/

/-- Spilled pointers of one region by concrete offset, pairwise disjoint. -/
structure Shadow where
  entries : List (BitVec 64 × Ptr)
  apart : entries.Pairwise fun e f =>
    e.1.toNat + 8 ≤ f.1.toNat ∨ f.1.toNat + 8 ≤ e.1.toNat

/-- An entry at o overlaps the window of a given size at a. -/
def Overlaps (o a : BitVec 64) (size : Nat) : Prop :=
  o.toNat < a.toNat + size ∧ a.toNat < o.toNat + 8

instance (o a : BitVec 64) (size : Nat) : Decidable (Overlaps o a size) :=
  inferInstanceAs (Decidable (_ ∧ _))

def Shadow.empty : Shadow := ⟨[], .nil⟩

def Shadow.lookup (sh : Shadow) (a : BitVec 64) : Option Ptr :=
  (sh.entries.find? (·.1 = a)).map (·.2)

/-- Forgets every entry that overlaps a window. -/
def Shadow.evict (sh : Shadow) (a : BitVec 64) (size : Nat) : Shadow where
  entries := sh.entries.filter fun e => !decide (Overlaps e.1 a size)
  apart := sh.apart.filter _

def Shadow.put (sh : Shadow) (a : BitVec 64) (p : Ptr) : Shadow where
  entries := (a, p) :: (sh.evict a 8).entries
  apart := by
    refine List.pairwise_cons.mpr ⟨?_, (sh.evict a 8).apart⟩
    intro e he
    have far : ¬ Overlaps e.1 a 8 := by
      simpa [Shadow.evict] using (List.mem_filter.mp he).2
    simp only [Overlaps] at far ⊢
    omega

/-- Final or current contents of the regions on one path. The written offsets of a
stack region are unknown (none) after a store at a symbolic offset. -/
structure Mem where
  arrs : Region → Option (Term .arr)
  shadow : Region → Shadow
  wrote : Region → Option (List Nat)

def Mem.empty : Mem := ⟨fun _ => none, fun _ => .empty, fun _ => some []⟩

def Mem.setArr (mem : Mem) (r : Region) (a : Term .arr) : Mem :=
  { mem with arrs := update mem.arrs r (some a) }

def Mem.setShadow (mem : Mem) (r : Region) (sh : Shadow) : Mem :=
  { mem with shadow := update mem.shadow r sh }

def Mem.setWrote (mem : Mem) (r : Region) (w : Option (List Nat)) : Mem :=
  { mem with wrote := update mem.wrote r w }

/-! Executor state. -/

/-- Per-path call counters and the few other facts the code keeps beside them. -/
structure Counters where
  calls : Int → Nat
  kf : String → Nat
  cursor : Nat
  frame : Nat
  cbframe : Nat
  rbufsz : Region → Option Nat
  timerMap : String → Option String
  timerCbDepth : Nat

def Counters.zero : Counters :=
  ⟨fun _ => 0, fun _ => 0, 0, 0, 0, fun _ => none, fun _ => none, 0⟩

/-- State of the executor object itself, common to all paths. -/
structure Exec where
  shared : List (Region × Term .arr)
  nclobber : Nat
  dynamicMaps : List (String × MapDef)
  kcfgBytes : List (Region × List Byte)
  queries : Nat

def Exec.sharedArr (e : Exec) (r : Region) : Option (Term .arr) := e.shared.lookup r

/-- A Bail of the executor, or a Python exception that nothing catches. -/
inductive Err where
  | bail (msg : String)
  | crash (exn : String)
  deriving DecidableEq

/-- What one instruction may change besides the registers. -/
structure St where
  mem : Mem
  counters : Counters
  exec : Exec

abbrev M := StateT St (Except Err)

def bail {α : Type} (msg : String) : M α := throw (.bail msg)

def crash {α : Type} (exn : String) : M α := throw (.crash exn)

def modifyMem (f : Mem → Mem) : M Unit := modify fun s => { s with mem := f s.mem }

def modifyCounters (f : Counters → Counters) : M Unit :=
  modify fun s => { s with counters := f s.counters }

def modifyExec (f : Exec → Exec) : M Unit := modify fun s => { s with exec := f s.exec }

abbrev Regs := Nat → Val

def Regs.set (regs : Regs) (i : Nat) (v : Val) : Regs := update regs i v

/-- Prototype of a kernel function: (is a pointer, pointee size or width, index of
the length argument) per parameter, void return, pointer return when known. -/
structure KfuncSig where
  params : List (Bool × Option Int × Option Nat)
  voidRet : Bool
  retIsPtr : Option Bool

structure HelperSig where
  name : String
  params : List (Bool × Option Int × Option Nat)
  retKind : Nat

structure Config where
  elf : Elf
  sec : Section
  tag : String
  z3 : Solver
  kfuncSigOverride : String → Option KfuncSig
  helperSigs : Int → Option HelperSig
  entryFunc : Option String

def needData (v : Val) (what : String) : M (Term (.bv 64)) :=
  match v with
  | .data t => pure t
  | .ptr p => bail s!"pointer used as data in {what} (region {p.region.name})"

end BpfEquiv
