import BpfEquiv.Asm
import BpfEquiv.Guard
import BpfEquiv.Kconfig
import BpfEquiv.Names

/-!
What a cached verdict depends on.

The guard keeps a verdict while the hashes of both objects and one digest over the tools stay
the same. The digest is made of the checker's files, the kernel's BTF and configuration, and
the BTF of the test modules. The hash functions are parameters. They have no collisions among
the strings that are hashed; nothing more is assumed, since no function to 32 bytes is
injective. The interpreter that runs the checker is a parameter too: the sources are among
what it reads.
-/
namespace BpfEquiv.Cache
open Kcfg Smt List

abbrev Bytes := List Byte

/-! Digests. -/

/-- The digest of MD5 as hexadecimal text and of SHA-256 as bytes. -/
structure Hashes where
  md5 : Bytes → Bytes
  sha256 : Bytes → Bytes
  md5_length : ∀ b, (md5 b).length = 32
  sha256_length : ∀ b, (sha256 b).length = 32

def FileName := {name : Bytes // 0 ∉ name}

/-- The working tree, the kernel tree and the directory of the selftests. -/
structure Tree where
  equiv : String → Option Bytes
  bld : String → Option Bytes
  kernel : String → Option Bytes
  vmlinux : Option Bytes
  output : List (FileName × Bytes)

/-- Names and data of the sections of an ELF file. -/
abbrev SectionReader := Bytes → Except String (List (String × Bytes))

def toolFiles : List String :=
  ["bpfelf.py", "bpfsym.py", "bpfcore.py", "check.py", "kconfig.py", "waivers.tsv"]

def readFile (dir : String → Option Bytes) (name : String) : Except String Bytes :=
  match dir name with
  | some b => pure b
  | none => .error s!"FileNotFoundError: {name}"

structure KoBtf where
  name : FileName
  btf : Option Bytes
  base : Option Bytes

def isKo (name : FileName) : Bool :=
  (utf8 ".ko").isSuffixOf name.val && decide (name.val.head? ≠ some 0x2e)

def nameLe (a b : FileName × Bytes) : Bool :=
  decide (a.1.val.map BitVec.toNat ≤ b.1.val.map BitVec.toNat)

def Tree.kos (t : Tree) : List (FileName × Bytes) :=
  (t.output.filter fun f => isKo f.1).insertionSort (nameLe · ·)

def koBtf (rd : SectionReader) (file : FileName × Bytes) : Except String KoBtf := do
  let secs ← rd file.2
  pure ⟨file.1, secs.lookup ".BTF", secs.lookup ".BTF.base"⟩

def Tree.moduleBtfs (rd : SectionReader) (t : Tree) : Except String (List KoBtf) :=
  t.kos.mapM (koBtf rd)

def Hashes.koDigest (hs : Hashes) (k : KoBtf) : Bytes :=
  k.name.val ++ 0 :: (utf8 ".BTF" ++ 0 :: (hs.sha256 (k.btf.getD []) ++
    (utf8 ".BTF.base" ++ 0 :: hs.sha256 (k.base.getD []))))

/-- The bytes that the digest of the tools is taken of. -/
def toolInput (hs : Hashes) (rd : SectionReader) (t : Tree) : Except String Bytes := do
  let files ← toolFiles.mapM (readFile t.equiv)
  let kbtf := ((t.bld "vmlinux.btf").map hs.md5).getD []
  let kcfg := ((t.kernel ".config").map hs.md5).getD []
  let mods ← t.moduleBtfs rd
  pure (files.flatten ++ (kbtf ++ (kcfg ++ mods.flatMap hs.koDigest)))

def toolHash (hs : Hashes) (rd : SectionReader) (t : Tree) : Except String Bytes := do
  let input ← toolInput hs rd t
  pure (hs.md5 input)

def Tree.cObj (t : Tree) (name : String) : Option Bytes :=
  (t.output.find? fun f => f.1.val = utf8 (name ++ ".bpf.o")).map (·.2)

def Tree.rObj (t : Tree) (name : String) : Option Bytes := t.bld (name ++ ".bpf.o")

def Tree.corig (t : Tree) (name : String) : Option Bytes :=
  (t.output.find? fun f => f.1.val = utf8 (name ++ ".bpf.o.corig")).map (·.2)

/-- The modules of the checker. -/
def sourceFiles : List String :=
  ["bpfelf.py", "bpfsym.py", "bpfcore.py", "check.py", "kconfig.py", "bpfhelpers.py", "paths.py"]

/-- What is read of a module: a base without data is as good as none. -/
structure KoInput where
  name : FileName
  btf : Option Bytes
  base : Bytes

def KoBtf.input (k : KoBtf) : KoInput := ⟨k.name, k.btf, k.base.getD []⟩

inductive BtfPath where
  | dump | vmlinux
  deriving DecidableEq

/-- The kernel's BTF: the dump if it is there, else the kernel image. -/
def Tree.kernelBtf (t : Tree) : Option (BtfPath × Bytes) :=
  match t.bld "vmlinux.btf" with
  | some b => some (.dump, b)
  | none => t.vmlinux.map (.vmlinux, ·)

/-- Modules are candidates besides the kernel, and not read without its BTF. -/
def Tree.moduleInputs (rd : SectionReader) (t : Tree) : Except String (List KoInput) :=
  if t.kernelBtf.isSome then (t.moduleBtfs rd).map (·.map KoBtf.input) else .ok []

def asText (b : Bytes) : List Char := b.map fun x => Char.ofNat x.toNat

def Tree.kconfig (t : Tree) : Except String (Option Kconfig) :=
  fromKernelTree ((t.kernel ".config").map asText) ((t.kernel "Makefile").map asText)

structure Loaded where
  sources : List (Option Bytes)
  c : Bytes
  r : Bytes
  kernelBtf : Option (BtfPath × Bytes)
  modules : Except String (List KoInput)
  kconfig : Except String (Option Kconfig)
  header : Option Bytes
  waivers : Option Bytes

/-- What a run of the checker takes from the files it reads. It ends early when an object is
missing or the C object is not the one that was built. -/
inductive Reads where
  | missing (sources : List (Option Bytes))
  | swapped (sources : List (Option Bytes))
  | loaded (input : Loaded)

def Tree.sources (t : Tree) : List (Option Bytes) := sourceFiles.map t.equiv

def headerPath : String := "include/uapi/linux/bpf.h"

/-- The backup of the C object differs from it. -/
def Tree.Swapped (t : Tree) (name : String) : Prop :=
  ∃ b ∈ t.corig name, some b ≠ t.cObj name

instance (t : Tree) (name : String) : Decidable (t.Swapped name) :=
  inferInstanceAs (Decidable (∃ b ∈ t.corig name, some b ≠ t.cObj name))

/-- What is read once both objects are there. -/
def Tree.loads (rd : SectionReader) (t : Tree) (c r : Bytes) : Loaded where
  sources := t.sources
  c := c
  r := r
  kernelBtf := t.kernelBtf
  modules := t.moduleInputs rd
  kconfig := t.kconfig
  header := t.kernel headerPath
  waivers := t.equiv "waivers.tsv"

def reads (rd : SectionReader) (t : Tree) (name : String) : Reads :=
  match t.cObj name, t.rObj name with
  | some c, some r => if t.Swapped name then .swapped t.sources else .loaded (t.loads rd c r)
  | _, _ => .missing t.sources

inductive Ended where
  | exited (out : List Char) (returncode : Nat)
  | killed (out : List Char)

/-- The guard's verdict on a test, by what the checker does with what it reads. -/
def prove (check : Reads → Ended) (seconds : Nat) (rd : SectionReader) (t : Tree) (name : String) :
    GuardVerdict × List Char :=
  match check (reads rd t name) with
  | .exited out returncode => classify out returncode
  | .killed out => classifyTimeout out seconds

/-! Concatenations that can be taken apart. -/

section Concat

variable {α β : Type} {R : α → α → Prop}

end Concat

/-! The cache. -/

variable {hs : Hashes} {rd : SectionReader} {t t' : Tree} {name : String} {d : Bytes}
  {files files' : List Bytes} {o o' : Option Bytes} {mods mods' : List KoBtf}

/-- The version that a tree's Makefile gives. -/
def Tree.version (t : Tree) : Option (Except String Nat) :=
  (t.kernel "Makefile").map fun b => makefileVersion (asText b)

end BpfEquiv.Cache
