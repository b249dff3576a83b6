import BpfEquiv.Asm
import BpfEquiv.CoreRelo
import BpfEquiv.Exc

/-!
Functions that a translation carries over instruction by instruction.

The comparison of two objects blanks the immediate of every instruction with a relocation, and
of every call inside the section, and compares the names of what they refer to. What an
instruction refers to is a symbol and an offset in it. The offset is in the blanked immediate,
or it is lost when the symbol around an address is looked up.
-/
open BpfEquiv.Core (bytesInt)

namespace BpfEquiv.Naked

open List

def ldImm64 : Byte := 0x18
def call : Byte := 0x85

def slice (data : List Byte) (i j : Nat) : List Byte := (data.drop i).take (j - i)

/-! What the source computes. -/

/-- The offset that an immediate stands for, by the kind of the instruction. -/
def addend (data : List Byte) (i : Nat) : Int :=
  let imm := bytesInt (slice data (i + 4) (i + 8))
  if data[i]? = some ldImm64 ∧ data.length ≥ i + 16 then
    imm % 2 ^ 32 + bytesInt (slice data (i + 12) (i + 16)) * 2 ^ 32
  else if data[i]? = some call then (imm + 1) * 8
  else imm

/-- The name for an address in a section. -/
def placeName (elf : Elf) (shndx : Nat) (off : Int) : Except String String :=
  match elf.namedSymbolAt shndx off with
  | some named => .ok named.name
  | none =>
    match elf.sections[shndx]? with
    | none => .error "IndexError: list index out of range"
    | some sec => .ok (sec.name ++ "+" ++ toString off)

/-- A call inside the section. -/
def isPcCall (data : List Byte) (i : Nat) : Bool :=
  decide (i + 8 ≤ data.length) && i % 8 = 0 && data[i]? = some call && data[i + 1]? = some 0x10

/-- Where such a call of a function at an address of its section leads. -/
def callTarget (value : Nat) (data : List Byte) (i : Nat) : Int :=
  value + i + (bytesInt (slice data (i + 4) (i + 8)) + 1) * 8

/-- A function's own relocations by their offset. -/
def relocAt (elf : Elf) (sym : Symbol) (i : Nat) : Option Reloc :=
  if i < sym.size then elf.relocs sym.shndx (sym.value + i) else none

/-- The name that an instruction refers to, if any. -/
def relocName (elf : Elf) (sym : Symbol) (data : List Byte) (i : Nat) :
    Except String (Option String) :=
  match relocAt elf sym i with
  | some r =>
    if r.sym.type = sttSection then do
      let name ← placeName elf r.sym.shndx (addend data i)
      pure (some name)
    else .ok (some r.sym.name)
  | none =>
    if isPcCall data i then do
      let name ← placeName elf sym.shndx (callTarget sym.value data i)
      pure (some name)
    else .ok none

structure Func where
  sec : String
  data : List Byte
  relocs : Nat → Except String (Option String)

def findFunction (elf : Elf) (name : String) : Option (Symbol × Section) := do
  let sym ← elf.symbols.find? fun s =>
    s.name = name && s.type = sttFunc && decide (0 < s.shndx ∧ s.shndx < elf.sections.length)
  let sec ← elf.sections[sym.shndx]?
  pure (sym, sec)

def funcData (f : Symbol × Section) : List Byte := slice f.2.data f.1.value (f.1.value + f.1.size)

def function (elf : Elf) (name : String) : Option Func :=
  (findFunction elf name).map fun f => ⟨f.2.name, funcData f, relocName elf f.1 (funcData f)⟩

def insnWidth (data : List Byte) (off : Nat) : Nat := if data[off]? = some ldImm64 then 16 else 8

def insnAt (data : List Byte) (width off : Nat) : List Byte := slice data off (off + width)

/-- The instruction with other bytes in its immediates. -/
def fill (lo hi : List Byte) (width : Nat) (insn : List Byte) : List Byte :=
  if width = 16 then insn.take 4 ++ (lo ++ ((insn.drop 8).take 4 ++ (hi ++ insn.drop 16)))
  else insn.take 4 ++ (lo ++ insn.drop 8)

def zeros : List Byte := [0, 0, 0, 0]

def hexDigits (bs : List Byte) : String :=
  String.ofList (bs.flatMap fun b => [Nat.digitChar (b.toNat / 16), Nat.digitChar (b.toNat % 16)])

def compareInsn (repr : Option String → String) (name : String) (width idx : Nat)
    (cr rr : Option String) (ci ri : List Byte) : List String :=
  let label := name ++ " insn " ++ toString idx
  let ci := if cr ≠ none ∨ rr ≠ none then fill zeros zeros width ci else ci
  let ri := if cr ≠ none ∨ rr ≠ none then fill zeros zeros width ri else ri
  (if cr ≠ rr then [label ++ ": relocation against " ++ repr rr ++ ", C against " ++ repr cr]
    else []) ++
    if ci ≠ ri then [label ++ ": " ++ hexDigits ri ++ ", C has " ++ hexDigits ci] else []

def compareFrom (repr : Option String → String) (name : String) (c r : Func) :
    Nat → Nat → Nat → List String → Except String (List String)
  | 0, _, _, out => .ok out
  | fuel + 1, off, idx, out =>
    if off + 8 ≤ c.data.length then do
      let width := insnWidth c.data off
      let cr ← c.relocs off
      let rr ← r.relocs off
      let out := out ++ compareInsn repr name width idx cr rr (insnAt c.data width off)
        (insnAt r.data width off)
      if out.length > 8 then .ok (out ++ [name ++ ": ..."])
      else compareFrom repr name c r fuel (off + width) (idx + 1) out
    else .ok out

def compare (repr : Option String → String) (cElf rElf : Elf) (name : String) :
    Except String (List String) :=
  match function cElf name, function rElf name with
  | none, _ => .ok [name ++ ": not a function of the C object"]
  | some _, none => .ok [name ++ ": not a function of the Rust object"]
  | some c, some r =>
    if c.sec ≠ r.sec then
      .ok [name ++ ": section " ++ repr (some r.sec) ++ ", C has " ++ repr (some c.sec)]
    else if c.data.length ≠ r.data.length then
      .ok [name ++ ": " ++ toString (r.data.length / 8) ++ " insns, C has " ++
        toString (c.data.length / 8)]
    else compareFrom repr name c r c.data.length 0 0 []

/-! What an instruction refers to. -/

/-- An offset in a symbol, or in a section where no symbol is around it. -/
inductive Ref where
  | sym (name : String) (off : Int)
  | sec (name : String) (off : Int)
  deriving DecidableEq

def Ref.off : Ref → Int
  | .sym _ off => off
  | .sec _ off => off

def Ref.isSym : Ref → Bool
  | .sym _ _ => true
  | .sec _ _ => false

/-- What the comparison keeps of it. -/
def Ref.text : Ref → String
  | .sym name _ => name
  | .sec name off => name ++ "+" ++ toString off

def placeRef (elf : Elf) (shndx : Nat) (off : Int) : Ref :=
  match elf.namedSymbolAt shndx off with
  | some named => .sym named.name (off - named.value)
  | none => .sec (((elf.sections[shndx]?).map (·.name)).getD "") off

def refAt (elf : Elf) (sym : Symbol) (data : List Byte) (i : Nat) : Option Ref :=
  match relocAt elf sym i with
  | some r =>
    if r.sym.type = sttSection then some (placeRef elf r.sym.shndx (addend data i))
    else some (.sym r.sym.name (addend data i))
  | none =>
    if isPcCall data i then some (placeRef elf sym.shndx (callTarget sym.value data i)) else none

/-- A function with what its instructions refer to. -/
structure Code where
  sec : String
  data : List Byte
  ref : Nat → Option Ref

def code (elf : Elf) (name : String) : Option Code :=
  (findFunction elf name).map fun f => ⟨f.2.name, funcData f, refAt elf f.1 (funcData f)⟩

/-- The offsets of the instructions that follow an offset. -/
inductive Start (data : List Byte) : Nat → Nat → Prop where
  | here {off : Nat} (room : off + 8 ≤ data.length) : Start data off off
  | next {off i : Nat} (room : off + 8 ≤ data.length)
      (later : Start data (off + insnWidth data off) i) : Start data off i

def SameBytes (blank : Bool) (width : Nat) (ci ri : List Byte) : Prop :=
  if blank then fill zeros zeros width ci = fill zeros zeros width ri else ci = ri

/-- The instruction at an offset is the same: all of it, or all but the immediates of a load of
an address or a call that refer to the same. -/
structure SameInsn (c r : Code) (i : Nat) : Prop where
  ref : c.ref i = r.ref i
  patched : c.ref i ≠ none → c.data[i]? = some ldImm64 ∨ c.data[i]? = some call
  bytes : SameBytes (c.ref i).isSome (insnWidth c.data i) (insnAt c.data (insnWidth c.data i) i)
    (insnAt r.data (insnWidth c.data i) i)

structure Verbatim (c r : Code) : Prop where
  sec : c.sec = r.sec
  length : c.data.length = r.data.length
  insns : ∀ i, Start c.data 0 i → SameInsn c r i

/-- The instruction once the references are resolved. -/
def linked (resolve : Ref → List Byte × List Byte) (c : Code) (i : Nat) : List Byte :=
  let width := insnWidth c.data i
  match c.ref i with
  | none => insnAt c.data width i
  | some ref => fill (resolve ref).1 (resolve ref).2 width (insnAt c.data width i)

/-! Names and references. -/

section Names
variable {elf : Elf} {sym : Symbol} {data : List Byte}

theorem placeName_text {shndx : Nat} {off : Int} {name : String}
    (h : placeName elf shndx off = .ok name) : name = (placeRef elf shndx off).text := by
  unfold placeName at h
  unfold placeRef
  split at h
  · cases h
    rfl
  split at h
  · cases h
  rename_i sec here
  cases h
  rw [here]
  rfl

theorem relocName_text {i : Nat} {o : Option String} (h : relocName elf sym data i = .ok o) :
    o = (refAt elf sym data i).map Ref.text := by
  unfold relocName at h
  unfold refAt
  split at h
  · split at h
    · rename_i isSection
      obtain ⟨name, placed, h⟩ := Exc.bind_eq_ok.mp h
      cases h
      rw [if_pos isSection, placeName_text placed]
      rfl
    · rename_i other
      cases h
      rw [if_neg other]
      rfl
  · split at h
    · rename_i pcCall
      obtain ⟨name, placed, h⟩ := Exc.bind_eq_ok.mp h
      cases h
      rw [if_pos pcCall, placeName_text placed]
      rfl
    · rename_i other
      cases h
      rw [if_neg other]
      rfl

theorem Ref.eq_of_text {a b : Ref} (text : a.text = b.text) (off : a.off = b.off)
    (form : a.isSym = b.isSym) : a = b := by
  cases a with
  | sym n o =>
    cases b with
    | sym n' o' =>
      cases text
      cases off
      rfl
    | sec n' o' => cases form
  | sec n o =>
    cases b with
    | sym n' o' => cases form
    | sec n' o' =>
      cases off
      have same : n.toList = n'.toList := by
        have lists := congrArg String.toList text
        simp only [Ref.text, String.toList_append, append_assoc] at lists
        exact append_cancel_right lists
      rw [String.toList_inj.mp same]

end Names

/-! The loop. -/

section Loop
variable {repr : Option String → String} {name : String} {c r : Func}

theorem compareFrom_extends {fuel off idx : Nat} {out res : List String}
    (h : compareFrom repr name c r fuel off idx out = .ok res) : out <+: res := by
  induction fuel generalizing off idx out with
  | zero =>
    cases h
    exact prefix_rfl
  | succ fuel ih =>
    rw [compareFrom] at h
    split at h
    · obtain ⟨cr, _, h⟩ := Exc.bind_eq_ok.mp h
      obtain ⟨rr, _, h⟩ := Exc.bind_eq_ok.mp h
      simp only at h
      split at h
      · cases h
        rw [append_assoc]
        exact prefix_append _ _
      · exact (prefix_append _ _).trans (ih h)
    · cases h
      exact prefix_rfl

/-- What the comparison found equal at an instruction. -/
def NoFinding (c r : Func) (i : Nat) : Prop :=
  ∃ o, c.relocs i = .ok o ∧ r.relocs i = .ok o ∧
    SameBytes o.isSome (insnWidth c.data i) (insnAt c.data (insnWidth c.data i) i)
      (insnAt r.data (insnWidth c.data i) i)

theorem compareInsn_nil {width idx : Nat} {cr rr : Option String} {ci ri : List Byte}
    (h : compareInsn repr name width idx cr rr ci ri = []) :
    cr = rr ∧ SameBytes cr.isSome width ci ri := by
  unfold compareInsn at h
  obtain ⟨names, bytes⟩ := append_eq_nil_iff.mp h
  have same : cr = rr := by
    by_contra differ
    rw [if_pos differ] at names
    cases names
  subst same
  refine ⟨rfl, ?_⟩
  unfold SameBytes
  cases cr with
  | none =>
    by_contra differ
    simp_all
  | some n =>
    by_contra differ
    simp_all

theorem compareFrom_step {fuel off idx : Nat} (room : off + 8 ≤ c.data.length)
    (h : compareFrom repr name c r (fuel + 1) off idx [] = .ok []) :
    NoFinding c r off ∧
      compareFrom repr name c r fuel (off + insnWidth c.data off) (idx + 1) [] = .ok [] := by
  rw [compareFrom, if_pos room] at h
  obtain ⟨cr, cName, h⟩ := Exc.bind_eq_ok.mp h
  obtain ⟨rr, rName, h⟩ := Exc.bind_eq_ok.mp h
  simp only [nil_append] at h
  split at h
  · cases append_ne_nil_of_right_ne_nil _ (cons_ne_nil _ _) (Except.ok.inj h)
  have nothing := prefix_nil.mp (compareFrom_extends h)
  obtain ⟨rfl, bytes⟩ := compareInsn_nil nothing
  rw [nothing] at h
  exact ⟨⟨cr, cName, rName, bytes⟩, h⟩

theorem compareFrom_nil {fuel off idx i : Nat} (start : Start c.data off i)
    (enough : c.data.length ≤ off + fuel)
    (h : compareFrom repr name c r fuel off idx [] = .ok []) : NoFinding c r i := by
  induction start generalizing fuel idx with
  | @here off room =>
    cases fuel with
    | zero => omega
    | succ fuel => exact (compareFrom_step room h).1
  | @next off i room later ih =>
    cases fuel with
    | zero => omega
    | succ fuel =>
      have wide : 1 ≤ insnWidth c.data off := by
        unfold insnWidth
        split <;> omega
      exact ih (by omega) (compareFrom_step room h).2

end Loop

/-! Once the references are resolved. -/

theorem fill_congr {width : Nat} {a b : List Byte} (lengths : a.length = b.length)
    (same : fill zeros zeros width a = fill zeros zeros width b) (lo hi : List Byte) :
    fill lo hi width a = fill lo hi width b := by
  have heads : (a.take 4).length = (b.take 4).length := by
    rw [length_take, length_take, lengths]
  have middles : ((a.drop 8).take 4).length = ((b.drop 8).take 4).length := by
    rw [length_take, length_take, length_drop, length_drop, lengths]
  unfold fill at same ⊢
  split at same
  · rename_i wide
    obtain ⟨head, same⟩ := append_inj same heads
    obtain ⟨_, same⟩ := append_inj same rfl
    obtain ⟨middle, same⟩ := append_inj same middles
    obtain ⟨_, tail⟩ := append_inj same rfl
    rw [if_pos wide, if_pos wide, head, middle, tail]
  · rename_i narrow
    obtain ⟨head, same⟩ := append_inj same heads
    obtain ⟨_, tail⟩ := append_inj same rfl
    rw [if_neg narrow, if_neg narrow, head, tail]

theorem opcode_of_sameBytes {blank : Bool} {width i : Nat} {d e : List Byte} (wide : 8 ≤ width)
    (lengths : d.length = e.length)
    (same : SameBytes blank width (insnAt d width i) (insnAt e width i)) : d[i]? = e[i]? := by
  have first (x : List Byte) : ((insnAt x width i).take 4)[0]? = x[i]? := by
    rw [insnAt, slice, take_take, List.getElem?_take_of_lt (by omega), List.getElem?_drop,
      Nat.add_zero]
  have heads : (insnAt d width i).take 4 = (insnAt e width i).take 4 := by
    cases blank with
    | false => exact congrArg (List.take 4) same
    | true =>
      have filled : fill zeros zeros width (insnAt d width i) =
          fill zeros zeros width (insnAt e width i) := same
      have long : ((insnAt d width i).take 4).length = ((insnAt e width i).take 4).length := by
        simp only [insnAt, slice, length_take, length_drop, lengths]
      unfold fill at filled
      split at filled
      · exact (append_inj filled long).1
      · exact (append_inj filled long).1
  rw [← first d, ← first e, heads]

theorem Start.room {data : List Byte} {off i : Nat} (h : Start data off i) :
    i + 8 ≤ data.length := by
  induction h with
  | here room => exact room
  | next _ _ ih => exact ih

theorem eight_le_insnWidth (data : List Byte) (i : Nat) : 8 ≤ insnWidth data i := by
  unfold insnWidth
  split <;> omega

section Linked
variable {c r : Code}

theorem Verbatim.width (h : Verbatim c r) {i : Nat} (start : Start c.data 0 i) :
    insnWidth c.data i = insnWidth r.data i := by
  have opcode := opcode_of_sameBytes (eight_le_insnWidth c.data i) h.length (h.insns i start).bytes
  unfold insnWidth
  rw [opcode]

theorem Verbatim.linked (h : Verbatim c r) (resolve : Ref → List Byte × List Byte) {i : Nat}
    (start : Start c.data 0 i) : linked resolve c i = linked resolve r i := by
  have same := h.insns i start
  have bytes := same.bytes
  unfold Naked.linked
  rw [← h.width start, ← same.ref]
  cases ref : c.ref i with
  | none =>
    rw [ref] at bytes
    exact bytes
  | some x =>
    rw [ref] at bytes
    refine fill_congr ?_ bytes _ _
    simp only [insnAt, slice, length_take, length_drop, h.length]

theorem start_of_widths {data data' : List Byte} {off i : Nat} (start : Start data off i)
    (length : data.length = data'.length)
    (widths : ∀ j, Start data off j → insnWidth data j = insnWidth data' j) :
    Start data' off i := by
  induction start with
  | here room => exact .here (length ▸ room)
  | next room _ ih =>
    refine .next (length ▸ room) ?_
    rw [← widths _ (.here room)]
    exact ih fun j later => widths j (.next room later)

end Linked

/-! The comparison. -/

theorem function_code {elf : Elf} {name : String} {f : Func} (h : function elf name = some f) :
    ∃ k, code elf name = some k ∧ f.sec = k.sec ∧ f.data = k.data ∧
      ∀ i o, f.relocs i = .ok o → o = (k.ref i).map Ref.text := by
  obtain ⟨found, isFound, rfl⟩ := Option.map_eq_some_iff.mp h
  refine ⟨⟨found.2.name, funcData found, refAt elf found.1 (funcData found)⟩, ?_, rfl, rfl,
    fun i o => relocName_text⟩
  rw [code, isFound]
  rfl

theorem compare_nil {repr : Option String → String} {cElf rElf : Elf} {name : String}
    (h : compare repr cElf rElf name = .ok []) :
    ∃ c r, function cElf name = some c ∧ function rElf name = some r ∧ c.sec = r.sec ∧
      c.data.length = r.data.length ∧ ∀ i, Start c.data 0 i → NoFinding c r i := by
  unfold compare at h
  split at h
  · cases h
  · cases h
  rename_i c r isC isR
  split at h
  · cases h
  rename_i secs
  split at h
  · cases h
  · rename_i lengths
    refine ⟨c, r, isC, isR, not_not.mp secs, not_not.mp lengths, fun i start => ?_⟩
    exact compareFrom_nil start (by omega) h

/-- Where the comparison finds nothing, the functions are the same just if their references have
the same offset and form, and are in loads of addresses and calls only. Functions that are the
same have the same instructions once their references are resolved. -/
theorem verbatim_iff (repr : Option String → String) (cElf rElf : Elf) (name : String)
    (h : compare repr cElf rElf name = .ok []) :
    ∃ c r, code cElf name = some c ∧ code rElf name = some r ∧
      (Verbatim c r ↔ ∀ i, Start c.data 0 i →
        (c.ref i).map Ref.off = (r.ref i).map Ref.off ∧
          (c.ref i).map Ref.isSym = (r.ref i).map Ref.isSym ∧
          (c.ref i ≠ none → c.data[i]? = some ldImm64 ∨ c.data[i]? = some call)) ∧
      (Verbatim c r → ∀ resolve i, Start c.data 0 i →
        Start r.data 0 i ∧ linked resolve c i = linked resolve r i) := by
  obtain ⟨fc, fr, isC, isR, secs, lengths, found⟩ := compare_nil h
  obtain ⟨c, codeC, secC, dataC, namesC⟩ := function_code isC
  obtain ⟨r, codeR, secR, dataR, namesR⟩ := function_code isR
  rw [dataC, dataR] at lengths
  rw [dataC] at found
  refine ⟨c, r, codeC, codeR, ⟨fun same i start => ?_, fun refs => ?_⟩,
    fun same resolve i start => ?_⟩
  · have insn := same.insns i start
    exact ⟨by rw [insn.ref], by rw [insn.ref], insn.patched⟩
  · refine ⟨by rw [← secC, ← secR, secs], lengths, fun i start => ?_⟩
    obtain ⟨o, nameC, nameR, bytes⟩ := found i start
    obtain ⟨off, form, patched⟩ := refs i start
    have texts : (c.ref i).map Ref.text = (r.ref i).map Ref.text := by
      rw [← namesC i o nameC, ← namesR i o nameR]
    refine ⟨?_, patched, ?_⟩
    · cases refC : c.ref i <;> cases refR : r.ref i <;> rw [refC, refR] at texts off form
      · cases texts
      · cases texts
      · exact congrArg some (Ref.eq_of_text (Option.some.inj texts) (Option.some.inj off)
          (Option.some.inj form))
    · rw [dataC, dataR, namesC i o nameC, Option.isSome_map] at bytes
      exact bytes
  · exact ⟨start_of_widths start same.length fun j later => same.width later,
      same.linked resolve start⟩

theorem funcData_length_le (f : Symbol × Section) : (funcData f).length ≤ f.1.size := by
  rw [funcData, slice, length_take]
  omega

/-- A function that loads an address in the array at 8 of .data. -/
def loadWords (imm : Int) : List Word :=
  [word 0x18 1 0 0 imm, word 0 0 0 0 0, word 0x95 0 0 0 0]

def loadObject (target : Symbol) (imm : Int) : Elf :=
  { object "tc" (loadWords imm) [] [] none with
    sections := [⟨0, "", 0, 0, 0, []⟩, codeSection "tc" (loadWords imm), mapsSection,
      ⟨3, ".data", 1, 3, 32, []⟩]
    symbols := [{ symbolAt "prog" sttFunc 1 0 with size := 24 },
      { symbolAt "arr" sttObject 3 8 with size := 24 }, symbolAt "" sttSection 3 0]
    relocs := fun idx off => if idx = 1 ∧ off = 0 then some ⟨target⟩ else none }

def loadBySymbol : Int → Elf := loadObject { symbolAt "arr" sttObject 3 8 with size := 24 }

def loadBySection : Int → Elf := loadObject (symbolAt "" sttSection 3 0)

/-- The same address through the symbol and through its section: the immediates differ. -/
theorem verbatim_iff_address :
    compare (·.getD "None") (loadBySymbol 4) (loadBySection 12) "prog" = .ok [] ∧
    ∃ c r, code (loadBySymbol 4) "prog" = some c ∧ code (loadBySection 12) "prog" = some r ∧
      c.data ≠ r.data ∧ Verbatim c r ∧
      ∀ resolve i, Start c.data 0 i →
        Start r.data 0 i ∧ linked resolve c i = linked resolve r i := by
  have finds : compare (·.getD "None") (loadBySymbol 4) (loadBySection 12) "prog" = .ok [] := by
    decide +kernel
  obtain ⟨c, r, isC, isR, same, linked⟩ := verbatim_iff (·.getD "None") (loadBySymbol 4)
    (loadBySection 12) "prog" finds
  have verbatim : Verbatim c r := by
    refine same.mpr fun i start => ?_
    have bound := start.room
    cases isC
    cases isR
    have inside : i < 24 := lt_of_lt_of_le (by omega) (le_trans bound (funcData_length_le _))
    clear start bound same linked finds
    revert i
    decide +kernel
  refine ⟨finds, c, r, isC, isR, ?_, verbatim, linked verbatim⟩
  cases isC
  cases isR
  decide +kernel

/-- The offset in an array is in the immediate, and not compared. -/
theorem addend_unchecked :
    compare (·.getD "None") (loadBySymbol 0) (loadBySymbol 8) "prog" = .ok [] ∧
    ∃ c r, code (loadBySymbol 0) "prog" = some c ∧ code (loadBySymbol 8) "prog" = some r ∧
      Start c.data 0 0 ∧ c.ref 0 = some (.sym "arr" 0) ∧ r.ref 0 = some (.sym "arr" 8) ∧
      ¬ Verbatim c r := by
  refine ⟨by decide +kernel, _, _, rfl, rfl, .here (by decide +kernel), by decide +kernel,
    by decide +kernel, fun same => ?_⟩
  have refs := (same.insns 0 (.here (by decide +kernel))).ref
  revert refs
  decide +kernel

end BpfEquiv.Naked
