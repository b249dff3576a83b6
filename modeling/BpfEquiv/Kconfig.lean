import BpfEquiv.CNumber
import BpfEquiv.Elf
import BpfEquiv.Exc
import BpfEquiv.Text

/-!
Values of kconfig externs.

An extern has a kind, a size and a sign, which follow from its type. Its value is read from
the text that the kernel's configuration has for it and written in as many bytes.
-/
namespace BpfEquiv.Kcfg
open CNumber List

/-! Declarations. -/

inductive KcfgType where
  | bool | tristate | char | int | charArr | unknown
  deriving DecidableEq

structure Decl where
  kind : KcfgType
  size : Nat
  signed : Bool
  deriving DecidableEq

/-- What else the object's own BTF has for a type: the encoding bits of a number (1 signed,
2 char, 4 bool), or element type and length of an array. -/
inductive Extra where
  | none
  | int (encoding : Nat)
  | array (elem count : Nat)
  deriving DecidableEq

structure ElfType where
  kind : Nat
  name : String
  sizeOrType : Nat
  extra : Extra
  deriving DecidableEq

def ElfType.isModifier (t : ElfType) : Bool :=
  t.kind = 8 || t.kind = 9 || t.kind = 10 || t.kind = 11 || t.kind = 18

abbrev ElfTypes := Nat → Option ElfType

def recursionError : String := "RecursionError: maximum recursion depth exceeded"

def unwrapFrom (types : ElfTypes) : Nat → Nat → Nat
  | 0, tid => tid
  | steps + 1, tid =>
    match types tid with
    | none => tid
    | some t => if t.isModifier then unwrapFrom types steps t.sizeOrType else tid

def unwrapModifiers (types : ElfTypes) (tid : Nat) : Nat := unwrapFrom types 32 tid

/-- Modifiers at the front of a type; none if there are too many. -/
def strip (types : ElfTypes) : Nat → Nat → Option ElfType
  | 0, _ => none
  | steps + 1, tid =>
    match types tid with
    | none => none
    | some t => if t.isModifier then strip types steps t.sizeOrType else some t

def btfTypeSize (types : ElfTypes) : Nat → Nat → Except String (Option Nat)
  | 0, _ => .error recursionError
  | depth + 1, tid =>
    match strip types 32 tid with
    | none => pure none
    | some t =>
      if t.kind ∈ [1, 4, 5, 6, 16, 19] then pure (some t.sizeOrType)
      else if t.kind = 2 then pure (some 8)
      else
        match t.extra with
        | .array elem count => do
          let es ← btfTypeSize types depth elem
          pure (es.map (· * count))
        | _ => pure none

def unknownType (types : ElfTypes) (depth tid : Nat) : Except String Decl := do
  let size ← btfTypeSize types depth tid
  pure ⟨.unknown, size.getD 0, false⟩

/-- Kind, size and sign of an extern. Arrays inside arrays go to the depth of the interpreter. -/
def kcfgType (types : ElfTypes) : Nat → Nat → Except String Decl
  | 0, _ => .error recursionError
  | depth + 1, tid =>
    let tid := unwrapModifiers types tid
    match types tid with
    | none => unknownType types depth tid
    | some t =>
      match t.extra with
      | .int encoding =>
        if encoding &&& 4 ≠ 0 then
          pure ⟨if t.sizeOrType = 1 then .bool else .unknown, t.sizeOrType, false⟩
        else
          let signed := decide (encoding &&& 1 ≠ 0)
          if t.sizeOrType = 1 then pure ⟨.char, 1, signed⟩
          else if t.sizeOrType ∉ [2, 4, 8] then pure ⟨.unknown, t.sizeOrType, signed⟩
          else pure ⟨.int, t.sizeOrType, signed⟩
      | .array elem count =>
        if count = 0 then unknownType types depth tid
        else do
          let inner ← kcfgType types depth elem
          if inner.kind = .char then pure ⟨.charArr, count, false⟩
          else unknownType types depth tid
      | .none =>
        if (t.kind = 6 ∨ t.kind = 19) ∧ t.name = "libbpf_tristate" then
          pure ⟨if t.kind = 19 ∨ t.sizeOrType = 4 then .tristate else .unknown, t.sizeOrType, false⟩
        else unknownType types depth tid

/-! Numbers. -/

/-- The pattern 0[xX][0-9a-fA-F]+ -/
def hexForm : List Char → Bool
  | '0' :: x :: d :: ds => (x = 'x' || x = 'X') && (d :: ds).all (isDigit 16)
  | _ => false

/-- The pattern 0[0-7]* -/
def octForm : List Char → Bool
  | '0' :: ds => ds.all (isDigit 8)
  | _ => false

/-- The pattern [1-9][0-9]* -/
def decForm : List Char → Bool
  | d :: ds => isDigit 10 d && decide (d ≠ '0') && ds.all (isDigit 10)
  | _ => false

def literal (body : List Char) : Option Nat :=
  if hexForm body then some (numeral 16 (body.drop 2))
  else if octForm body then some (numeral 8 body)
  else if decForm body then some (numeral 10 body)
  else none

def strtoull (name : String) (text : List Char) : Except String Nat :=
  match literal (unsigned text) with
  | none => .error s!"{name}: '{String.ofList text}' isn't a valid integer"
  | some v =>
    if v ≥ 2 ^ 64 then .error s!"{name}: '{String.ofList text}' overflows"
    else pure (if text.head? = some '-' then (2 ^ 64 - v) % 2 ^ 64 else v)

def setNum (name : String) (v : Nat) (decl : Decl) : Except String (List Byte) :=
  if decl.kind ≠ .int ∧ decl.kind ≠ .char ∧ decl.kind ≠ .bool then
    .error s!"{name}: value {v} implies an integer, char or boolean type"
  else if decl.kind = .bool ∧ v > 1 then .error s!"{name}: value {v} isn't boolean compatible"
  else if decl.size ∉ [1, 2, 4, 8] then .error s!"{name}: unsupported size {decl.size}"
  else
    let bits := decl.size * 8
    if decl.size ≠ 8 ∧
        ¬ (if decl.signed then (v + 2 ^ (bits - 1)) % 2 ^ 64 < 2 ^ bits else v / 2 ^ bits = 0) then
      .error s!"{name}: value {v} doesn't fit in {decl.size} bytes"
    else pure (leBytes decl.size (v % 2 ^ bits))

/-! Values. -/

def tristate (c : Char) : Nat := if c = 'n' then 0 else if c = 'y' then 1 else 2

def utf8 (cs : List Char) : List Byte := (String.ofList cs).toUTF8.toList.map fun b => b.toBitVec

/-- The bytes of an extern for the text of its option. -/
def encode (name : String) (raw : List Char) (decl : Decl) : Except String (List Byte) :=
  match raw with
  | [] => .error s!"{name}: no value"
  | c :: _ =>
    if c = 'y' ∨ c = 'n' ∨ c = 'm' then
      match decl.kind with
      | .bool =>
        if c = 'm' then .error s!"{name}: 'm' implies a tristate or char type"
        else pure [if c = 'y' then 1 else 0]
      | .tristate => pure (leBytes decl.size (tristate c))
      | .char => pure [BitVec.ofNat 8 c.toNat]
      | _ => .error s!"{name}: '{c}' implies a bool, tristate or char type"
    else if c = '"' then
      if decl.kind ≠ .charArr then .error s!"{name}: a string implies a char array"
      else if raw.length < 2 ∨ raw.getLast? ≠ some '"' then
        .error s!"{name}: invalid string {String.ofList raw}"
      else
        -- an array has at least one element
        let s := (utf8 raw.tail.dropLast).take (decl.size - 1)
        pure (s ++ List.replicate (decl.size - s.length) 0)
    else if decl.kind ≠ .int ∧ decl.kind ≠ .char then
      .error s!"{name}: '{String.ofList raw}' implies an integer type"
    else do
      let v ← strtoull name raw
      setNum name v decl

structure Kconfig where
  config : String → Option (List Char)
  version : Nat
  hasBpfCookie : Bool

/-- The bytes that are loaded for an extern. -/
def Kconfig.value (kc : Kconfig) (name : String) (decl : Decl) (weak : Bool) :
    Except String (List Byte) :=
  if "CONFIG_".toList.isPrefixOf name.toList then
    match kc.config name with
    | none =>
      if !weak then .error s!"{name} is not set and the extern is not __weak"
      else pure (List.replicate decl.size 0)
    | some raw => encode name raw decl
  else if name = "LINUX_KERNEL_VERSION" then setNum name kc.version decl
  else if name = "LINUX_HAS_BPF_COOKIE" then setNum name (if kc.hasBpfCookie then 1 else 0) decl
  else if name = "LINUX_HAS_SYSCALL_WRAPPER" then
    setNum name (if kc.config "CONFIG_ARCH_HAS_SYSCALL_WRAPPER" = some ['y'] then 1 else 0) decl
  else if "LINUX_".toList.isPrefixOf name.toList ∧ weak then pure (List.replicate decl.size 0)
  else .error s!"{name}: unrecognized virtual extern"

/-! The kernel tree. -/

/-- Options by name, of lines that set one; the last line counts. -/
def parseConfig (text : List Char) : String → Option (List Char) :=
  (Text.splitlines text).foldl (fun options line =>
    if "CONFIG_".toList.isPrefixOf line ∧ '=' ∈ line then
      let key := String.ofList (line.takeWhile (· ≠ '='))
      fun name => if name = key then some (line.dropWhile (· ≠ '=')).tail else options name
    else options) fun _ => none

/-- Rests of a text from the start of each line on. -/
def lineStarts : List Char → List (List Char)
  | [] => []
  | c :: cs => if c = '\n' then cs :: lineStarts cs else lineStarts cs

/-- A number behind a key and an equals sign at the front of a text. -/
def fieldAt (key : List Char) (text : List Char) : Option Nat := do
  let rest ← text.dropPrefix? key
  match rest.dropWhile Text.isSpace with
  | '=' :: rest =>
    let digits := (rest.dropWhile Text.isSpace).takeWhile (isDigit 10)
    if digits = [] then none else some (numeral 10 digits)
  | _ => none

def makefileField (text : List Char) (key : String) : Except String Nat :=
  match (text :: lineStarts text).findSome? (fieldAt key.toList) with
  | some n => pure n
  | none => .error s!"no {key} in the kernel Makefile"

def makefileVersion (text : List Char) : Except String Nat := do
  let version ← makefileField text "VERSION"
  let patchlevel ← makefileField text "PATCHLEVEL"
  let sublevel ← makefileField text "SUBLEVEL"
  pure (version * 2 ^ 16 + patchlevel * 2 ^ 8 + min sublevel 255)

/-- Configuration and version of a kernel tree, by the texts of its .config and Makefile;
nothing if one of them cannot be read. -/
def fromKernelTree (config makefile : Option (List Char)) : Except String (Option Kconfig) :=
  match config, makefile with
  | some config, some makefile => do
    let version ← makefileVersion makefile
    pure (some ⟨parseConfig config, version, true⟩)
  | _, _ => pure none

/-! Accepted numbers. -/

/-- The number that digits spell, if they are digits. -/
def spell (base : Nat) (digits : List Char) : Option Nat :=
  if digits ≠ [] ∧ digits.all (isDigit base) = true then some (numeral base digits) else none

theorem literal_hex {x d : Char} {ds : List Char} (mark : x = 'x' ∨ x = 'X') :
    literal ('0' :: x :: d :: ds) = spell 16 (d :: ds) := by
  have notOct : isDigit 8 x = false := by rcases mark with rfl | rfl <;> decide
  have form : hexForm ('0' :: x :: d :: ds) = (d :: ds).all (isDigit 16) := by
    rcases mark with rfl | rfl <;> rfl
  have oct : octForm ('0' :: x :: d :: ds) = false := by
    rw [octForm, all_cons, notOct, Bool.false_and]
  have dec : decForm ('0' :: x :: d :: ds) = false := rfl
  rw [literal, form, oct, dec, spell]
  simp only [Bool.false_eq_true, if_false, ne_eq, reduceCtorEq, not_false_eq_true, true_and]
  rfl

theorem literal_oct {ds : List Char} (notHex : hexForm ('0' :: ds) = false) :
    literal ('0' :: ds) = spell 8 ('0' :: ds) := by
  have zero : isDigit 8 '0' = true := by decide
  have dec : decForm ('0' :: ds) = false := rfl
  rw [literal, notHex, dec, octForm, spell, all_cons, zero, Bool.true_and]
  simp only [Bool.false_eq_true, if_false, ne_eq, reduceCtorEq, not_false_eq_true, true_and]

theorem literal_dec {c : Char} {ds : List Char} (notZero : c ≠ '0') :
    literal (c :: ds) = spell 10 (c :: ds) := by
  have hex : hexForm (c :: ds) = false := by
    unfold hexForm
    split
    · next same => exact absurd (List.cons.inj same).1 notZero
    · rfl
  have oct : octForm (c :: ds) = false := by
    unfold octForm
    split
    · next same => exact absurd (List.cons.inj same).1 notZero
    · rfl
  have dec : decForm (c :: ds) = (c :: ds).all (isDigit 10) := by
    rw [decForm, decide_eq_true notZero, Bool.and_true, all_cons]
  rw [literal, hex, oct, dec, spell]
  simp only [Bool.false_eq_true, if_false, ne_eq, reduceCtorEq, not_false_eq_true, true_and]

/-- The three patterns and the search for a base agree on the digits of a number. -/
theorem literal_eq (body : List Char) :
    literal body = spell (splitBase body).1 (splitBase body).2 := by
  unfold splitBase
  split
  · rename_i x d ds
    split
    · next hex => exact literal_hex hex.1
    rename_i notHex
    by_cases mark : x = 'x' ∨ x = 'X'
    · -- an x without a digit behind it: neither a hexadecimal nor an octal number
      have notOct : isDigit 8 x = false := by rcases mark with rfl | rfl <;> decide
      have noDigit : isDigit 16 d = false := Bool.eq_false_iff.mpr fun hex => notHex ⟨mark, hex⟩
      rw [literal_hex mark, spell, spell, all_cons, all_cons, all_cons, noDigit, notOct]
      simp
    · refine literal_oct ?_
      rw [hexForm]
      simp only [not_or] at mark
      simp [mark]
  · rename_i ds short
    refine literal_oct ?_
    match ds with
    | [] | [_] => rfl
    | x :: d :: ds => exact absurd rfl (short x d ds)
  · rename_i other
    match body with
    | [] => rfl
    | c :: ds => exact literal_dec fun same => other ds (same ▸ rfl)

theorem literal_iff {body : List Char} {n : Nat} :
    literal body = some n ↔ ∃ base digits, splitBase body = (base, digits) ∧ digits ≠ [] ∧
      digits.all (isDigit base) = true ∧ n = numeral base digits := by
  rw [literal_eq, spell]
  constructor
  · intro found
    split at found
    · next good => exact ⟨_, _, rfl, good.1, good.2, (Option.some.inj found).symm⟩
    · cases found
  · rintro ⟨base, digits, same, some', all, rfl⟩
    rw [same]
    exact if_pos ⟨some', all⟩

variable {name : String} {text : List Char} {v : Nat}

/-- The function does what strtoull of C does, except for white space at the front. -/
theorem strtoull_iff (front : text.dropWhile isSpace = text) :
    strtoull name text = .ok v ↔ Whole text v := by
  rw [whole_iff front]
  unfold strtoull
  constructor
  · intro parsed
    split at parsed
    · cases parsed
    rename_i n found
    split at parsed
    · cases parsed
    rename_i fits
    cases parsed
    obtain ⟨base, digits, split, some', all, rfl⟩ := literal_iff.mp found
    exact ⟨base, digits, split, some', all, Nat.lt_of_not_le fits, rfl⟩
  · rintro ⟨base, digits, split, some', all, fits, rfl⟩
    have found : literal (unsigned text) = some (numeral base digits) :=
      literal_iff.mpr ⟨base, digits, split, some', all, rfl⟩
    rw [found]
    exact if_neg (Nat.not_le_of_lt fits)

theorem strtoull_lt (parsed : strtoull name text = .ok v) : v < 2 ^ 64 := by
  unfold strtoull at parsed
  split at parsed
  · cases parsed
  split at parsed
  · cases parsed
  rename_i fits
  cases parsed
  split
  · exact Nat.mod_lt _ (by omega)
  · exact Nat.lt_of_not_le fits

theorem strtoull_head {c : Char} {cs : List Char} (parsed : strtoull name (c :: cs) = .ok v) :
    c = '-' ∨ c = '+' ∨ isDigit 10 c = true := by
  by_contra other
  simp only [not_or] at other
  have same : unsigned (c :: cs) = c :: cs := by simp [unsigned, other]
  have zero : isDigit 10 '0' = true := by decide
  have notZero : c ≠ '0' := fun is => other.2.2 (is ▸ zero)
  have none' : literal (c :: cs) = none := by
    rw [literal_dec notZero, spell, all_cons, Bool.eq_false_iff.mpr other.2.2]
    simp
  rw [strtoull, same, none'] at parsed
  cases parsed

/-- The check of the range, for the kinds that hold numbers. -/
theorem setNum_iff {decl : Decl} (number : decl.kind = .int ∨ decl.kind = .char)
    (sized : decl.size ∈ [1, 2, 4, 8]) (bound : v < 2 ^ 64) (bs : List Byte) :
    setNum name v decl = .ok bs ↔
      Representable decl.size decl.signed v ∧ bs = leBytes decl.size (v % 2 ^ (decl.size * 8)) := by
  have kinds : ¬ (decl.kind ≠ .int ∧ decl.kind ≠ .char ∧ decl.kind ≠ .bool) := by
    rcases number with is | is <;> simp [is]
  have notBool : ¬ (decl.kind = .bool ∧ v > 1) := by
    rcases number with is | is <;> simp [is]
  have range : (decl.size ≠ 8 ∧ ¬ (if decl.signed then
      (v + 2 ^ (decl.size * 8 - 1)) % 2 ^ 64 < 2 ^ (decl.size * 8)
      else v / 2 ^ (decl.size * 8) = 0)) ↔
      ¬ Representable decl.size decl.signed v := by
    unfold Representable
    simp only [Int.bmod_def]
    simp only [mem_cons, not_mem_nil, or_false] at sized
    cases decl.signed with
    | false =>
      simp only [Bool.false_eq_true, if_false]
      rcases sized with is | is | is | is <;> rw [is] <;> omega
    | true =>
      simp only [if_true]
      rcases sized with is | is | is | is <;> rw [is] <;> omega
  rw [setNum, if_neg kinds, if_neg notBool, if_neg (not_not_intro sized)]
  dsimp only
  by_cases fits : Representable decl.size decl.signed v
  · rw [if_neg (fun wrong => range.mp wrong fits)]
    exact ⟨fun same => ⟨fits, (Except.ok.inj same).symm⟩,
      fun same => congrArg Except.ok same.2.symm⟩
  · rw [if_pos (range.mpr fits)]
    exact ⟨nofun, fun same => absurd same.1 fits⟩

/-- The letters that stand for an answer of the configuration. -/
def Answer (text : List Char) : Prop :=
  text.head? = some 'y' ∨ text.head? = some 'n' ∨ text.head? = some 'm'

instance (text : List Char) : Decidable (Answer text) := inferInstanceAs (Decidable (_ ∨ _))

theorem not_whole {c : Char} {cs : List Char} (front : (c :: cs).dropWhile isSpace = c :: cs)
    (letter : c ∈ ['y', 'n', 'm', '"']) : ¬ Whole (c :: cs) v := by
  intro whole
  have parsed : strtoull "" (c :: cs) = .ok v := (strtoull_iff front).mpr whole
  have head := strtoull_head parsed
  simp only [mem_cons, not_mem_nil, or_false] at letter
  rcases letter with rfl | rfl | rfl | rfl <;> exact absurd head (by decide)

theorem encode_answer {decl : Decl} (char : decl.kind = .char) (answer : Answer text) :
    ∃ c ∈ text.head?, encode name text decl = .ok [BitVec.ofNat 8 c.toNat] := by
  match text with
  | [] => simp [Answer] at answer
  | c :: cs =>
    refine ⟨c, rfl, ?_⟩
    have letter : c = 'y' ∨ c = 'n' ∨ c = 'm' := by
      simpa only [Answer, List.head?_cons, Option.some.injEq] using answer
    simp only [encode, if_pos letter, char]
    rfl

/-- A text that is not an answer is accepted as a number or not at all. -/
theorem encode_iff {decl : Decl} (number : decl.kind = .int ∨ decl.kind = .char)
    (sized : decl.size ∈ [1, 2, 4, 8]) (front : text.dropWhile isSpace = text)
    (other : ¬ (decl.kind = .char ∧ Answer text)) (bs : List Byte) :
    encode name text decl = .ok bs ↔ ∃ v, Whole text v ∧ Representable decl.size decl.signed v ∧
      bs = leBytes decl.size (v % 2 ^ (decl.size * 8)) := by
  match text, front, other with
  | [], _, _ =>
    constructor
    · nofun
    · rintro ⟨v, whole, -⟩
      cases whole
  | c :: cs, front, other =>
    rw [encode]
    by_cases letter : c = 'y' ∨ c = 'n' ∨ c = 'm'
    · have int : decl.kind = .int := by
        refine number.resolve_right fun char => other ⟨char, ?_⟩
        simpa only [Answer, List.head?_cons, Option.some.injEq] using letter
      rw [if_pos letter, int]
      have listed : c ∈ ['y', 'n', 'm', '"'] := by
        rcases letter with rfl | rfl | rfl <;> simp
      exact ⟨nofun, fun ⟨v, whole, _⟩ => absurd whole (not_whole front listed)⟩
    · rw [if_neg letter]
      by_cases quote : c = '"'
      · have kind : decl.kind ≠ .charArr := by rcases number with is | is <;> simp [is]
        rw [if_pos quote, if_pos kind]
        have listed : c ∈ ['y', 'n', 'm', '"'] := by simp [quote]
        exact ⟨nofun, fun ⟨v, whole, _⟩ => absurd whole (not_whole front listed)⟩
      have kinds : ¬ (decl.kind ≠ .int ∧ decl.kind ≠ .char) := by
        rcases number with is | is <;> simp [is]
      rw [if_neg quote, if_neg kinds]
      constructor
      · intro encoded
        obtain ⟨v, parsed, stored⟩ := Exc.bind_eq_ok.mp encoded
        obtain ⟨fits, same⟩ := (setNum_iff number sized (strtoull_lt parsed) bs).mp stored
        exact ⟨v, (strtoull_iff front).mp parsed, fits, same⟩
      rintro ⟨v, whole, fits, same⟩
      have parsed : strtoull name (c :: cs) = .ok v := (strtoull_iff front).mpr whole
      exact Exc.bind_eq_ok.mpr
        ⟨v, parsed, (setNum_iff number sized (strtoull_lt parsed) bs).mpr ⟨fits, same⟩⟩

/-- The declaration of a number: one byte is a character, also where it is meant as a number. -/
theorem kcfgType_integer {types : ElfTypes} {depth tid encoding : Nat} {t : ElfType}
    (declared : types (unwrapModifiers types tid) = some t) (integer : t.extra = .int encoding)
    (notBool : encoding &&& 4 = 0) (sized : t.sizeOrType ∈ [1, 2, 4, 8]) :
    kcfgType types (depth + 1) tid = .ok
      ⟨if t.sizeOrType = 1 then .char else .int, t.sizeOrType, decide (encoding &&& 1 ≠ 0)⟩ := by
  rw [kcfgType]
  simp only [declared, integer, notBool, ne_eq, not_true_eq_false, if_false]
  by_cases byte : t.sizeOrType = 1
  · simp only [byte, if_true]
    rfl
  · have wide : t.sizeOrType ∈ [2, 4, 8] := (mem_cons.mp sized).resolve_left byte
    simp only [byte, wide, not_true_eq_false, if_false]
    rfl

/-- A text for a number of one, two, four or eight bytes is accepted just if strtoull takes
all of it and the value fits, and then the bytes hold that value. A single byte is also a
character and takes the letter of an answer. -/
theorem encode_integer {types : ElfTypes} {depth tid encoding : Nat} {t : ElfType}
    (declared : types (unwrapModifiers types tid) = some t) (integer : t.extra = .int encoding)
    (notBool : encoding &&& 4 = 0) (sized : t.sizeOrType ∈ [1, 2, 4, 8])
    (front : text.dropWhile isSpace = text) :
    ∃ decl, kcfgType types (depth + 1) tid = .ok decl ∧ decl.size = t.sizeOrType ∧
      decl.signed = decide (encoding &&& 1 ≠ 0) ∧
      (decl.size = 1 → Answer text →
        ∃ c ∈ text.head?, encode name text decl = .ok [BitVec.ofNat 8 c.toNat]) ∧
      (¬ (decl.size = 1 ∧ Answer text) →
        ((∃ bs, encode name text decl = .ok bs) ↔
          ∃ v, Whole text v ∧ Representable decl.size decl.signed v) ∧
        ∀ bs v, encode name text decl = .ok bs → Whole text v →
          bs.length = decl.size ∧ extended decl.signed bs % 2 ^ 64 = v) := by
  refine ⟨_, kcfgType_integer declared integer notBool sized, rfl, rfl, ?_, ?_⟩
  · intro byte answer
    exact encode_answer (if_pos byte) answer
  intro other
  dsimp only at other ⊢
  have number : (if t.sizeOrType = 1 then KcfgType.char else .int) = .int ∨
      (if t.sizeOrType = 1 then KcfgType.char else .int) = .char := by
    split <;> simp
  have isChar : (if t.sizeOrType = 1 then KcfgType.char else .int) = .char → t.sizeOrType = 1 := by
    intro char
    split at char
    · assumption
    · cases char
  have accepted := @encode_iff name text ⟨_, _, decide (encoding &&& 1 ≠ 0)⟩ number sized front
    fun both => other ⟨isChar both.1, both.2⟩
  constructor
  · constructor
    · rintro ⟨bs, encoded⟩
      obtain ⟨v, whole, fits, -⟩ := (accepted bs).mp encoded
      exact ⟨v, whole, fits⟩
    · rintro ⟨v, whole, fits⟩
      exact ⟨_, (accepted _).mpr ⟨v, whole, fits, rfl⟩⟩
  · intro bs v encoded whole
    obtain ⟨w, again, fits, rfl⟩ := (accepted bs).mp encoded
    have same : w = v := by
      have scan := again.symm.trans whole
      simpa using scan
    subst same
    have parsed : strtoull name text = .ok w := (strtoull_iff front).mpr whole
    refine ⟨length_leBytes _ _, ?_⟩
    rw [leBytes_mod]
    exact extended_leBytes (strtoull_lt parsed) sized fits

theorem encode_integer_lowest :
    let types : ElfTypes := fun tid => if tid = 1 then some ⟨1, "signed char", 1, .int 3⟩ else none
    kcfgType types 1 1 = .ok ⟨.char, 1, true⟩ ∧ Whole ['-', '0', 'x', '8', '0'] (2 ^ 64 - 128) ∧
      encode "CONFIG_X" ['-', '0', 'x', '8', '0'] ⟨.char, 1, true⟩ = .ok [0x80] ∧
      extended true [0x80#8] % 2 ^ 64 = (2 ^ 64 - 128 : Nat) := by
  intro types
  have whole : Whole ['-', '0', 'x', '8', '0'] (2 ^ 64 - 128) := by decide +kernel
  have encoded : encode "CONFIG_X" ['-', '0', 'x', '8', '0'] ⟨.char, 1, true⟩ = .ok [0x80] := by
    decide +kernel
  obtain ⟨decl, declared, -, -, -, accepted⟩ := @encode_integer "CONFIG_X" ['-', '0', 'x', '8', '0']
    types 0 1 3 ⟨1, "signed char", 1, .int 3⟩ rfl rfl rfl (by decide) (by decide)
  have known : kcfgType types 1 1 = .ok ⟨.char, 1, true⟩ := by rfl
  have same : decl = ⟨.char, 1, true⟩ := Except.ok.inj (declared.symm.trans known)
  subst same
  exact ⟨known, whole, encoded, ((accepted (by decide)).2 _ _ encoded whole).2⟩

/-- A byte takes a text that is no number: of a word that begins as an answer does, the first
letter. White space in front of a number is not skipped. -/
theorem encode_letter :
    encode "CONFIG_X" ['y', 'e', 's'] ⟨.char, 1, false⟩ = .ok [0x79] ∧
      CNumber.strtoull ['y', 'e', 's'] = none ∧
      encode "CONFIG_X" [' ', '5'] ⟨.int, 4, false⟩ =
        .error "CONFIG_X: ' 5' isn't a valid integer" ∧
      Whole [' ', '5'] 5 ∧ Representable 4 false 5 := by
  refine ⟨by decide +kernel, by decide +kernel, by decide +kernel, by decide +kernel, ?_⟩
  simp [Representable]

end BpfEquiv.Kcfg
