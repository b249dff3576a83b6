import BpfEquiv.CText
import BpfEquiv.Exc
import BpfEquiv.Scan
import BpfEquiv.Worklist

/-!
The tests of a source file that a change of an object can affect.

The selection keeps the tests whose text refers to the object, and the tests that call such a
test. It is a subset only if every reference and every call that is seen lies in the text of a
test. A test's name that is used without a call, or that follows a cast to void, is not seen.
-/
namespace BpfEquiv.Affected

open List Option

open Scan (Found finditer)

def isWord (c : Char) : Bool := c.isAlphanum || c = '_'

def wordAt (c : Option Char) : Bool := c.any isWord

/-! What the source computes. -/

def voidWord : Chars := ['v', 'o', 'i', 'd']
def testWord : Chars := ['t', 'e', 's', 't', '_']
def serialWord : Chars := ['s', 'e', 'r', 'i', 'a', 'l', '_']

/-- `test_([A-Za-z0-9_]+)` and what has to follow. -/
def testNamed (after : Chars → Option Chars) (s : Chars) : Option (Chars × Chars) := do
  let s ← s.dropPrefix? testWord
  let name := s.takeWhile isWord
  if name.isEmpty then none else (after (s.drop name.length)).map (name, ·)

/-- `(?:serial_)?` before it. -/
def testFunction (after : Chars → Option Chars) (s : Chars) : Option (Chars × Chars) :=
  ((s.dropPrefix? serialWord).bind (testNamed after)).or (testNamed after s)

/-- `\((?:void)?\)` -/
def parameters (s : Chars) : Option Chars := do
  let s ← s.dropPrefix? ['(']
  (s.dropPrefix? (voidWord ++ [')'])).or (s.dropPrefix? [')'])

/-- The definition of a test at the beginning of a line. -/
def testDef (prev : Option Char) (s : Chars) : Option (Chars × Chars) :=
  if prev = none ∨ prev = some '\n' then
    (s.dropPrefix? (voidWord ++ [' '])).bind (testFunction parameters)
  else none

/-- The brace that closes the first one of a text, with the depth so far. -/
def closeBrace : Nat → Chars → Option Nat
  | _, [] => none
  | depth, c :: cs =>
    if c = '{' then (closeBrace (depth + 1) cs).map (· + 1)
    else if c = '}' then if depth = 1 then some 0 else (closeBrace (depth - 1) cs).map (· + 1)
    else (closeBrace depth cs).map (· + 1)

structure Body where
  name : Chars
  start : Nat
  stop : Nat
  deriving DecidableEq

def testBody (code : Chars) (m : Found Chars) : Option Body := do
  let rest := code.drop m.stop
  let gap := rest.takeWhile (· ≠ '{')
  if gap.length = rest.length ∨ Text.strip gap ≠ [] then none
  else do
    let close ← closeBrace 0 (rest.drop gap.length)
    pure ⟨m.value, m.start, m.stop + gap.length + close + 1⟩

def testBodies (code : Chars) : Option (List Body) := (finditer testDef code).mapM (testBody code)

/-- Not followed by `[A-Za-z0-9]|_(?!_)`. -/
def endsName : Chars → Bool
  | [] => true
  | c :: cs => !c.isAlphanum && (c ≠ '_' || cs.head? = some '_')

/-- The identifier of an object, alone or before two underscores. -/
def referencePattern (names : List Chars) (prev : Option Char) (s : Chars) :
    Option (Unit × Chars) :=
  if wordAt prev then none
  else names.findSome? fun x => do
    let rest ← s.dropPrefix? x
    if endsName rest then pure ((), rest) else none

def dotBpfO : Chars := ['.', 'b', 'p', 'f', '.', 'o']

/-- A quoted text that ends with the file of an object; the longest part before it is tried
first. -/
def objectPattern (names : List Chars) (_ : Option Char) : Chars → Option (Unit × Chars)
  | '"' :: t =>
    (List.range ((t.takeWhile (· ≠ '"')).length + 1)).reverse.findSome? fun k =>
      names.findSome? fun x => do
        let rest ← (t.drop k).dropPrefix? (x ++ dotBpfO ++ ['"'])
        pure ((), rest)
  | _ => none

/-- `\s*\(` -/
def parenthesis (s : Chars) : Option Chars := (s.dropWhile Text.isSpace).dropPrefix? ['(']

/-- The name of a test, and an opening parenthesis. -/
def callPattern (prev : Option Char) (s : Chars) : Option (Chars × Chars) :=
  if wordAt prev then none else testFunction parenthesis s

/-- The two tests for a definition: a void five characters before the name, or only blanks in
eight characters after a void. -/
def looksDefined (before : Chars) : Bool :=
  decide (5 ≤ before.length) && voidWord.isPrefixOf (before.drop (before.length - 5)) ||
    match (before.drop (before.length - 8)).dropPrefix? voidWord with
    | none => false
    | some blanks => !blanks.isEmpty && blanks.all Text.isSpace

def owner (bodies : List Body) (position : Nat) : Option Chars :=
  (bodies.find? fun b => decide (b.start ≤ position ∧ position < b.stop)).map (·.name)

def testNames (code : Chars) : List Chars := ((finditer testDef code).map (·.value)).eraseDups

def references (names : List Chars) (code text : Chars) : List Nat :=
  (finditer (referencePattern names) code).map (·.start) ++
    (finditer (objectPattern names) text).map (·.start)

def calls (every : List Chars) (code : Chars) : List (Found Chars) :=
  (finditer callPattern code).filter fun m =>
    every.contains m.value && !looksDefined (code.take m.start)

def callers (edges : List (Chars × Chars)) (callee : Chars) : List Chars :=
  edges.filterMap fun e => if e.1 = callee ∧ e.2 ≠ callee then some e.2 else none

def closure (hit : List Chars) (edges : List (Chars × Chars)) : List Chars :=
  Worklist.loop (callers edges) (hit.length + edges.length) ⟨hit, hit⟩

def affectedTests (names : List Chars) (text : Chars) : List Chars :=
  let code := blankNoncode text
  let every := testNames code
  match testBodies code with
  | none | some [] => every
  | some (body :: bodies) =>
    match references names code text with
    | [] => every
    | reference :: references =>
      match (reference :: references).mapM (owner (body :: bodies)),
        (calls every code).mapM fun m => (owner (body :: bodies) m.start).map (m.value, ·) with
      | some owners, some edges =>
        every.filter ((closure owners.eraseDups edges).contains ·)
      | _, _ => every

/-! What a source means. -/

structure IsName (x : Chars) : Prop where
  ne : x ≠ []
  word : ∀ c ∈ x, isWord c = true

/-- A whole word between two parts of a text. -/
structure Token (pre w post : Chars) : Prop where
  name : IsName w
  before : wordAt pre.getLast? = false
  after : wordAt post.head? = false

/-- A reference to an object: its identifier, alone or before two underscores, or the string with
its file. -/
inductive RefersAt (names : List Chars) (ps : List Piece) : Nat → Prop where
  | word {pre w post x : Chars} (split : sourceCode ps = pre ++ (w ++ post))
    (token : Token pre w post)
      (listed : x ∈ names) (refers : w = x ∨ x ++ ['_', '_'] <+: w) : RefersAt names ps pre.length
  | object {front back : List Piece} {path x : Chars}
      (split : ps = front ++ .lit '"' (path ++ (x ++ dotBpfO)) :: back) (listed : x ∈ names)
      (folder : path = [] ∨ path.getLast? = some '/') : RefersAt names ps (sourceText front).length

inductive Balanced : Chars → Prop where
  | nil : Balanced []
  | char {c : Char} {cs : Chars} (noOpen : c ≠ '{') (noClose : c ≠ '}') (rest : Balanced cs) :
      Balanced (c :: cs)
  | block {inner cs : Chars} (inside : Balanced inner) (rest : Balanced cs) :
      Balanced ('{' :: (inner ++ '}' :: cs))

def functionName (serial : Bool) (name : Chars) : Chars :=
  (if serial then serialWord else []) ++ (testWord ++ name)

def header (serial : Bool) (name : Chars) (void : Bool) : Chars :=
  (voidWord ++ [' ']) ++ (functionName serial name ++
    if void then '(' :: (voidWord ++ [')']) else ['(', ')'])

/-- The definition of a test with its body. -/
inductive Span (code : Chars) : Body → Prop where
  | intro {pre name gap inner post : Chars} {serial void : Bool}
      (split : code = pre ++ (header serial name void ++ (gap ++ ('{' :: (inner ++ '}' :: post)))))
      (line : pre.getLast? = none ∨ pre.getLast? = some '\n') (isName : IsName name)
      (blank : ∀ c ∈ gap, Text.isSpace c = true) (balanced : Balanced inner) :
      Span code ⟨name, pre.length,
        pre.length + (header serial name void).length + gap.length + (inner.length + 1) + 1⟩

/-- A definition that is not in the body of another one. -/
structure IsTest (code : Chars) (b : Body) : Prop where
  span : Span code b
  top : ∀ s, Span code s → ¬ (s.start < b.start ∧ b.start < s.stop)

def Declares (pre : Chars) : Prop :=
  ∃ front blanks, pre = front ++ (voidWord ++ blanks) ∧ blanks ≠ [] ∧
    (∀ c ∈ blanks, Text.isSpace c = true) ∧ wordAt front.getLast? = false

/-- The function of a test is used by name. -/
inductive Mention (code : Chars) : Nat → Chars → Prop where
  | intro {pre name post : Chars} {serial : Bool}
    (split : code = pre ++ (functionName serial name ++ post))
      (token : Token pre (functionName serial name) post) (isName : IsName name)
      (used : ¬ Declares pre) : Mention code pre.length name

/-- Code that a test runs: its own, and code outside of the tests that it leads to. -/
inductive Leads (code : Chars) (runs : Chars → Nat → Prop) : Body → Nat → Prop where
  | inside {b : Body} {p : Nat} (start : b.start ≤ p) (stop : p < b.stop) : Leads code runs b p
  | outside {b : Body} {p : Nat} (leads : runs b.name p)
      (helper : ∀ s, Span code s → ¬ (s.start ≤ p ∧ p < s.stop)) : Leads code runs b p

/-- A test that refers to an object, or that leads to the use of such a test. -/
inductive IsAffected (names : List Chars) (ps : List Piece) (runs : Chars → Nat → Prop) :
    Chars → Prop where
  | refers {b : Body} {p : Nat} (test : IsTest (sourceCode ps) b) (refers : RefersAt names ps p)
      (start : b.start ≤ p) (stop : p < b.stop) : IsAffected names ps runs b.name
  | mentions {b : Body} {p : Nat} {u : Chars} (test : IsTest (sourceCode ps) b)
      (leads : Leads (sourceCode ps) runs b p) (mention : Mention (sourceCode ps) p u)
      (affected : IsAffected names ps runs u) : IsAffected names ps runs b.name

/-- The outermost definition of a test around a place. -/
structure Around (code : Chars) (p : Nat) (b : Body) : Prop where
  span : Span code b
  start : b.start ≤ p
  stop : p < b.stop
  outermost : ∀ s, Span code s → s.start ≤ p → p < s.stop → b.start ≤ s.start

/-- A test around a place of the source that the patterns take for a reference, or around a call
seen there of a test that is reached. -/
inductive Reaches (names : List Chars) (code text : Chars) : Chars → Prop where
  | refers {b : Body} {p : Nat} (around : Around code p b)
    (found : p ∈ references names code text) :
      Reaches names code text b.name
  | calls {b : Body} {m : Found Chars} (around : Around code m.start b)
      (seen : m ∈ calls (testNames code) code) (callee : Reaches names code text m.value) :
      Reaches names code text b.name

/-- The word at a position is taken for a call. -/
def seenCall (code : Chars) (p : Nat) : Bool :=
  !looksDefined (code.take p) &&
    (((code.drop p).dropWhile isWord).dropWhile Text.isSpace).head? = some '('

def Piece.detached (names : List Chars) (before : Chars) : Piece → Bool
  | .lit '"' _ => names.all fun x => !(x ++ dotBpfO).isSuffixOf before
  | _ => true

/-- No string follows directly on a text that ends with the file of an object. -/
def detached (names : List Chars) : Chars → List Piece → Bool
  | _, [] => true
  | before, p :: ps => p.detached names before && detached names (before ++ p.text) ps

/-! Patterns. -/

variable {s rest w post name pre mid x body : Chars} {prev : Option Char} {b : Body}
  {serial void : Bool} {m : Found Chars} {p : Nat} {front back : List Piece}

theorem dropPrefix_iff {part : Chars} : s.dropPrefix? part = some rest ↔ s = part ++ rest := by
  rw [List.dropPrefix?_eq_some_iff]
  exact ⟨fun ⟨p, split, same⟩ => eq_of_beq same ▸ split,
    fun split => ⟨part, split, beq_self_eq_true part⟩⟩

theorem dropPrefix_append (part rest : Chars) : (part ++ rest).dropPrefix? part = some rest :=
  dropPrefix_iff.mpr rfl

theorem takeWhile_word (word : ∀ c ∈ w, isWord c = true)
    (after : wordAt post.head? = false) : (w ++ post).takeWhile isWord = w := by
  rw [takeWhile_append_of_pos word]
  cases post with
  | nil => rw [takeWhile_nil, append_nil]
  | cons c cs => rw [takeWhile_cons_of_neg (by simpa [wordAt] using after), append_nil]

theorem dropWhile_word (after : wordAt post.head? = false) :
    post.dropWhile isWord = post := by
  cases post with
  | nil => rfl
  | cons c cs => exact dropWhile_cons_of_neg (Bool.eq_false_iff.mp after)

theorem not_isWord_of_isSpace {c : Char} (space : Text.isSpace c = true) : isWord c = false := by
  rw [Bool.eq_false_iff]
  intro word
  have range : (48 ≤ c.toNat ∧ c.toNat ≤ 57) ∨ (65 ≤ c.toNat ∧ c.toNat ≤ 90) ∨
      (97 ≤ c.toNat ∧ c.toNat ≤ 122) ∨ c.toNat = 95 := by
    simp only [isWord, Char.isAlphanum, Char.isAlpha, Char.isUpper, Char.isLower, Char.isDigit,
      Bool.or_eq_true, Bool.and_eq_true, decide_eq_true_eq] at word
    rcases word with ((⟨lo, hi⟩ | ⟨lo, hi⟩) | ⟨lo, hi⟩) | rfl
    · exact .inr (.inl ⟨lo, hi⟩)
    · exact .inr (.inr (.inl ⟨lo, hi⟩))
    · exact .inl ⟨lo, hi⟩
    · exact .inr (.inr (.inr rfl))
  simp only [Text.isSpace, Bool.or_eq_true, decide_eq_true_eq, contains_iff_mem, mem_cons,
    not_mem_nil, or_false] at space
  omega

theorem testNamed_iff {after : Chars → Option Chars}
    (stops : ∀ s r, after s = some r → wordAt s.head? = false) :
    testNamed after s = some (name, rest) ↔
      IsName name ∧ ∃ tail, s = testWord ++ (name ++ tail) ∧ after tail = some rest := by
  unfold testNamed
  constructor
  · intro h
    obtain ⟨s', first, h⟩ := bind_eq_some_iff.mp h
    dsimp only at h
    split at h
    · cases h
    rename_i nonempty
    obtain ⟨r, isRest, h⟩ := map_eq_some_iff.mp h
    cases h
    refine ⟨⟨fun none' => nonempty (isEmpty_iff.mpr none'), fun c => mem_takeWhile_imp⟩,
      _, ?_, isRest⟩
    rw [dropPrefix_iff.mp first]
    refine congrArg (testWord ++ ·) ?_
    exact (prefix_iff_eq_append.mp (List.takeWhile_prefix isWord)).symm
  · rintro ⟨isName, tail, rfl, isRest⟩
    have run : (name ++ tail).takeWhile isWord = name :=
      takeWhile_word isName.word (stops tail rest isRest)
    have nonempty : ¬ name.isEmpty = true := fun none' => isName.ne (isEmpty_iff.mp none')
    rw [dropPrefix_append, bind_eq_bind, bind_some]
    dsimp only
    rw [run, if_neg nonempty, drop_left, isRest]
    rfl

theorem testFunction_iff {after : Chars → Option Chars}
    (stops : ∀ s r, after s = some r → wordAt s.head? = false) :
    testFunction after s = some (name, rest) ↔
      IsName name ∧ ∃ serial tail, s = functionName serial name ++ tail ∧
        after tail = some rest := by
  unfold testFunction
  rw [or_eq_some_iff]
  constructor
  · rintro (serial | ⟨_, plain⟩)
    · obtain ⟨s', first, h⟩ := bind_eq_some_iff.mp serial
      obtain ⟨isName, tail, rfl, isRest⟩ := (testNamed_iff stops).mp h
      refine ⟨isName, true, tail, ?_, isRest⟩
      rw [dropPrefix_iff.mp first]
      simp [functionName]
    · obtain ⟨isName, tail, rfl, isRest⟩ := (testNamed_iff stops).mp plain
      exact ⟨isName, false, tail, by simp [functionName], isRest⟩
  · rintro ⟨isName, serial, tail, rfl, isRest⟩
    cases serial with
    | true =>
      left
      have split : functionName true name ++ tail =
          serialWord ++ (testWord ++ (name ++ tail)) := by simp [functionName]
      rw [split, dropPrefix_append, bind_some]
      exact (testNamed_iff stops).mpr ⟨isName, tail, rfl, isRest⟩
    | false =>
      right
      have split : functionName false name ++ tail = testWord ++ (name ++ tail) := by
        simp [functionName]
      refine ⟨?_, (testNamed_iff stops).mpr ⟨isName, tail, split, isRest⟩⟩
      -- The word begins with another letter.
      rw [split]
      rfl

theorem parameters_iff :
    parameters s = some rest ↔
      ∃ void, s = (if void = true then '(' :: (voidWord ++ [')']) else ['(', ')']) ++ rest := by
  unfold parameters
  rw [bind_eq_bind, bind_eq_some_iff]
  constructor
  · rintro ⟨s', first, h⟩
    rw [dropPrefix_iff.mp first]
    rcases or_eq_some_iff.mp h with isVoid | ⟨_, plain⟩
    · exact ⟨true, by rw [dropPrefix_iff.mp isVoid]; rfl⟩
    · exact ⟨false, by rw [dropPrefix_iff.mp plain]; rfl⟩
  · rintro ⟨void, rfl⟩
    cases void with
    | true =>
      exact ⟨(voidWord ++ [')']) ++ rest, rfl, or_eq_some_iff.mpr (.inl (dropPrefix_append _ rest))⟩
    | false => exact ⟨[')'] ++ rest, rfl, or_eq_some_iff.mpr (.inr ⟨rfl, dropPrefix_append _ rest⟩)⟩

theorem parameters_stops (s r : Chars) (h : parameters s = some r) : wordAt s.head? = false := by
  obtain ⟨void, rfl⟩ := parameters_iff.mp h
  cases void <;> rfl

theorem parenthesis_iff :
    parenthesis s = some rest ↔
      ∃ blanks, s = blanks ++ '(' :: rest ∧ ∀ c ∈ blanks, Text.isSpace c = true := by
  unfold parenthesis
  rw [dropPrefix_iff]
  constructor
  · intro h
    refine ⟨s.takeWhile Text.isSpace, ?_, fun c => mem_takeWhile_imp⟩
    have whole := takeWhile_append_dropWhile (p := Text.isSpace) (l := s)
    rw [h] at whole
    exact whole.symm
  · rintro ⟨blanks, rfl, blank⟩
    rw [dropWhile_append_of_pos blank]
    rfl

theorem parenthesis_stops (s r : Chars) (h : parenthesis s = some r) : wordAt s.head? = false := by
  obtain ⟨blanks, rfl, blank⟩ := parenthesis_iff.mp h
  cases blanks with
  | nil => rfl
  | cons c cs => exact not_isWord_of_isSpace (blank c (.head _))

theorem testDef_iff :
    testDef prev s = some (name, rest) ↔
      (prev = none ∨ prev = some '\n') ∧ IsName name ∧
        ∃ serial void, s = header serial name void ++ rest := by
  unfold testDef
  constructor
  · intro h
    split at h
    · rename_i line
      obtain ⟨s', first, h⟩ := bind_eq_some_iff.mp h
      obtain ⟨isName, serial, tail, rfl, isRest⟩ := (testFunction_iff parameters_stops).mp h
      obtain ⟨void, rfl⟩ := parameters_iff.mp isRest
      refine ⟨line, isName, serial, void, ?_⟩
      rw [dropPrefix_iff.mp first, header]
      simp only [append_assoc]
    · cases h
  · rintro ⟨line, isName, serial, void, rfl⟩
    rw [if_pos line, header, append_assoc, dropPrefix_append, bind_some, append_assoc]
    exact (testFunction_iff parameters_stops).mpr
      ⟨isName, serial, _, rfl, parameters_iff.mpr ⟨void, rfl⟩⟩

theorem callPattern_iff :
    callPattern prev s = some (name, rest) ↔
      wordAt prev = false ∧ IsName name ∧ ∃ serial blanks,
        s = functionName serial name ++ (blanks ++ '(' :: rest) ∧
          ∀ c ∈ blanks, Text.isSpace c = true := by
  unfold callPattern
  constructor
  · intro h
    split at h
    · cases h
    rename_i before
    obtain ⟨isName, serial, tail, rfl, isRest⟩ := (testFunction_iff parenthesis_stops).mp h
    obtain ⟨blanks, rfl, blank⟩ := parenthesis_iff.mp isRest
    exact ⟨Bool.eq_false_iff.mpr before, isName, serial, blanks, rfl, blank⟩
  · rintro ⟨before, isName, serial, blanks, rfl, blank⟩
    rw [if_neg (Bool.eq_false_iff.mp before)]
    exact (testFunction_iff parenthesis_stops).mpr
      ⟨isName, serial, _, rfl, parenthesis_iff.mpr ⟨blanks, rfl, blank⟩⟩

/-! Bodies. -/

theorem closeBrace_closer (depth : Nat) (rest : Chars) :
    closeBrace (depth + 1) ('}' :: rest) =
      if depth = 0 then some 0 else (closeBrace depth rest).map (· + 1) := by
  rw [closeBrace, if_neg (by decide), if_pos rfl, Nat.add_sub_cancel]
  simp only [Nat.add_eq_right]

theorem closeBrace_balanced {inner : Chars} (balanced : Balanced inner) (depth : Nat)
    (rest : Chars) :
    closeBrace (depth + 1) (inner ++ rest) =
      (closeBrace (depth + 1) rest).map (· + inner.length) := by
  induction balanced generalizing depth rest with
  | nil =>
    rw [nil_append]
    cases closeBrace (depth + 1) rest <;> rfl
  | char noOpen noClose _ ih =>
    rw [cons_append, closeBrace, if_neg noOpen, if_neg noClose, ih, Option.map_map]
    rfl
  | @block inner cs _ _ ihInner ih =>
    rw [cons_append, closeBrace, if_pos rfl, append_assoc, ihInner, cons_append,
      closeBrace_closer, if_neg (Nat.succ_ne_zero depth), ih]
    cases closeBrace (depth + 1) rest with
    | none => rfl
    | some k =>
      refine congrArg some ?_
      simp only [length_cons, length_append]
      omega

theorem closeBrace_split {depth : Nat} (h : (closeBrace (depth + 1) s).isSome) :
    ∃ inner post, s = inner ++ '}' :: post ∧ Balanced inner := by
  induction length : s.length using Nat.strong_induction_on generalizing s depth with
  | h n ih =>
    cases s with
    | nil => cases h
    | cons c cs =>
      rw [length_cons] at length
      rw [closeBrace] at h
      split at h
      · rename_i isOpen
        -- A block, and then what follows it.
        rw [isSome_map] at h
        obtain ⟨inner₁, post₁, rfl, balanced₁⟩ := ih _ (by omega) h rfl
        rw [closeBrace_balanced balanced₁, isSome_map, closeBrace_closer,
          if_neg (Nat.succ_ne_zero depth), isSome_map] at h
        rw [length_append, length_cons] at length
        obtain ⟨inner₂, post₂, rfl, balanced₂⟩ := ih _ (by omega) h rfl
        exact ⟨'{' :: (inner₁ ++ '}' :: inner₂), post₂, by simp [isOpen],
          .block balanced₁ balanced₂⟩
      · split at h
        · next isClose => exact ⟨[], cs, by rw [isClose]; rfl, .nil⟩
        · rename_i noOpen noClose
          rw [isSome_map] at h
          obtain ⟨inner, post, rfl, balanced⟩ := ih _ (by omega) h rfl
          exact ⟨c :: inner, post, rfl, .char noOpen noClose balanced⟩

theorem closeBrace_iff {k : Nat} :
    closeBrace 0 ('{' :: s) = some (k + 1) ↔
      ∃ inner post, s = inner ++ '}' :: post ∧ Balanced inner ∧ k = inner.length := by
  have closes {inner : Chars} (balanced : Balanced inner) (post : Chars) :
      closeBrace 0 ('{' :: (inner ++ '}' :: post)) = some (inner.length + 1) := by
    rw [closeBrace, if_pos rfl, closeBrace_balanced balanced 0, closeBrace_closer, if_pos rfl]
    simp
  constructor
  · intro h
    have opened : (closeBrace 1 s).isSome := by
      rw [closeBrace, if_pos rfl] at h
      obtain ⟨_, closed, _⟩ := map_eq_some_iff.mp h
      exact closed ▸ rfl
    obtain ⟨inner, post, rfl, balanced⟩ := closeBrace_split opened
    exact ⟨inner, post, rfl, balanced,
      Nat.succ.inj (some.inj (h.symm.trans (closes balanced post)))⟩
  · rintro ⟨inner, post, rfl, balanced, rfl⟩
    exact closes balanced post

theorem strip_eq_nil_iff : Text.strip s = [] ↔ ∀ c ∈ s, Text.isSpace c = true := by
  unfold Text.strip
  rw [reverse_eq_nil_iff, dropWhile_eq_nil_iff]
  constructor
  · intro h
    -- What is left begins with no blank, so nothing is left.
    cases rest : s.dropWhile Text.isSpace with
    | nil => exact dropWhile_eq_nil_iff.mp rest
    | cons c cs =>
      have blank : Text.isSpace c = true := h c (by simp [rest])
      have noBlank := head_dropWhile_not Text.isSpace (l := s) (by simp [rest])
      simp only [rest, head_cons] at noBlank
      rw [blank] at noBlank
      cases noBlank
  · intro h c member
    rw [dropWhile_eq_nil_iff.mpr h] at member
    cases member

theorem testBody_iff {hdr tail : Chars} :
    testBody (pre ++ (hdr ++ tail)) ⟨name, pre.length, pre.length + hdr.length⟩ = some b ↔
      ∃ gap inner post, tail = gap ++ ('{' :: (inner ++ '}' :: post)) ∧
        (∀ c ∈ gap, Text.isSpace c = true) ∧ Balanced inner ∧
        b = ⟨name, pre.length, pre.length + hdr.length + gap.length + (inner.length + 1) + 1⟩ := by
  have rest : (pre ++ (hdr ++ tail)).drop (pre.length + hdr.length) = tail := by
    rw [← append_assoc]
    exact drop_left' (by simp)
  unfold testBody
  simp only [rest]
  constructor
  · intro h
    split at h
    · cases h
    rename_i fits
    obtain ⟨shorter, blank⟩ := not_or.mp fits
    obtain ⟨close, closes, h⟩ := bind_eq_some_iff.mp h
    cases h
    have whole := takeWhile_append_dropWhile (p := (· ≠ '{')) (l := tail)
    have dropped : tail.drop (tail.takeWhile (· ≠ '{')).length = tail.dropWhile (· ≠ '{') := by
      have parts := prefix_iff_eq_append.mp (List.takeWhile_prefix (· ≠ '{') (l := tail))
      exact append_cancel_left (parts.trans whole.symm)
    rw [dropped] at closes
    cases atBrace : tail.dropWhile (· ≠ '{') with
    | nil =>
      rw [atBrace, append_nil] at whole
      exact absurd (congrArg List.length whole) shorter
    | cons c s =>
      have isOpen : c = '{' := by
        have stops := head_dropWhile_not (· ≠ '{') (l := tail)
          (atBrace ▸ cons_ne_nil c s)
        simp only [atBrace, head_cons] at stops
        exact not_not.mp (of_decide_eq_false stops)
      rw [atBrace, isOpen] at closes whole
      obtain ⟨k, rfl⟩ : ∃ k, close = k + 1 := by
        rw [closeBrace, if_pos rfl] at closes
        obtain ⟨k, _, same⟩ := map_eq_some_iff.mp closes
        exact ⟨k, same.symm⟩
      obtain ⟨inner, post, rfl, balanced, rfl⟩ := closeBrace_iff.mp closes
      exact ⟨_, inner, post, whole.symm, strip_eq_nil_iff.mp (not_not.mp blank), balanced, rfl⟩
  · rintro ⟨gap, inner, post, rfl, blank, balanced, rfl⟩
    have gapEnds : (gap ++ ('{' :: (inner ++ '}' :: post))).takeWhile (· ≠ '{') = gap := by
      rw [takeWhile_append_of_pos, takeWhile_cons_of_neg (by simp), append_nil]
      intro c member
      refine decide_eq_true fun isOpen => ?_
      have space := blank c member
      rw [isOpen] at space
      exact absurd space (by decide)
    have closes : closeBrace 0 ('{' :: (inner ++ '}' :: post)) = some (inner.length + 1) :=
      closeBrace_iff.mpr ⟨inner, post, rfl, balanced, rfl⟩
    rw [gapEnds, if_neg, drop_left, closes]
    · rfl
    rintro (short | text)
    · simp only [length_append, length_cons] at short
      omega
    · exact text (strip_eq_nil_iff.mpr blank)

theorem functionName_isName (isName : IsName name) (serial : Bool) :
    IsName (functionName serial name) := by
  refine ⟨by cases serial <;> exact cons_ne_nil _ _, fun c member => ?_⟩
  have fixed (s : Chars) (word : s.all isWord = true) (inside : c ∈ s) : isWord c = true :=
    all_eq_true.mp word c inside
  rcases mem_append.mp member with inSerial | member
  · cases serial with
    | true => exact fixed _ (by decide) inSerial
    | false => cases inSerial
  · rcases mem_append.mp member with inTest | inName
    · exact fixed _ (by decide) inTest
    · exact isName.word c inName

theorem header_ne_nil : header serial name void ≠ [] :=
  cons_ne_nil _ _

theorem header_noNewline (isName : IsName name) :
    '\n' ∉ header serial name void := by
  intro member
  rcases mem_append.mp member with inVoid | member
  · exact absurd inVoid (by decide)
  · rcases mem_append.mp member with inName | inParameters
    · exact absurd ((functionName_isName isName serial).word _ inName) (by decide)
    · cases void <;> exact absurd inParameters (by decide)

theorem starts_of_shorter {matched : Chars} (same : mid ++ s = matched ++ rest)
    (shorter : rest.length < s.length) : mid <+: matched := by
  have lengths := congrArg List.length same
  rw [length_append, length_append] at lengths
  exact prefix_of_prefix_length_le (prefix_append mid s) (same ▸ prefix_append matched rest)
    (by omega)

theorem mem_testDefs {tail : Chars}
    (line : pre.getLast? = none ∨ pre.getLast? = some '\n') (isName : IsName name) :
    ⟨name, pre.length, pre.length + (header serial name void).length⟩ ∈
      finditer testDef (pre ++ (header serial name void ++ tail)) := by
  have found : testDef pre.getLast? (header serial name void ++ tail) = some (name, tail) :=
    testDef_iff.mpr ⟨line, isName, serial, void, rfl⟩
  have length : (header serial name void ++ tail).length - tail.length =
      (header serial name void).length := by
    rw [length_append, Nat.add_sub_cancel]
  rw [← length]
  refine Scan.mem_finditer ?_ found ?_
  · exact fun none' => header_ne_nil (append_eq_nil_iff.mp none').1
  rintro front mid rfl ne name' rest isMatch
  obtain ⟨_, isName', serial', void', same⟩ := testDef_iff.mp isMatch
  by_contra shorter
  -- The match would have the end of the line before in it.
  have starts := starts_of_shorter same (Nat.lt_of_not_le shorter)
  rw [List.getLast?_append_of_ne_nil front ne] at line
  rcases line with none' | newline
  · exact ne (List.getLast?_eq_none_iff.mp none')
  · exact header_noNewline isName' (starts.subset (mem_of_getLast? newline))

theorem of_mem_testDefs {code : Chars} (h : m ∈ finditer testDef code) :
    ∃ pre serial void tail, code = pre ++ (header serial m.value void ++ tail) ∧
      (pre.getLast? = none ∨ pre.getLast? = some '\n') ∧ IsName m.value ∧
      m = ⟨m.value, pre.length, pre.length + (header serial m.value void).length⟩ := by
  obtain ⟨pre, s, rfl, isMatch⟩ := Scan.matchAt_of_mem h
  obtain ⟨tail, found, stop⟩ := isMatch.found
  obtain ⟨line, isName, serial, void, rfl⟩ := testDef_iff.mp found
  refine ⟨pre, serial, void, tail, rfl, line, isName, ?_⟩
  rw [length_append, Nat.add_sub_cancel] at stop
  rw [← stop, ← isMatch.start]

section Bodies
variable {code : Chars} {bodies : List Body}

theorem testBody_start (body : testBody code m = some b) :
    b.start = m.start := by
  unfold testBody at body
  dsimp only at body
  split at body
  · cases body
  · obtain ⟨close, _, body⟩ := bind_eq_some_iff.mp body
    cases body
    rfl

theorem span_of_testBody (listed : m ∈ finditer testDef code)
    (body : testBody code m = some b) : Span code b := by
  obtain ⟨pre, serial, void, tail, rfl, line, isName, shape⟩ := of_mem_testDefs listed
  rw [shape] at body
  obtain ⟨gap, inner, post, rfl, blank, balanced, rfl⟩ := testBody_iff.mp body
  exact .intro rfl line isName blank balanced

variable (isBodies : testBodies code = some bodies)
include isBodies

theorem bodies_forall₂ :
    List.Forall₂ (fun m b => testBody code m = some b) (finditer testDef code) bodies :=
  Exc.mapM_eq_some_iff.mp isBodies

theorem span_of_mem (member : b ∈ bodies) :
    Span code b := by
  obtain ⟨m, listed, body⟩ := Exc.exists_of_forall₂ (bodies_forall₂ isBodies).flip member
  exact span_of_testBody listed body

theorem mem_of_span (span : Span code b) :
    b ∈ bodies := by
  obtain ⟨split, line, isName, blank, balanced⟩ := span
  subst split
  obtain ⟨b, listed, body⟩ :=
    Exc.exists_of_forall₂ (bodies_forall₂ isBodies) (mem_testDefs line isName)
  rw [testBody_iff.mpr ⟨_, _, _, rfl, blank, balanced, rfl⟩] at body
  cases body
  exact listed

theorem bodies_pairwise :
    bodies.Pairwise (·.start < ·.start) := by
  have starts : (finditer testDef code).map (·.start) = bodies.map (·.start) := by
    rw [← forall₂_eq_eq_eq, forall₂_map_left_iff, forall₂_map_right_iff]
    exact (bodies_forall₂ isBodies).imp fun m b body => (testBody_start body).symm
  rw [← pairwise_map, ← starts, pairwise_map]
  exact Scan.finditer_pairwise code

theorem around_of_owner {o : Chars} (owned : owner bodies p = some o) :
    ∃ b, Around code p b ∧ b.name = o := by
  obtain ⟨b, found, rfl⟩ := map_eq_some_iff.mp owned
  obtain ⟨covers, front, back, rfl, before⟩ := List.find?_eq_some_iff_append.mp found
  obtain ⟨start, stop⟩ := of_decide_eq_true covers
  refine ⟨b, ⟨span_of_mem isBodies (mem_append_right front (.head _)), start, stop, ?_⟩, rfl⟩
  intro s span low high
  rcases mem_append.mp (mem_of_span isBodies span) with earlier | member
  · have outside := before s earlier
    simp [low, high] at outside
  rcases mem_cons.mp member with rfl | later
  · exact Nat.le_refl _
  · have order := pairwise_cons.mp (pairwise_append.mp (bodies_pairwise isBodies)).2.1
    exact Nat.le_of_lt (order.1 s later)

theorem owner_of_around (around : Around code p b) : owner bodies p = some b.name := by
  have member := mem_of_span isBodies around.span
  cases found : bodies.find? fun b => decide (b.start ≤ p ∧ p < b.stop) with
  | none =>
    have outside := List.find?_eq_none.mp found b member
    exact absurd (decide_eq_true ⟨around.start, around.stop⟩) outside
  | some c =>
    obtain ⟨covers, front, back, rfl, before⟩ := List.find?_eq_some_iff_append.mp found
    have covers := of_decide_eq_true covers
    rw [owner, found]
    rcases mem_append.mp member with earlier | member
    · have outside := before b earlier
      simp [around.start, around.stop] at outside
    rcases mem_cons.mp member with rfl | later
    · rfl
    -- The body that is found first would begin before the outermost one.
    have order := (pairwise_cons.mp (pairwise_append.mp (bodies_pairwise isBodies)).2.1).1
      b later
    have span := span_of_mem isBodies (mem_append_right front (.head _))
    exact absurd (around.outermost c span covers.1 covers.2) (Nat.not_le_of_lt order)

theorem owner_of_test (test : IsTest code b) (start : b.start ≤ p) (stop : p < b.stop) :
    owner bodies p = some b.name := by
  refine owner_of_around isBodies ⟨test.span, start, stop, fun s span low high => ?_⟩
  by_contra inner
  exact test.top s span ⟨Nat.lt_of_not_le inner, Nat.lt_of_le_of_lt start high⟩

theorem owner_of_helper (helper : ∀ s, Span code s → ¬ (s.start ≤ p ∧ p < s.stop)) :
    owner bodies p = none := by
  rw [owner, map_eq_none_iff, List.find?_eq_none]
  intro b member covers
  exact helper b (span_of_mem isBodies member) (of_decide_eq_true covers)

end Bodies

/-! References and calls are found. -/

/-- A match of a word and of something after it does not reach over the beginning of a word. -/
theorem reached_word {matched : Chars} (tail : Chars) (ne : mid ≠ [])
    (before : wordAt mid.getLast? = false) (isName : IsName w)
    (same : mid ++ (w ++ post) = matched ++ (tail ++ rest)) (word : ∀ c ∈ matched, isWord c = true)
    (noWord : ∀ c ∈ tail, isWord c = false) : (w ++ post).length ≤ rest.length := by
  by_contra shorter
  rw [← append_assoc matched] at same
  obtain ⟨more, isMore⟩ := starts_of_shorter same (Nat.lt_of_not_le shorter)
  have left : w ++ post = more ++ rest := by
    rw [← isMore, append_assoc] at same
    exact append_cancel_left same
  rcases append_eq_append_iff.mp isMore with ⟨inWord, split, _⟩ | ⟨blanks, _, split⟩
  · -- The text before would end in the middle of a word.
    have isWord' := word (mid.getLast ne) (split ▸ mem_append_left inWord (getLast_mem ne))
    rw [List.getLast?_eq_some_getLast ne] at before
    exact absurd isWord' (Bool.eq_false_iff.mp before)
  -- The word would begin with something that is no word.
  cases w with
  | nil => exact isName.ne rfl
  | cons c w =>
    cases more with
    | nil =>
      have lengths := congrArg List.length left
      rw [nil_append] at lengths
      exact shorter (Nat.le_of_eq lengths)
    | cons d more =>
      have first : c = d := (List.cons.inj left).1
      have inTail : c ∈ tail := split ▸ first ▸ mem_append_right blanks (.head _)
      exact absurd (isName.word c (.head _)) (Bool.eq_false_iff.mp (noWord c inTail))

theorem endsName_of_reference (after : wordAt post.head? = false)
    (refers : w = x ∨ x ++ ['_', '_'] <+: w) :
    ∃ rest, w ++ post = x ++ rest ∧ endsName rest = true := by
  rcases refers with rfl | ⟨more, rfl⟩
  · refine ⟨post, rfl, ?_⟩
    cases post with
    | nil => rfl
    | cons c cs =>
      have noWord : isWord c = false := after
      rw [isWord, Bool.or_eq_false_iff] at noWord
      simp [endsName, noWord.1, of_decide_eq_false noWord.2]
  · exact ⟨'_' :: '_' :: (more ++ post), by simp, by simp [endsName]⟩

section Found
variable {names : List Chars}

theorem referencePattern_some
    (h : referencePattern names prev s = some ((), rest)) : ∃ x ∈ names, s = x ++ rest := by
  unfold referencePattern at h
  split at h
  · cases h
  obtain ⟨x, listed, h⟩ := exists_of_findSome?_eq_some h
  obtain ⟨rest', starts, h⟩ := bind_eq_some_iff.mp h
  split at h
  · cases h
    exact ⟨x, listed, dropPrefix_iff.mp starts⟩
  · cases h

theorem referencePattern_of_token (token : Token pre w post) (listed : x ∈ names)
    (refers : w = x ∨ x ++ ['_', '_'] <+: w) :
    ∃ rest, referencePattern names pre.getLast? (w ++ post) = some ((), rest) := by
  obtain ⟨rest, split, ends⟩ := endsName_of_reference token.after refers
  unfold referencePattern
  rw [if_neg (Bool.eq_false_iff.mp token.before)]
  have isSome : (names.findSome? fun x => do
      let rest ← (w ++ post).dropPrefix? x
      if endsName rest then pure ((), rest) else none).isSome = true := by
    rw [List.findSome?_isSome_iff]
    refine ⟨x, listed, ?_⟩
    rw [dropPrefix_iff.mpr split]
    simp [ends]
  obtain ⟨⟨_, r⟩, found⟩ := isSome_iff_exists.mp isSome
  exact ⟨r, found⟩

theorem reference_found (idents : ∀ x ∈ names, IsName x)
    (token : Token pre w post) (listed : x ∈ names) (refers : w = x ∨ x ++ ['_', '_'] <+: w) :
    pre.length ∈ (finditer (referencePattern names) (pre ++ (w ++ post))).map (·.start) := by
  obtain ⟨rest, found⟩ := referencePattern_of_token token listed refers
  refine mem_map.mpr ⟨_, Scan.mem_finditer ?_ found ?_, rfl⟩
  · exact fun none' => token.name.ne (append_eq_nil_iff.mp none').1
  rintro front mid rfl ne value rest' isMatch
  obtain ⟨y, listed', same⟩ := referencePattern_some isMatch
  have before := token.before
  rw [List.getLast?_append_of_ne_nil front ne] at before
  exact reached_word [] ne before token.name same (idents y listed').word
    (fun c none' => nomatch none')

theorem call_found {pre name blanks post : Chars} {serial : Bool}
    (before : wordAt pre.getLast? = false) (isName : IsName name)
    (blank : ∀ c ∈ blanks, Text.isSpace c = true) :
    ∃ stop, ⟨name, pre.length, stop⟩ ∈
      finditer callPattern (pre ++ (functionName serial name ++ (blanks ++ '(' :: post))) := by
  have found : callPattern pre.getLast? (functionName serial name ++ (blanks ++ '(' :: post)) =
      some (name, post) := callPattern_iff.mpr ⟨before, isName, serial, blanks, rfl, blank⟩
  refine ⟨_, Scan.mem_finditer ?_ found ?_⟩
  · exact fun none' => (functionName_isName isName serial).ne (append_eq_nil_iff.mp none').1
  rintro front mid rfl ne name' rest isMatch
  obtain ⟨_, isName', serial', blanks', same, blank'⟩ := callPattern_iff.mp isMatch
  rw [List.getLast?_append_of_ne_nil front ne] at before
  refine reached_word (blanks' ++ ['(']) ne before (functionName_isName isName serial) ?_
    (functionName_isName isName' serial').word fun c member => ?_
  · rw [same, append_assoc, singleton_append]
  rcases mem_append.mp member with inBlanks | isParen
  · exact not_isWord_of_isSpace (blank' c inBlanks)
  · rw [mem_singleton.mp isParen]
    rfl

theorem objectPattern_some (idents : ∀ x ∈ names, IsName x)
    (h : objectPattern names prev s = some ((), rest)) :
    ∃ z, ∃ x ∈ names, s = '"' :: (z ++ (x ++ dotBpfO)) ++ '"' :: rest ∧
      '"' ∉ z ++ (x ++ dotBpfO) := by
  unfold objectPattern at h
  split at h
  · rename_i t
    obtain ⟨k, inRange, h⟩ := exists_of_findSome?_eq_some h
    obtain ⟨x, listed, h⟩ := exists_of_findSome?_eq_some h
    obtain ⟨rest', starts, h⟩ := bind_eq_some_iff.mp h
    cases h
    have split := dropPrefix_iff.mp starts
    have bound : k ≤ (t.takeWhile (· ≠ '"')).length := by simpa [Nat.lt_succ_iff] using inRange
    refine ⟨t.take k, x, listed, ?_, fun member => ?_⟩
    · have whole : t = t.take k ++ t.drop k := (take_append_drop k t).symm
      rw [split] at whole
      exact congrArg ('"' :: ·) (whole.trans (by simp))
    rcases mem_append.mp member with inFront | member
    · have same : t.take k = (t.takeWhile (· ≠ '"')).take k := by
        obtain ⟨more, whole⟩ := takeWhile_prefix (· ≠ '"') (l := t)
        nth_rewrite 1 [← whole]
        exact take_append_of_le_length bound
      have noQuote := mem_takeWhile_imp (mem_of_mem_take (same ▸ inFront))
      exact absurd rfl (of_decide_eq_true noQuote)
    · rcases mem_append.mp member with inName | inEnd
      · exact absurd ((idents x listed).word _ inName) (by decide)
      · exact absurd inEnd (by decide)
  · cases h

theorem objectPattern_of_file {z x rest : Chars} (listed : x ∈ names) (isName : IsName x)
    (noQuote : '"' ∉ z) (prev : Option Char) :
    ∃ rest', objectPattern names prev ('"' :: (z ++ (x ++ dotBpfO)) ++ '"' :: rest) =
      some ((), rest') := by
  have noQuote' : '"' ∉ z ++ (x ++ dotBpfO) := by
    intro member
    rcases mem_append.mp member with inFront | member
    · exact noQuote inFront
    · rcases mem_append.mp member with inName | inEnd
      · exact absurd (isName.word _ inName) (by decide)
      · exact absurd inEnd (by decide)
  have run : ((z ++ (x ++ dotBpfO)) ++ '"' :: rest).takeWhile (· ≠ '"') = z ++ (x ++ dotBpfO) := by
    rw [takeWhile_append_of_pos, takeWhile_cons_of_neg (by simp), append_nil]
    intro c member
    refine decide_eq_true fun isQuote => noQuote' ?_
    rw [← isQuote]
    exact member
  have isSome :
      (objectPattern names prev ('"' :: (z ++ (x ++ dotBpfO)) ++ '"' :: rest)).isSome = true := by
    rw [cons_append, objectPattern, run, List.findSome?_isSome_iff]
    refine ⟨z.length, by simp, ?_⟩
    rw [List.findSome?_isSome_iff]
    refine ⟨x, listed, ?_⟩
    rw [append_assoc, drop_left,
      dropPrefix_iff.mpr (show _ = (x ++ dotBpfO ++ ['"']) ++ rest by simp)]
    rfl
  obtain ⟨⟨_, rest'⟩, found⟩ := isSome_iff_exists.mp isSome
  exact ⟨rest', found⟩

theorem escaped_quote {quote : Char} (notEscape : quote ≠ '\\') {front back : Chars}
    (h : escaped quote body = true) (split : body = front ++ quote :: back) :
    front.getLast? = some '\\' := by
  induction body using escaped.induct generalizing front with
  | case1 => simp at split
  | case2 c =>
    rw [escaped, Bool.and_eq_true] at h
    cases front with
    | nil => exact absurd (List.cons.inj split).1 (of_decide_eq_true h.2)
    | cons e front => simp at split
  | case3 d cs ih =>
    rw [escaped, if_pos rfl] at h
    cases front with
    | nil => exact absurd (List.cons.inj split).1.symm notEscape
    | cons e front =>
      obtain ⟨isEscape, tail⟩ := List.cons.inj split
      cases front with
      | nil => rw [← isEscape]; rfl
      | cons f front =>
        have last := ih h (List.cons.inj tail).2
        have ne : front ≠ [] := by
          rintro rfl
          cases last
        rw [List.getLast?_cons_cons, List.getLast?_cons_of_ne_nil ne]
        exact last
  | case4 c d cs notBackslash ih =>
    rw [escaped, if_neg notBackslash, Bool.and_eq_true] at h
    cases front with
    | nil => exact absurd (List.cons.inj split).1 (of_decide_eq_true h.1)
    | cons e front =>
      have last := ih h.2 (List.cons.inj split).2
      have ne : front ≠ [] := by
        rintro rfl
        cases last
      rw [List.getLast?_cons_of_ne_nil ne]
      exact last

theorem detached_split {before : Chars}
    (h : detached names before (front ++ .lit '"' body :: back) = true) :
    ∀ x ∈ names, ¬ x ++ dotBpfO <:+ before ++ sourceText front := by
  induction front generalizing before with
  | nil =>
    rw [nil_append, detached, Bool.and_eq_true] at h
    intro x listed ends
    have free := all_eq_true.mp h.1 x listed
    rw [sourceText, flatMap_nil, append_nil] at ends
    rw [isSuffixOf_iff_suffix.mpr ends] at free
    cases free
  | cons p front ih =>
    rw [cons_append, detached, Bool.and_eq_true] at h
    have rest := ih h.2
    rw [append_assoc] at rest
    exact rest

theorem valid_of_source {p : Piece}
    (h : isSource (front ++ p :: back) = true) : p.valid = true := by
  induction front with
  | nil =>
    rw [nil_append, isSource, Bool.and_eq_true, Bool.and_eq_true] at h
    exact h.1.1
  | cons q front ih =>
    rw [cons_append, isSource, Bool.and_eq_true] at h
    exact ih h.2

theorem exists_last {α : Type} {x : α} {l : List α} (member : x ∈ l) :
    ∃ front back, l = front ++ x :: back ∧ x ∉ back := by
  obtain ⟨front, back, split, free⟩ := eq_append_cons_of_mem (mem_reverse.mpr member)
  refine ⟨back.reverse, front.reverse, ?_, fun inside => free (mem_reverse.mp inside)⟩
  rw [← reverse_reverse l, split]
  simp

/-- A quoted text without a quote that reaches over a quote ends with it. -/
theorem closing_quote {inner : Chars} (ne : mid ≠ [])
    (same : mid ++ '"' :: s = '"' :: inner ++ '"' :: rest) (noQuote : '"' ∉ inner)
    (shorter : rest.length < ('"' :: s).length) : mid = '"' :: inner := by
  cases mid with
  | nil => exact absurd rfl ne
  | cons c mid =>
    rw [cons_append, cons_append] at same
    obtain ⟨isQuote, tail⟩ := List.cons.inj same
    rw [isQuote]
    refine congrArg ('"' :: ·) ?_
    rcases append_eq_append_iff.mp tail with ⟨more, whole, left⟩ | ⟨more, whole, left⟩
    · cases more with
      | nil => rw [whole, append_nil]
      | cons d more =>
        rw [cons_append] at left
        have isQuote' : '"' = d := (List.cons.inj left).1
        rw [whole, ← isQuote'] at noQuote
        exact absurd (mem_append_right mid (.head _)) noQuote
    · cases more with
      | nil => rw [whole, append_nil]
      | cons d more =>
        rw [cons_append] at left
        have lengths := congrArg List.length (List.cons.inj left).2
        rw [length_append] at lengths
        omega

/-- A string with the file of an object is found, at its beginning or at its last quote. -/
theorem object_found (idents : ∀ x ∈ names, IsName x) {ps : List Piece} {path : Chars}
    (source : isSource ps = true) (free : detached names [] ps = true)
    (split : ps = front ++ .lit '"' (path ++ (x ++ dotBpfO)) :: back) (listed : x ∈ names) :
    ∃ q ∈ (finditer (objectPattern names) (sourceText ps)).map (·.start),
      (sourceText front).length ≤ q ∧ q ≤ (sourceText front).length + path.length := by
  subst split
  have valid := valid_of_source source
  rw [Piece.valid, Bool.and_eq_true] at valid
  have ends := detached_split free
  rw [nil_append] at ends
  -- The last quote before the file.
  obtain ⟨a, z, split, noQuote⟩ := exists_last (x := '"') (l := '"' :: path) (.head _)
  have text : sourceText (front ++ .lit '"' (path ++ (x ++ dotBpfO)) :: back) =
      (sourceText front ++ a) ++ ('"' :: (z ++ (x ++ dotBpfO)) ++ '"' :: sourceText back) := by
    have joined : '"' :: (path ++ (x ++ dotBpfO)) = a ++ '"' :: (z ++ (x ++ dotBpfO)) := by
      rw [← cons_append, split]
      simp
    simp only [sourceText, flatMap_append, flatMap_cons, Piece.text]
    rw [← cons_append, joined]
    simp
  obtain ⟨rest, found⟩ := @objectPattern_of_file names z x (sourceText back) listed
    (idents x listed)
    noQuote (sourceText front ++ a).getLast?
  have lengths := congrArg List.length split
  simp only [length_cons, length_append] at lengths
  rw [text]
  refine ⟨(sourceText front ++ a).length,
    mem_map.mpr ⟨_, Scan.mem_finditer (by simp) found ?_, rfl⟩,
    by simp, by simp only [length_append]; omega⟩
  intro front' mid isBefore ne value rest' isMatch
  obtain ⟨z', y, listed', same, noQuote'⟩ := objectPattern_some idents isMatch
  by_contra shorter
  -- A match from before would end with this quote.
  have closes := closing_quote ne same noQuote' (Nat.lt_of_not_le shorter)
  have ends' : y ++ dotBpfO <:+ sourceText front ++ a := by
    rw [isBefore, closes]
    exact ⟨front' ++ '"' :: z', by simp⟩
  cases a with
  | nil =>
    rw [append_nil] at ends'
    exact ends y listed' ends'
  | cons c a =>
    have isPath : path = a ++ '"' :: z := (List.cons.inj split).2
    have backslash : a.getLast? = some '\\' := by
      have body : path ++ (x ++ dotBpfO) = a ++ '"' :: (z ++ (x ++ dotBpfO)) := by
        rw [isPath]
        simp
      exact escaped_quote (by decide) valid.2 body
    obtain ⟨w, whole⟩ := ends'
    have last := congrArg List.getLast? whole
    have ne' : a ≠ [] := by
      rintro rfl
      cases backslash
    rw [← append_assoc, List.getLast?_append_of_ne_nil _ (show dotBpfO ≠ [] by decide),
      List.getLast?_append_of_ne_nil _ (cons_ne_nil c a), List.getLast?_cons_of_ne_nil ne',
      backslash] at last
    exact absurd last (by decide)

end Found

/-! The selection. -/

theorem Span.close {code : Chars} (span : Span code b) : code[b.stop - 1]? = some '}' := by
  cases span with
  | @intro pre name gap inner post serial void split =>
    have whole : code = (pre ++ (header serial name void ++ (gap ++ ('{' :: inner)))) ++
        '}' :: post := by
      rw [split]
      simp
    have length : (pre ++ (header serial name void ++ (gap ++ ('{' :: inner)))).length =
        pre.length + (header serial name void).length + gap.length + (inner.length + 1) := by
      simp only [length_append, length_cons]
      omega
    rw [whole, Nat.add_sub_cancel, ← length, List.getElem?_append_right (Nat.le_refl _),
      Nat.sub_self]
    rfl

theorem Span.past_literal {ps : List Piece} {quote : Char}
    (span : Span (sourceCode ps) b) (split : ps = front ++ .lit quote body :: back)
    (noBrace : quote ≠ '}') (inside : (sourceText front).length < b.stop) :
    (sourceText front).length + body.length < b.stop := by
  by_contra ends
  have close := span.close
  have whole : sourceCode ps =
      sourceCode front ++ ((quote :: (spaces body.length ++ [quote])) ++ sourceCode back) := by
    rw [split, sourceCode, flatMap_append, flatMap_cons]
    rfl
  rw [whole, List.getElem?_append_right (by rw [sourceCode_length]; omega),
    List.getElem?_append_left (by simp [spaces, sourceCode_length]; omega)] at close
  have member := mem_of_getElem? close
  simp [spaces, noBrace.symm] at member

theorem name_mem_of_span {code : Chars} (span : Span code b) : b.name ∈ testNames code := by
  cases span with
  | intro split line isName blank balanced =>
    subst split
    exact mem_eraseDups.mpr (mem_map.mpr ⟨_, mem_testDefs line isName, rfl⟩)

theorem affectedTests_cases (names : List Chars) (text : Chars) :
    affectedTests names text = testNames (blankNoncode text) ∨
      ∃ bodies owners edges, testBodies (blankNoncode text) = some bodies ∧
        (references names (blankNoncode text) text).mapM (owner bodies) = some owners ∧
        (calls (testNames (blankNoncode text)) (blankNoncode text)).mapM
          (fun m => (owner bodies m.start).map (m.value, ·)) = some edges ∧
        affectedTests names text = (testNames (blankNoncode text)).filter
          ((closure owners.eraseDups edges).contains ·) := by
  unfold affectedTests
  dsimp only
  split
  · exact .inl rfl
  · exact .inl rfl
  rename_i body bodies isBodies
  split
  · exact .inl rfl
  rename_i reference rest isReferences
  split
  · rename_i owners edges isOwners isEdges
    exact .inr ⟨_, owners, edges, isBodies, isReferences ▸ isOwners, isEdges, rfl⟩
  · exact .inl rfl

theorem mem_callers {edges : List (Chars × Chars)} {callee caller : Chars} :
    caller ∈ callers edges callee ↔ (callee, caller) ∈ edges ∧ caller ≠ callee := by
  unfold callers
  rw [mem_filterMap]
  constructor
  · rintro ⟨e, listed, h⟩
    split at h
    · rename_i both
      cases h
      exact ⟨both.1 ▸ listed, both.2⟩
    · cases h
  · rintro ⟨listed, other⟩
    exact ⟨_, listed, if_pos ⟨rfl, other⟩⟩

theorem closure_closed (hit : List Chars) (edges : List (Chars × Chars)) :
    (∀ x ∈ hit, x ∈ closure hit edges) ∧
      ∀ x ∈ closure hit edges, ∀ y ∈ callers edges x, y ∈ closure hit edges := by
  have inv : Worklist.Inv (callers edges) ⟨hit, hit⟩ :=
    ⟨fun x queued => queued, fun x hit => .inl hit⟩
  have members : ∀ x, ∀ y ∈ callers edges x, y ∈ edges.map (·.2) := fun x y caller =>
    mem_map.mpr ⟨(x, y), (mem_callers.mp caller).1, rfl⟩
  have enough : Worklist.measure (edges.map (·.2)) ⟨hit, hit⟩ ≤ hit.length + edges.length := by
    refine Nat.add_le_add_left ?_ _
    exact Nat.le_trans (length_filter_le _ _) (Nat.le_of_eq (length_map _))
  exact Worklist.loop_closed members inv enough

/-- What the selection has when it is not the whole file. -/
structure Selected (names : List Chars) (code text : Chars) (result : List Chars)
    (bodies : List Body) (closed : List Chars) : Prop where
  isBodies : testBodies code = some bodies
  mem : ∀ t, t ∈ result ↔ t ∈ testNames code ∧ t ∈ closed
  refers : ∀ r ∈ references names code text, ∃ o ∈ closed, owner bodies r = some o
  calls : ∀ m ∈ calls (testNames code) code, ∃ o, owner bodies m.start = some o ∧
    (m.value ∈ closed → o ∈ closed)
  reached : ∀ t ∈ closed, Reaches names code text t

theorem selected_of_narrowed {names : List Chars} {text : Chars}
    (narrowed : affectedTests names text ≠ testNames (blankNoncode text)) :
    ∃ bodies closed,
      Selected names (blankNoncode text) text (affectedTests names text) bodies closed := by
  obtain whole | ⟨bodies, owners, edges, isBodies, isOwners, isEdges, result⟩ :=
    affectedTests_cases names text
  · exact absurd whole narrowed
  obtain ⟨hits, closes⟩ := closure_closed owners.eraseDups edges
  refine ⟨bodies, closure owners.eraseDups edges, isBodies, fun t => ?_, fun r listed => ?_,
    fun m listed => ?_, ?_⟩
  · rw [result, mem_filter, contains_iff_mem]
  · obtain ⟨o, member, isOwner⟩ := Exc.exists_of_mapM isOwners listed
    exact ⟨o, hits o (mem_eraseDups.mpr member), isOwner⟩
  · obtain ⟨e, member, isEdge⟩ := Exc.exists_of_mapM isEdges listed
    obtain ⟨o, isOwner, rfl⟩ := map_eq_some_iff.mp isEdge
    refine ⟨o, isOwner, fun callee => ?_⟩
    by_cases self : o = m.value
    · exact self ▸ callee
    · exact closes m.value callee o (mem_callers.mpr ⟨member, self⟩)
  have first : ∀ o ∈ owners.eraseDups, Reaches names (blankNoncode text) text o := by
    intro o member
    obtain ⟨r, found, isOwner⟩ := Exc.exists_of_forall₂
      (Exc.mapM_eq_some_iff.mp isOwners).flip (mem_eraseDups.mp member)
    obtain ⟨b, around, rfl⟩ := around_of_owner isBodies isOwner
    exact .refers around found
  refine Worklist.loop_forall (fun u callee o caller => ?_) first first
  obtain ⟨member, _⟩ := mem_callers.mp caller
  obtain ⟨m, seen, isEdge⟩ := Exc.exists_of_forall₂ (Exc.mapM_eq_some_iff.mp isEdges).flip member
  obtain ⟨_, isOwner, same⟩ := map_eq_some_iff.mp isEdge
  cases same
  obtain ⟨b, around, rfl⟩ := around_of_owner isBodies isOwner
  exact .calls around seen callee

section Complete
variable {names : List Chars} {ps : List Piece} {runs : Chars → Nat → Prop}

theorem mem_of_refers (source : isSource ps = true) (idents : ∀ x ∈ names, IsName x)
    (free : detached names [] ps = true) {result closed : List Chars} {bodies : List Body}
    (selected : Selected names (sourceCode ps) (sourceText ps) result bodies closed)
    (test : IsTest (sourceCode ps) b) (refers : RefersAt names ps p)
    (start : b.start ≤ p) (stop : p < b.stop) : b.name ∈ result := by
  refine (selected.mem b.name).mpr ⟨name_mem_of_span test.span, ?_⟩
  -- A place in the test where the reference is found.
  obtain ⟨q, listed, start', stop'⟩ : ∃ q ∈ references names (sourceCode ps) (sourceText ps),
      b.start ≤ q ∧ q < b.stop := by
    cases refers with
    | word split token listed refers =>
      refine ⟨_, mem_append_left _ ?_, start, stop⟩
      rw [split]
      exact reference_found idents token listed refers
    | object split listed folder =>
      obtain ⟨q, found, low, high⟩ := object_found idents source free split listed
      have past := test.span.past_literal split (by decide) stop
      refine ⟨q, mem_append_right _ found, Nat.le_trans start low, ?_⟩
      rw [length_append] at past
      omega
  obtain ⟨o, isClosed, isOwner⟩ := selected.refers q listed
  rw [owner_of_test selected.isBodies test start' stop'] at isOwner
  cases isOwner
  exact isClosed

theorem mem_of_seen {result closed : List Chars} {bodies : List Body}
    (selected : Selected names (sourceCode ps) (sourceText ps) result bodies closed) {u : Chars}
    (test : IsTest (sourceCode ps) b)
    (leads : Leads (sourceCode ps) runs b p) (mention : Mention (sourceCode ps) p u)
    (seen : seenCall (sourceCode ps) p = true) (callee : u ∈ result) : b.name ∈ result := by
  refine (selected.mem b.name).mpr ⟨name_mem_of_span test.span, ?_⟩
  obtain ⟨isTest, isClosed⟩ := (selected.mem u).mp callee
  obtain ⟨m, listed, rfl, rfl⟩ : ∃ m ∈ calls (testNames (sourceCode ps)) (sourceCode ps),
      m.start = p ∧ m.value = u := by
    cases mention with
    | @intro pre name post serial split token isName used =>
      rw [seenCall, Bool.and_eq_true] at seen
      have follows : parenthesis post = some (post.dropWhile Text.isSpace).tail := by
        have paren := of_decide_eq_true seen.2
        rw [split, drop_left, dropWhile_append_of_pos token.name.word,
          dropWhile_word token.after] at paren
        rw [parenthesis, dropPrefix_iff]
        exact (cons_head?_tail paren).symm
      obtain ⟨blanks, isPost, blank⟩ := parenthesis_iff.mp follows
      obtain ⟨stop, found⟩ := @call_found pre u blanks _ serial token.before isName blank
      rw [← isPost, ← split] at found
      refine ⟨_, mem_filter.mpr ⟨found, ?_⟩, rfl, rfl⟩
      rw [Bool.and_eq_true]
      exact ⟨contains_iff_mem.mpr isTest, seen.1⟩
  obtain ⟨o, isOwner, closes⟩ := selected.calls m listed
  cases leads with
  | inside start stop =>
    rw [owner_of_test selected.isBodies test start stop] at isOwner
    cases isOwner
    exact closes isClosed
  | outside _ helper =>
    rw [owner_of_helper selected.isBodies helper] at isOwner
    cases isOwner

theorem mem_of_reaches {result closed : List Chars} {bodies : List Body} {code text t : Chars}
    (selected : Selected names code text result bodies closed)
    (reaches : Reaches names code text t) :
    t ∈ closed := by
  induction reaches with
  | refers around found =>
    obtain ⟨o, isClosed, isOwner⟩ := selected.refers _ found
    rw [owner_of_around selected.isBodies around] at isOwner
    cases isOwner
    exact isClosed
  | calls around seen _ ih =>
    obtain ⟨o, isOwner, closes⟩ := selected.calls _ seen
    rw [owner_of_around selected.isBodies around] at isOwner
    cases isOwner
    exact closes ih

end Complete

/-- A selection that is not the whole file has every affected test just if the source has this
property: a test that leads to a use of an affected test which is not seen as a call is also
reached by references and seen calls. -/
theorem complete_iff (names : List Chars) (ps : List Piece) (runs : Chars → Nat → Prop)
    (source : isSource ps = true) (idents : ∀ x ∈ names, IsName x)
    (free : detached names [] ps = true)
    (narrowed : affectedTests names (sourceText ps) ≠ testNames (sourceCode ps)) :
    (∀ t, IsAffected names ps runs t → t ∈ affectedTests names (sourceText ps)) ↔
      ∀ b p u, IsTest (sourceCode ps) b → Leads (sourceCode ps) runs b p →
        Mention (sourceCode ps) p u → seenCall (sourceCode ps) p = false →
        IsAffected names ps runs u → Reaches names (sourceCode ps) (sourceText ps) b.name := by
  have code := blankNoncode_sourceText source
  rw [← code] at narrowed
  obtain ⟨bodies, closed, selected⟩ := selected_of_narrowed narrowed
  rw [code] at selected
  constructor
  · intro complete b p u test leads mention _ affected
    have here := complete b.name (.mentions test leads mention affected)
    exact selected.reached b.name ((selected.mem b.name).mp here).2
  intro unseen t affected
  induction affected with
  | refers test refers start stop =>
    exact mem_of_refers source idents free selected test refers start stop
  | @mentions b p u test leads mention affected ih =>
    cases seen : seenCall (sourceCode ps) p with
    | true => exact mem_of_seen selected test leads mention seen ih
    | false =>
      have reached := mem_of_reaches selected (unseen b p u test leads mention seen affected)
      exact (selected.mem b.name).mpr ⟨name_mem_of_span test.span, reached⟩

theorem isTest_of_bodies {code : Chars} {bodies : List Body}
    (isBodies : testBodies code = some bodies) (member : b ∈ bodies)
    (top : ∀ s ∈ bodies, ¬ (s.start < b.start ∧ b.start < s.stop)) :
    IsTest code b :=
  ⟨span_of_mem isBodies member, fun s span => top s (mem_of_span isBodies span)⟩

theorem not_declares_of_last {c : Char} (last : pre.getLast? = some c)
    (noSpace : Text.isSpace c = false) : ¬ Declares pre := by
  rintro ⟨front, blanks, rfl, ne, blank, _⟩
  rw [← append_assoc, List.getLast?_append_of_ne_nil _ ne] at last
  exact absurd (blank c (mem_of_getLast? last)) (Bool.eq_false_iff.mp noSpace)

theorem isName_of_all (h : (!x.isEmpty && x.all isWord) = true) : IsName x := by
  rw [Bool.and_eq_true] at h
  exact ⟨fun none' => by simp [none'] at h, all_eq_true.mp h.2⟩

def testLine (name body : Chars) : Chars :=
  header false name true ++ (' ' :: '{' :: (body ++ ['}', '\n']))

/-- A reference in a string, a call after a comment, and a test without either. -/
def callSource : List Piece :=
  (header false ['a'] true ++ [' ', '{']).map .code ++ .lit '"' ("d/x".toList ++ dotBpfO) ::
    (['}', '\n'] ++ header false ['b'] true ++ ['{']).map .code ++ .block " y ".toList ::
    ("test_a()".toList ++ ['}', '\n'] ++ testLine ['c'] []).map .code

theorem complete_iff_call :
    affectedTests [['x']] (sourceText callSource) = [['a'], ['b']] ∧
    ((∀ t, IsAffected [['x']] callSource (fun _ _ => True) t → t ∈ [['a'], ['b']]) ↔
      ∀ b p u, IsTest (sourceCode callSource) b →
        Leads (sourceCode callSource) (fun _ _ => True) b p →
        Mention (sourceCode callSource) p u → seenCall (sourceCode callSource) p = false →
        IsAffected [['x']] callSource (fun _ _ => True) u →
        Reaches [['x']] (sourceCode callSource) (sourceText callSource) b.name) := by
  have result : affectedTests [['x']] (sourceText callSource) = [['a'], ['b']] := by
    decide +kernel
  have narrowed : affectedTests [['x']] (sourceText callSource) ≠
      testNames (sourceCode callSource) := by
    decide +kernel
  have idents : ∀ x ∈ [['x']], IsName x := by
    intro x listed
    rw [mem_singleton.mp listed]
    exact isName_of_all rfl
  have iff := complete_iff [['x']] callSource (fun _ _ => True) (by decide +kernel) idents
    (by decide +kernel) narrowed
  rw [result] at iff
  exact ⟨result, iff⟩

/-- A call after a cast, and a name that is passed on. -/
def castSource : List Piece :=
  (testLine ['a'] "x()".toList ++ testLine ['b'] "(void)test_a()".toList ++
    testLine ['c'] "run(test_a)".toList ++ testLine ['d'] []).map .code

/-- The test that refers to the object is found, the two that use it are not. -/
theorem uses_unseen :
    isSource castSource = true ∧
    affectedTests [['x']] (sourceText castSource) = [['a']] ∧
    testNames (sourceCode castSource) = [['a'], ['b'], ['c'], ['d']] ∧
    IsAffected [['x']] castSource (fun _ _ => False) ['b'] ∧
    IsAffected [['x']] castSource (fun _ _ => False) ['c'] := by
  have bodies : testBodies (sourceCode castSource) = some [⟨['a'], 0, 23⟩, ⟨['b'], 24, 58⟩,
      ⟨['c'], 59, 90⟩, ⟨['d'], 91, 111⟩] := by decide +kernel
  have test (b : Body) (member : b ∈ [⟨['a'], 0, 23⟩, ⟨['b'], 24, 58⟩,
      ⟨['c'], 59, 90⟩, ⟨['d'], 91, 111⟩]) : IsTest (sourceCode castSource) b := by
    refine isTest_of_bodies bodies member ?_
    revert b
    decide +kernel
  have first : IsAffected [['x']] castSource (fun _ _ => False) ['a'] := by
    have token : Token ((sourceCode castSource).take 19) ['x'] ((sourceCode castSource).drop 20) :=
      ⟨isName_of_all rfl, by decide +kernel, by decide +kernel⟩
    have split : sourceCode castSource =
        (sourceCode castSource).take 19 ++ (['x'] ++ (sourceCode castSource).drop 20) := by
      decide +kernel
    exact .refers (test _ (.head _)) (.word split token (.head _) (.inl rfl))
      (by decide +kernel) (by decide +kernel)
  -- The name of the first test after a character that is no blank.
  have use (pre post : Chars) (c : Char)
    (split : sourceCode castSource = pre ++ ("test_a".toList ++ post))
      (last : pre.getLast? = some c) (noSpace : Text.isSpace c = false) (noWord : isWord c = false)
      (after : wordAt post.head? = false) : Mention (sourceCode castSource) pre.length ['a'] := by
    have token : Token pre (functionName false ['a']) post :=
      ⟨isName_of_all rfl, last ▸ noWord, after⟩
    exact .intro split token (isName_of_all rfl) (not_declares_of_last last noSpace)
  refine ⟨by decide +kernel, by decide +kernel, by decide +kernel, ?_, ?_⟩
  · have cast := use ((sourceCode castSource).take 49) ((sourceCode castSource).drop 55) ')'
      (by decide +kernel) (by decide +kernel) rfl rfl (by decide +kernel)
    exact .mentions (test ⟨['b'], 24, 58⟩ (by decide +kernel))
      (.inside (by decide +kernel) (by decide +kernel)) cast first
  have passed := use ((sourceCode castSource).take 82) ((sourceCode castSource).drop 88) '('
    (by decide +kernel) (by decide +kernel) rfl rfl (by decide +kernel)
  exact .mentions (test ⟨['c'], 59, 90⟩ (by decide +kernel))
    (.inside (by decide +kernel) (by decide +kernel)) passed first

end BpfEquiv.Affected
