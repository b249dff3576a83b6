import BpfEquiv.CText
import BpfEquiv.Exc

/-!
Rust source as tokens, and the text in which comments and string bodies are blanked.

The masking function knows comments, strings and raw strings. It leaves the letter in front of
a raw byte or C string. It does not know character literals: a double quote in one of them begins
a string for it, and the mask differs from the lexical structure at the closing quote of the
literal.
-/
namespace BpfEquiv.Tags
open List

open Affected (Chars spaces find lineLength escaped)
open Bool (and_eq_true not_eq_true' or_eq_true)

inductive Fail where
  | tag (msg : String)
  | crash (exn : String)
  deriving DecidableEq

/-! Masking. -/

/-- How far the end of a block comment is, at some depth. -/
def blockLength : Nat → Chars → Nat
  | 0, _ => 0
  | _ + 1, [] => 0
  | depth + 1, c :: cs =>
    match cs with
    | d :: ds =>
      if c = '/' ∧ d = '*' then blockLength (depth + 2) ds + 2
      else if c = '*' ∧ d = '/' then blockLength depth ds + 2
      else blockLength (depth + 1) (d :: ds) + 1
    | [] => 1

def rawHashes (cs : Chars) : Nat := (cs.takeWhile (· = '#')).length

/-- What follows the opening quote, if a raw string follows the letter. -/
def rawBody (cs : Chars) : Option Chars :=
  match cs.dropWhile (· = '#') with
  | [] => none
  | c :: body => if c = '"' then some body else none

def rawClose (hashes : Nat) : Chars := '"' :: List.replicate hashes '#'

/-- How far the closing quote is. -/
def strLength : Chars → Except Fail Nat
  | [] => .error (.tag "unterminated string literal")
  | [c] =>
    if c = '\\' then .error (.crash "IndexError: list assignment index out of range")
    else if c = '"' then .ok 0
    else .error (.tag "unterminated string literal")
  | c :: d :: cs =>
    if c = '\\' then (· + 2) <$> strLength cs
    else if c = '"' then .ok 0
    else (· + 1) <$> strLength (d :: cs)

/-- What becomes of the text at one position, and of how much of it. -/
def stripStep (c : Char) (cs : Chars) : Except Fail (Chars × Nat) :=
  if c = '/' ∧ cs.head? = some '/' then
    .ok (spaces (lineLength (c :: cs)), lineLength (c :: cs))
  else if c = '/' ∧ cs.head? = some '*' then
    .ok (spaces (blockLength 1 (cs.drop 1) + 2), blockLength 1 (cs.drop 1) + 2)
  else if c = 'r' then
    match rawBody cs with
    | none => .ok ([c], 1)
    | some body =>
      match find (rawClose (rawHashes cs)) body with
      | none => .error (.tag "unterminated raw string literal")
      | some k => .ok (spaces (k + 2 * rawHashes cs + 3), k + 2 * rawHashes cs + 3)
  else if c = '"' then do
    let n ← strLength cs
    pure ('"' :: (spaces n ++ ['"']), n + 2)
  else .ok ([c], 1)

def stripFrom : Nat → Chars → Except Fail Chars
  | fuel + 1, c :: cs => do
    let step ← stripStep c cs
    let rest ← stripFrom fuel ((c :: cs).drop step.2)
    pure (step.1 ++ rest)
  | _, _ => pure []

/-- The text with comments and string bodies blanked. -/
def stripNoise (src : Chars) : Except Fail Chars := stripFrom src.length src

/-! The lexical structure. -/

def isWhite (c : Char) : Bool :=
  (9 ≤ c.toNat && c.toNat ≤ 13) ||
    [0x20, 0x85, 0x200e, 0x200f, 0x2028, 0x2029].contains c.toNat

/-- The characters of identifiers; beyond ASCII they are left open. -/
structure Letters where
  xid : Char → Bool
  ascii : ∀ c : Char, c.toNat < 128 → xid c = (c.isAlphanum || c = '_')

def Letters.asciiOnly : Letters where
  xid c := c.isAlphanum || c = '_'
  ascii _ _ := rfl

inductive CharBody where
  | plain (c : Char)
  | escape (c : Char)
  | hex (a b : Char)
  | unicode (digits : Chars)
  deriving DecidableEq

def CharBody.text : CharBody → Chars
  | .plain c => [c]
  | .escape c => ['\\', c]
  | .hex a b => ['\\', 'x', a, b]
  | .unicode digits => '\\' :: 'u' :: '\x7b' :: (digits ++ ['\x7d'])

def hexLetters : Chars := ['a', 'b', 'c', 'd', 'e', 'f', 'A', 'B', 'C', 'D', 'E', 'F']

def isHex (c : Char) : Bool := c.isDigit || hexLetters.contains c

def CharBody.valid : CharBody → Bool
  | .plain c => !List.contains ['\'', '\\', '\n', '\r', '\t'] c
  | .escape c => ['n', 'r', 't', '\\', '0', '\'', '"'].contains c
  | .hex a b => isHex a && isHex b
  | .unicode digits => digits.all fun c => isHex c || c = '_'

/-- A token, or what stands between tokens. The text of a block comment has its end mark. A
literal may have a suffix. -/
inductive Tok where
  | space (c : Char)
  | line (body : Chars)
  | block (body : Chars)
  | str (pre : Option Char) (body suffix : Chars)
  | raw (pre : Option Char) (hashes : Nat) (body suffix : Chars)
  | chr (byte : Bool) (body : CharBody) (suffix : Chars)
  | lifetime (isRaw : Bool) (name : Chars)
  | ident (isRaw : Bool) (name : Chars)
  | number (digits : Chars)
  | punct (c : Char)
  deriving DecidableEq

def rawMark (isRaw : Bool) : Chars := if isRaw then ['r', '#'] else []

def byteMark (byte : Bool) : Chars := if byte then ['b'] else []

namespace Tok

/-- The word at the end of a token: a name, a number or a suffix. -/
def word : Tok → Chars
  | str _ _ suffix | raw _ _ _ suffix | chr _ _ suffix => suffix
  | lifetime _ name | ident _ name => name
  | number digits => digits
  | _ => []

def stem : Tok → Chars
  | space c => [c]
  | line body => '/' :: '/' :: body
  | block body => '/' :: '*' :: body
  | str pre body _ => pre.toList ++ '"' :: (body ++ ['"'])
  | raw pre hashes body _ =>
    pre.toList ++ 'r' :: (List.replicate hashes '#' ++ '"' :: (body ++ rawClose hashes))
  | chr byte body _ => byteMark byte ++ '\'' :: (body.text ++ ['\''])
  | lifetime isRaw _ => '\'' :: rawMark isRaw
  | ident isRaw _ => rawMark isRaw
  | number _ => []
  | punct c => [c]

/-- Comments and raw strings are blanked, of other strings the body. -/
def stemBlank : Tok → Chars
  | line body => spaces (body.length + 2)
  | block body => spaces (body.length + 2)
  | str pre body _ => pre.toList ++ '"' :: (spaces body.length ++ ['"'])
  | raw pre hashes body _ => spaces (pre.toList.length + (body.length + 2 * hashes + 3))
  | t => t.stem

/-- What the scan leaves: of a raw string the letter in front of it. -/
def stemSeen : Tok → Chars
  | raw pre hashes body _ => pre.toList ++ spaces (body.length + 2 * hashes + 3)
  | t => t.stemBlank

def text (t : Tok) : Chars := t.stem ++ t.word

def blank (t : Tok) : Chars := t.stemBlank ++ t.word

def seen (t : Tok) : Chars := t.stemSeen ++ t.word

end Tok

variable {rest w body : Chars} {letters : Letters} {c : Char}

/-- The text ends with the end of a comment that is open at some depth. -/
def closes : Nat → Chars → Bool
  | 0, [] => true
  | 0, _ :: _ => false
  | _ + 1, [] => false
  | depth + 1, c :: cs =>
    match cs with
    | d :: ds =>
      if c = '/' ∧ d = '*' then closes (depth + 2) ds
      else if c = '*' ∧ d = '/' then closes depth ds
      else closes (depth + 1) (d :: ds)
    | [] => false

def isPrefixLetter (pre : Option Char) : Bool := pre = none || pre = some 'b' || pre = some 'c'

def isWord (letters : Letters) (w rest : Chars) : Bool :=
  w.all letters.xid && rest.head?.all fun c => !letters.xid c

def beginsWithDigit (w : Chars) : Bool := w.head?.any Char.isDigit

def isName (letters : Letters) (w rest : Chars) : Bool :=
  isWord letters w rest && !w.isEmpty && !beginsWithDigit w

/-- The suffix of a literal; without one a number may follow. -/
def isSuffix (letters : Letters) (w rest : Chars) : Bool :=
  isName letters w rest ||
    (w.isEmpty && rest.head?.all fun c => !letters.xid c || c.isDigit)

def punctuation : Chars :=
  ['=', '<', '>', '!', '~', '+', '-', '*', '/', '%', '^', '&', '|', '@', '.', ',', ';', ':', '#',
    '$',
    '?', '(', ')', '[', ']', '\x7b', '\x7d']

def isPunct (c : Char) : Bool := punctuation.contains c

/-- A token followed by some text. An identifier may not touch a quote or a number sign, which
are reserved for literals. -/
def Tok.valid (letters : Letters) (rest : Chars) : Tok → Bool
  | .space c => isWhite c
  | .line body => !body.contains '\n' && (rest.head? = none || rest.head? = some '\n')
  | .block body => closes 1 body
  | .str pre body suffix => isPrefixLetter pre && escaped '"' body && isSuffix letters suffix rest
  | .raw pre hashes body suffix =>
    isPrefixLetter pre && !Text.contains (rawClose hashes) body && isSuffix letters suffix rest
  | .chr _ body suffix => body.valid && isSuffix letters suffix rest
  | .lifetime _ name => isName letters name rest && rest.head? ≠ some '\''
  | .ident _ name => isName letters name rest &&
      rest.head? ≠ some '"' && rest.head? ≠ some '\'' && rest.head? ≠ some '#'
  | .number digits => isWord letters digits rest && beginsWithDigit digits
  | .punct c => isPunct c && (c ≠ '/' || (rest.head? ≠ some '/' && rest.head? ≠ some '*'))

def sourceText (ts : List Tok) : Chars := ts.flatMap Tok.text

def sourceMask (ts : List Tok) : Chars := ts.flatMap Tok.blank

def sourceSeen (ts : List Tok) : Chars := ts.flatMap Tok.seen

/-- Lexically valid source. -/
def isSource (letters : Letters) : List Tok → Bool
  | [] => true
  | t :: ts => t.valid letters (sourceText ts) && isSource letters ts

def Tok.hasQuote : Tok → Bool
  | .chr _ body _ => body.text.contains '"'
  | _ => false

/-- A token that the masking function reads as Rust does: no double quote in a character
literal, and no word at the end that looks like the beginning of a raw string. -/
def Tok.read (rest : Chars) (t : Tok) : Bool :=
  !t.hasQuote && (t.word.getLast? ≠ some 'r' || (rawBody rest).isNone)

def Tok.lettered : Tok → Bool
  | .raw pre _ _ _ => pre.isSome
  | _ => false

def isRead : List Tok → Bool
  | [] => true
  | t :: ts => t.read (sourceText ts) && isRead ts

/-- Besides, no raw string has a letter in front of it. -/
def isPlain (ts : List Tok) : Bool := isRead ts && ts.all fun t => !t.lettered

theorem Tok.stemBlank_length (t : Tok) : t.stemBlank.length = t.stem.length := by
  cases t with
  | line _ | block _ | str _ _ _ => simp [stemBlank, stem, spaces]
  | raw pre hashes body suffix =>
    simp [stemBlank, stem, spaces, rawClose]
    omega
  | _ => rfl

theorem Tok.stemSeen_length (t : Tok) : t.stemSeen.length = t.stem.length := by
  rw [← t.stemBlank_length]
  cases t with
  | raw pre hashes body suffix => simp [stemSeen, stemBlank, spaces]
  | _ => rfl

theorem flatMap_length {f g : Tok → Chars} (each : ∀ t, (f t).length = (g t).length)
    (ts : List Tok) :
    (ts.flatMap f).length = (ts.flatMap g).length := by
  induction ts with
  | nil => rfl
  | cons t ts ih => rw [flatMap_cons, flatMap_cons, length_append, length_append, each, ih]

theorem sourceMask_length (ts : List Tok) : (sourceMask ts).length = (sourceText ts).length :=
  flatMap_length (fun t => by
    rw [Tok.blank, Tok.text, length_append, length_append, t.stemBlank_length])
    ts

theorem Tok.seen_length (t : Tok) : t.seen.length = t.text.length := by
  rw [seen, text, length_append, length_append, stemSeen_length]

theorem sourceSeen_length (ts : List Tok) : (sourceSeen ts).length = (sourceText ts).length :=
  flatMap_length Tok.seen_length ts

/-! Masking follows the structure. -/

theorem stripStep_pos {cs : Chars} {step : Chars × Nat} (h : stripStep c cs = .ok step) :
    0 < step.2 := by
  unfold stripStep at h
  split at h
  · rename_i isLine
    cases h
    rw [isLine.1]
    exact Nat.succ_pos _
  split at h
  · cases h
    exact Nat.succ_pos _
  split at h
  · split at h
    · cases h
      exact Nat.one_pos
    split at h
    · cases h
    · cases h
      exact Nat.succ_pos _
  · split at h
    · obtain ⟨n, -, h⟩ := Exc.bind_eq_ok.mp h
      cases h
      exact Nat.succ_pos _
    · cases h
      exact Nat.one_pos

theorem stripFrom_congr {fuel fuel' : Nat} {s : Chars} (enough : s.length ≤ fuel)
    (enough' : s.length ≤ fuel') : stripFrom fuel s = stripFrom fuel' s := by
  induction fuel generalizing fuel' s with
  | zero =>
    rw [length_eq_zero_iff.mp (Nat.le_zero.mp enough)]
    cases fuel' <;> rfl
  | succ fuel ih =>
    cases s with
    | nil => cases fuel' <;> rfl
    | cons c cs =>
      obtain ⟨fuel', rfl⟩ :=
        Nat.exists_eq_succ_of_ne_zero (Nat.ne_of_gt (Nat.zero_lt_of_lt enough'))
      rw [stripFrom, stripFrom]
      cases step : stripStep c cs with
      | error e => rfl
      | ok step' =>
        have pos := stripStep_pos step
        have short : ((c :: cs).drop step'.2).length ≤ cs.length := by
          rw [length_drop, length_cons]
          omega
        rw [length_cons] at enough enough'
        change (stripFrom fuel _ >>= _) = (stripFrom fuel' _ >>= _)
        rw [@ih fuel' ((c :: cs).drop step'.2) (by omega) (by omega)]

theorem stripNoise_step {cs out : Chars} {n : Nat}
    (step : stripStep c cs = .ok (out, n)) (tail : (c :: cs).drop n = rest) :
    stripNoise (c :: cs) = (out ++ ·) <$> stripNoise rest := by
  have pos := stripStep_pos step
  have short : rest.length ≤ cs.length := by
    rw [← tail, length_drop, length_cons]
    omega
  rw [stripNoise, length_cons, stripFrom, step]
  change (stripFrom cs.length ((c :: cs).drop n) >>= fun rest => pure (out ++ rest)) = _
  rw [tail, stripFrom_congr short (Nat.le_refl _), stripNoise]
  cases stripFrom rest.length rest <;> rfl

structure Ordinary (c : Char) (cs : Chars) : Prop where
  noQuote : c ≠ '"'
  noComment : c = '/' → cs.head? ≠ some '/' ∧ cs.head? ≠ some '*'
  noRaw : c = 'r' → rawBody cs = none

theorem stripNoise_char {cs : Chars} (h : Ordinary c cs) :
    stripNoise (c :: cs) = ([c] ++ ·) <$> stripNoise cs := by
  refine @stripNoise_step cs c cs [c] 1 ?_ rfl
  rw [stripStep, if_neg fun both => (h.noComment both.1).1 both.2,
    if_neg fun both => (h.noComment both.1).2 both.2]
  split
  · next isR => rw [h.noRaw isR]
  · rw [if_neg h.noQuote]

theorem map_append_map {α : Type} (a b : List α) (x : Except Fail (List α)) :
    (a ++ ·) <$> ((b ++ ·) <$> x) = (a ++ b ++ ·) <$> x := by
  cases x with
  | error e => rfl
  | ok m => exact congrArg Except.ok (append_assoc a b m).symm

theorem stripNoise_chars
    (each : ∀ a c b, w = a ++ c :: b → Ordinary c (b ++ rest)) :
    stripNoise (w ++ rest) = (w ++ ·) <$> stripNoise rest := by
  induction w with
  | nil =>
    rw [nil_append]
    cases stripNoise rest <;> rfl
  | cons c w ih =>
    rw [cons_append, stripNoise_char (each [] c w rfl),
      ih fun a d b split => each (c :: a) d b (by rw [split]; rfl), map_append_map]
    rfl

theorem rawBody_cons {cs : Chars} (hash : c ≠ '#') (quote : c ≠ '"') :
    rawBody (c :: cs) = none := by
  rw [rawBody, dropWhile_cons_of_neg (by simpa using hash)]
  exact if_neg quote

/-- Letters and digits stay, unless the last one begins a raw string. -/
theorem stripNoise_word (letter : ∀ c ∈ w, c ≠ '"' ∧ c ≠ '/' ∧ c ≠ '#')
    (last : w.getLast? = some 'r' → rawBody rest = none) :
    stripNoise (w ++ rest) = (w ++ ·) <$> stripNoise rest := by
  refine stripNoise_chars fun a c b split => ?_
  have here := letter c (by rw [split]; simp)
  refine ⟨here.1, fun slash => absurd slash here.2.1, fun isR => ?_⟩
  cases b with
  | nil => exact last (by rw [split, isR]; simp)
  | cons d b =>
    have next := letter d (by rw [split]; simp)
    exact rawBody_cons next.2.2 next.1

theorem lineLength_line {line : Chars} (inLine : '\n' ∉ line)
    (ends : rest.head? = none ∨ rest.head? = some '\n') :
    lineLength (line ++ rest) = line.length := by
  have all : ∀ c ∈ line, decide (c ≠ '\n') = true := fun c member =>
    decide_eq_true fun isNewline => inLine (isNewline ▸ member)
  rw [lineLength, takeWhile_append_of_pos all]
  cases rest with
  | nil => simp
  | cons c rest =>
    have isNewline : c = '\n' := by simpa using ends
    simp [isNewline]

theorem blockLength_closes {depth : Nat} (h : closes depth body = true)
    (rest : Chars) : blockLength depth (body ++ rest) = body.length := by
  induction depth, body using closes.induct with
  | case1 => cases rest <;> rfl
  | case2 => cases h
  | case3 => cases h
  | case4 depth c d ds opens ih =>
    rw [closes, if_pos opens] at h
    rw [cons_append, cons_append, blockLength, if_pos opens, ih h]
    rfl
  | case5 depth c d ds opens shuts ih =>
    rw [closes, if_neg opens, if_pos shuts] at h
    rw [cons_append, cons_append, blockLength, if_neg opens, if_pos shuts, ih h]
    rfl
  | case6 depth c d ds opens shuts ih =>
    rw [closes, if_neg opens, if_neg shuts] at h
    rw [cons_append, cons_append, blockLength, if_neg opens, if_neg shuts,
      ← cons_append, ih h]
    rfl
  | case7 => cases h

theorem strLength_escaped (h : escaped '"' body = true) (rest : Chars) :
    strLength (body ++ '"' :: rest) = .ok body.length := by
  have atQuote : strLength ('"' :: rest) = .ok 0 := by
    cases rest <;> rw [strLength, if_neg (by decide), if_pos rfl]
  induction body using BpfEquiv.Affected.escaped.induct with
  | case1 => exact atQuote
  | case2 c =>
    rw [escaped, and_eq_true] at h
    rw [singleton_append, strLength, if_neg (of_decide_eq_true h.1),
      if_neg (of_decide_eq_true h.2), atQuote]
    rfl
  | case3 d cs ih =>
    rw [escaped, if_pos rfl] at h
    rw [cons_append, cons_append, strLength, if_pos rfl, ih h]
    rfl
  | case4 c d cs notBackslash ih =>
    rw [escaped, if_neg notBackslash, and_eq_true] at h
    rw [cons_append, cons_append, strLength, if_neg notBackslash,
      if_neg (of_decide_eq_true h.1), ← cons_append, ih h.2]
    rfl

/-- A raw string that does not contain its end mark ends at the first one: the mark begins with
its only quote. -/
theorem find_rawClose {hashes : Nat} (inside : ¬ rawClose hashes <:+: body)
    (rest : Chars) :
    find (rawClose hashes) (body ++ (rawClose hashes ++ rest)) = some body.length := by
  refine Affected.find_append_self rest fun k lt starts => inside ?_
  rw [drop_append_of_le_length (Nat.le_of_lt lt)] at starts
  by_cases long : (rawClose hashes).length ≤ (body.drop k).length
  · exact (prefix_of_prefix_length_le starts (prefix_append _ _) long).isInfix.trans
      (drop_suffix k body).isInfix
  exfalso
  have some_left : 0 < (body.drop k).length := by
    rw [length_drop]
    omega
  have place : (body.drop k).length < (rawClose hashes).length := Nat.lt_of_not_le long
  have quote := prefix_iff_getElem?.mp starts _ place
  rw [List.getElem?_append_right (Nat.le_refl _), Nat.sub_self, ← List.getElem?_eq_getElem] at quote
  obtain ⟨n, same⟩ := Nat.exists_eq_succ_of_ne_zero (Nat.ne_of_gt some_left)
  rw [same, rawClose, List.getElem?_cons_succ, List.getElem?_replicate] at quote
  split at quote <;> cases quote

/-! Token by token. -/

def Strips (w m rest : Chars) : Prop := stripNoise (w ++ rest) = (m ++ ·) <$> stripNoise rest

theorem Strips.append {w' m m' : Chars} (first : Strips w m (w' ++ rest))
    (second : Strips w' m' rest) : Strips (w ++ w') (m ++ m') rest := by
  rw [Strips, append_assoc, first, second, map_append_map]

theorem strips_nil (rest : Chars) : Strips [] [] rest := by
  rw [Strips, nil_append]
  cases stripNoise rest <;> rfl

theorem Letters.not_mark (letters : Letters) (h : letters.xid c = true) :
    c ≠ '"' ∧ c ≠ '/' ∧ c ≠ '#' := by
  refine ⟨?_, ?_, ?_⟩ <;>
  · rintro rfl
    rw [letters.ascii _ (by decide)] at h
    exact absurd h (by decide)

theorem strips_letters (letters : Letters) (all : ∀ c ∈ w, letters.xid c = true)
    (last : w.getLast? = some 'r' → rawBody rest = none) : Strips w w rest :=
  stripNoise_word (fun c member => letters.not_mark (all c member)) last

theorem xid_of_isWord (h : isWord letters w rest = true) :
    ∀ c ∈ w, letters.xid c = true := by
  rw [isWord, and_eq_true, all_eq_true] at h
  exact h.1

theorem xid_of_isName (h : isName letters w rest = true) :
    ∀ c ∈ w, letters.xid c = true := by
  rw [isName, and_eq_true, and_eq_true] at h
  exact xid_of_isWord h.1.1

theorem xid_of_isSuffix (h : isSuffix letters w rest = true) :
    ∀ c ∈ w, letters.xid c = true := by
  rw [isSuffix, or_eq_true, and_eq_true, List.isEmpty_iff] at h
  cases h with
  | inl isName => exact xid_of_isName isName
  | inr none =>
    rw [none.1]
    exact fun c member => absurd member List.not_mem_nil

theorem strips_letter {pre : Option Char} (h : isPrefixLetter pre = true) (rest : Chars) :
    Strips pre.toList pre.toList rest := by
  rw [isPrefixLetter, or_eq_true, or_eq_true, decide_eq_true_eq, decide_eq_true_eq,
    decide_eq_true_eq] at h
  obtain (rfl | rfl) | rfl := h
  · exact strips_nil rest
  · exact stripNoise_char ⟨by decide, nofun, nofun⟩
  · exact stripNoise_char ⟨by decide, nofun, nofun⟩

theorem strips_line (inLine : '\n' ∉ body)
    (ends : rest.head? = none ∨ rest.head? = some '\n') :
    Strips ('/' :: '/' :: body) (spaces (body.length + 2)) rest := by
  have length := @lineLength_line rest ('/' :: '/' :: body) (by simpa using inLine) ends
  refine stripNoise_step (n := body.length + 2) ?_ ?_
  · rw [stripStep, if_pos ⟨rfl, rfl⟩]
    exact congrArg (fun n => Except.ok (spaces n, n)) length
  · exact @drop_left _ ('/' :: '/' :: body) rest

theorem strips_block (h : closes 1 body = true) (rest : Chars) :
    Strips ('/' :: '*' :: body) (spaces (body.length + 2)) rest := by
  refine stripNoise_step (n := body.length + 2) ?_ ?_
  · rw [stripStep, if_neg (by simp), if_pos ⟨rfl, rfl⟩]
    exact congrArg (fun n => Except.ok (spaces (n + 2), n + 2)) (blockLength_closes h rest)
  · exact @drop_left _ ('/' :: '*' :: body) rest

theorem strips_str (h : escaped '"' body = true) (rest : Chars) :
    Strips ('"' :: (body ++ ['"'])) ('"' :: (spaces body.length ++ ['"'])) rest := by
  rw [Strips, cons_append, append_assoc, singleton_append]
  refine stripNoise_step (n := body.length + 2) ?_ ?_
  · rw [stripStep, if_neg nofun, if_neg nofun, if_neg nofun, if_pos rfl, strLength_escaped h]
    rfl
  · rw [drop_succ_cons, ← singleton_append, ← append_assoc]
    exact drop_left' (by simp)

theorem rawBody_open (hashes : Nat) (body : Chars) :
    rawBody (List.replicate hashes '#' ++ '"' :: body) = some body := by
  rw [rawBody, dropWhile_append_of_pos (by simp)]
  rfl

theorem rawHashes_open (hashes : Nat) (body : Chars) :
    rawHashes (List.replicate hashes '#' ++ '"' :: body) = hashes := by
  rw [rawHashes, takeWhile_append_of_pos (by simp)]
  simp

theorem strips_raw {hashes : Nat} (inside : ¬ rawClose hashes <:+: body)
    (rest : Chars) :
    Strips ('r' :: (List.replicate hashes '#' ++ '"' :: (body ++ rawClose hashes)))
      (spaces (body.length + 2 * hashes + 3)) rest := by
  refine stripNoise_step (n := body.length + 2 * hashes + 3) ?_ (drop_left' ?_)
  · have shape : List.append (List.replicate hashes '#' ++ '"' :: (body ++ rawClose hashes)) rest =
        List.replicate hashes '#' ++ '"' :: (body ++ (rawClose hashes ++ rest)) := by
      simp
    rw [stripStep, if_neg nofun, if_neg nofun, if_pos rfl, shape, rawBody_open, rawHashes_open]
    dsimp only
    rw [find_rawClose inside rest]
  · simp [rawClose]
    omega

theorem not_mark_of_isHex (h : (isHex c || c = '_') = true) :
    c ≠ '"' ∧ c ≠ '/' ∧ c ≠ '#' := by
  refine ⟨?_, ?_, ?_⟩ <;>
  · rintro rfl
    exact absurd h (by decide)

/-- Of the marks only a character that stands for itself may be one. -/
theorem CharBody.not_mark {body : CharBody} (valid : body.valid = true)
    (quote : '"' ∉ body.text) :
    (∃ c, body = .plain c) ∨ ∀ c ∈ body.text, c ≠ '"' ∧ c ≠ '/' ∧ c ≠ '#' := by
  cases body with
  | plain c => exact .inl ⟨c, rfl⟩
  | escape c =>
    right
    simp only [CharBody.text, mem_cons, not_or, not_mem_nil, or_false] at quote ⊢
    have notSlash : c ≠ '/' := fun same => absurd (same ▸ valid) (by decide)
    have notHash : c ≠ '#' := fun same => absurd (same ▸ valid) (by decide)
    rintro d (rfl | rfl)
    · decide
    · exact ⟨Ne.symm quote.2, notSlash, notHash⟩
  | hex a b =>
    right
    rw [CharBody.valid, and_eq_true] at valid
    simp only [CharBody.text, mem_cons, not_mem_nil, or_false]
    rintro d (rfl | rfl | rfl | rfl)
    · decide
    · decide
    · exact not_mark_of_isHex (by rw [valid.1, Bool.true_or])
    · exact not_mark_of_isHex (by rw [valid.2, Bool.true_or])
  | unicode digits =>
    right
    rw [CharBody.valid, all_eq_true] at valid
    simp only [CharBody.text, mem_cons, mem_append, not_mem_nil, or_false]
    rintro d (rfl | rfl | rfl | digit | rfl)
    · decide
    · decide
    · decide
    · exact not_mark_of_isHex (valid d digit)
    · decide

theorem strips_mark (quote : c ≠ '"') (slash : c ≠ '/') (letter : c ≠ 'r')
    (rest : Chars) : Strips [c] [c] rest :=
  stripNoise_char ⟨quote, fun isSlash => absurd isSlash slash, fun isR => absurd isR letter⟩

theorem strips_byteMark (byte : Bool) (rest : Chars) :
    Strips (byteMark byte) (byteMark byte) rest := by
  cases byte with
  | false => exact strips_nil rest
  | true => exact strips_mark (by decide) (by decide) (by decide) rest

theorem strips_rawMark {isRaw : Bool} (letter : c ≠ '"' ∧ c ≠ '/' ∧ c ≠ '#') :
    Strips (rawMark isRaw) (rawMark isRaw) (c :: rest) := by
  cases isRaw with
  | false => exact strips_nil _
  | true =>
    have noRaw : rawBody ('#' :: c :: rest) = none := by
      rw [rawBody, dropWhile_cons_of_pos (by decide)]
      exact rawBody_cons letter.2.2 letter.1
    have first : Strips ['r'] ['r'] (['#'] ++ c :: rest) :=
      stripNoise_char ⟨by decide, nofun, fun _ => noRaw⟩
    exact first.append (strips_mark (by decide) (by decide) (by decide) _)

theorem strips_charBody {body : CharBody} (valid : body.valid = true) (quote : '"' ∉ body.text)
    (rest : Chars) : Strips body.text body.text ('\'' :: rest) := by
  obtain ⟨c, rfl⟩ | marks := CharBody.not_mark valid quote
  · refine stripNoise_char ⟨fun isQuote => quote (isQuote ▸ mem_singleton_self _), ?_, ?_⟩
    · exact fun _ => ⟨by simp, by simp⟩
    · exact fun _ => rawBody_cons (by decide) (by decide)
  · exact stripNoise_word marks fun _ => rawBody_cons (by decide) (by decide)

theorem strips_chr {body : CharBody} (valid : body.valid = true) (quote : '"' ∉ body.text)
    (byte : Bool) (rest : Chars) :
    Strips (byteMark byte ++ '\'' :: (body.text ++ ['\'']))
      (byteMark byte ++ '\'' :: (body.text ++ ['\'']))
      rest := by
  have mark (rest : Chars) : Strips ['\''] ['\''] rest :=
    strips_mark (by decide) (by decide) (by decide) rest
  have shut := (strips_charBody valid quote rest).append (mark rest)
  exact (strips_byteMark byte _).append ((mark _).append shut)

/-- The word at the end consists of letters, and an identifier has one. -/
theorem Tok.word_letters {t : Tok}
    (valid : t.valid letters rest = true) : ∀ c ∈ t.word, letters.xid c = true := by
  cases t <;> simp only [Tok.valid, and_eq_true] at valid
  case str => exact xid_of_isSuffix valid.2
  case raw => exact xid_of_isSuffix valid.2
  case chr => exact xid_of_isSuffix valid.2
  case lifetime => exact xid_of_isName valid.1
  case ident => exact xid_of_isName valid.1.1.1
  case number => exact xid_of_isWord valid.1
  all_goals exact fun c member => absurd member not_mem_nil

theorem strips_rawMark_name {name : Chars} (isRaw : Bool)
    (h : isName letters name rest = true) :
    Strips (rawMark isRaw) (rawMark isRaw) (name ++ rest) := by
  have xid := xid_of_isName h
  cases name with
  | nil => simp [isName] at h
  | cons c name => exact strips_rawMark (letters.not_mark (xid c (.head _)))

/-- A token without a quote in a character literal is masked on its own, up to its word. -/
theorem Tok.stem_strips {t : Tok}
    (valid : t.valid letters rest = true) (noQuote : t.hasQuote = false) :
    Strips t.stem t.stemSeen (t.word ++ rest) := by
  cases t with
  | space c =>
    have white : isWhite c = true := valid
    refine strips_mark ?_ ?_ ?_ rest <;>
    · rintro rfl
      exact absurd white (by decide)
  | line body =>
    simp only [Tok.valid, and_eq_true, not_eq_true', or_eq_true, decide_eq_true_eq] at valid
    exact strips_line (by simpa using valid.1) valid.2
  | block body => exact strips_block valid rest
  | str pre body suffix =>
    simp only [Tok.valid, and_eq_true] at valid
    exact (strips_letter valid.1.1 _).append (strips_str valid.1.2 _)
  | raw pre hashes body suffix =>
    simp only [Tok.valid, and_eq_true, not_eq_true', ← Bool.not_eq_true,
      Text.contains_iff] at valid
    exact (strips_letter valid.1.1 _).append (strips_raw valid.1.2 _)
  | chr byte body suffix =>
    simp only [Tok.valid, and_eq_true] at valid
    exact strips_chr valid.1 (by simpa [Tok.hasQuote] using noQuote) byte _
  | lifetime isRaw name =>
    simp only [Tok.valid, and_eq_true] at valid
    exact Strips.append (strips_mark (by decide) (by decide) (by decide) _)
      (strips_rawMark_name isRaw valid.1)
  | ident isRaw name =>
    simp only [Tok.valid, and_eq_true] at valid
    exact strips_rawMark_name isRaw valid.1.1.1
  | number digits => exact strips_nil _
  | punct c =>
    simp only [Tok.valid, and_eq_true, or_eq_true, decide_eq_true_eq] at valid
    have mark (d : Char) (no : isPunct d = false) : c ≠ d := by
      rintro rfl
      exact absurd valid.1 (Bool.eq_false_iff.mp no)
    refine stripNoise_char ⟨mark _ (by decide), fun isSlash => ?_,
      fun isR => absurd isR (mark _ (by decide))⟩
    exact valid.2.resolve_left (not_not_intro isSlash)

theorem Strips.ne {m x y : Chars} (first : Strips w m (x ++ rest))
    (second : ∀ out, stripNoise (x ++ rest) ≠ .ok (y ++ out)) (out : Chars) :
    stripNoise (w ++ x ++ rest) ≠ .ok (m ++ y ++ out) := by
  rw [append_assoc, first]
  cases found : stripNoise (x ++ rest) with
  | error e => exact nofun
  | ok done =>
    intro same
    rw [append_assoc] at same
    exact second out (found.trans (congrArg Except.ok (append_cancel_left (Except.ok.inj same))))

theorem stripNoise_eq_ok {cs out : Chars} (h : stripNoise (c :: cs) = .ok out) :
    ∃ step later, stripStep c cs = .ok step ∧ out = step.1 ++ later := by
  rw [stripNoise, length_cons, stripFrom] at h
  obtain ⟨step, here, h⟩ := Exc.bind_eq_ok.mp h
  obtain ⟨later, -, h⟩ := Exc.bind_eq_ok.mp h
  exact ⟨step, later, here, (Except.ok.inj h).symm⟩

/-- The quote of a character literal begins a string, and what follows it is blanked. -/
theorem stripNoise_quote (rest out : Chars) :
    stripNoise ('"' :: '\'' :: rest) ≠ .ok ('"' :: '\'' :: out) := by
  intro h
  obtain ⟨step, later, here, same⟩ := stripNoise_eq_ok h
  rw [stripStep, if_neg nofun, if_neg nofun, if_neg nofun, if_pos rfl] at here
  obtain ⟨n, length, here⟩ := Exc.bind_eq_ok.mp here
  rw [← Except.ok.inj here] at same
  cases n with
  | zero =>
    -- the next character is no quote
    cases rest with
    | nil => simp [strLength] at length
    | cons d rest =>
      rw [strLength, if_neg (by decide), if_neg (by decide)] at length
      cases found : strLength (d :: rest) with
      | error e => rw [found] at length; cases length
      | ok m => rw [found] at length; cases length
  | succ n => simp [spaces, replicate_succ] at same

theorem stripNoise_rawStart (raw : rawBody rest ≠ none) (out : Chars) :
    stripNoise ('r' :: rest) ≠ .ok ('r' :: out) := by
  intro h
  obtain ⟨step, later, here, same⟩ := stripNoise_eq_ok h
  obtain ⟨body, isRaw⟩ := Option.ne_none_iff_exists'.mp raw
  rw [stripStep, if_neg nofun, if_neg nofun, if_pos rfl, isRaw] at here
  dsimp only at here
  split at here
  · cases here
  · rw [← Except.ok.inj here] at same
    simp [spaces, replicate_succ] at same

/-- A quote in the body is the whole of what the body stands for. -/
theorem CharBody.quote_last {body : CharBody} (valid : body.valid = true)
    (quote : '"' ∈ body.text) :
    ∃ pre, (pre = [] ∨ pre = ['\\']) ∧ body.text = pre ++ ['"'] := by
  cases body with
  | plain c => exact ⟨[], .inl rfl, by rw [mem_singleton.mp quote]; rfl⟩
  | escape c =>
    have isQuote : '"' = c := by simpa [CharBody.text] using quote
    exact ⟨['\\'], .inr rfl, by rw [isQuote]; rfl⟩
  | hex a b =>
    rw [CharBody.valid, and_eq_true] at valid
    simp only [CharBody.text, mem_cons, not_mem_nil, or_false] at quote
    obtain no | no | rfl | rfl := quote
    · exact absurd no (by decide)
    · exact absurd no (by decide)
    · exact absurd valid.1 (by decide)
    · exact absurd valid.2 (by decide)
  | unicode digits =>
    rw [CharBody.valid, all_eq_true] at valid
    simp only [CharBody.text, mem_cons, mem_append, not_mem_nil, or_false] at quote
    obtain no | no | no | digit | no := quote
    · exact absurd no (by decide)
    · exact absurd no (by decide)
    · exact absurd no (by decide)
    · exact absurd (valid _ digit) (by decide)
    · exact absurd no (by decide)

theorem Tok.hasQuote_ne {t : Tok}
    (valid : t.valid letters rest = true) (quote : t.hasQuote = true) (out : Chars) :
    stripNoise (t.text ++ rest) ≠ .ok (t.seen ++ out) := by
  cases t with
  | chr byte body suffix =>
    simp only [Tok.valid, and_eq_true] at valid
    have member : '"' ∈ body.text := by simpa [Tok.hasQuote] using quote
    obtain ⟨pre, few, same⟩ := CharBody.quote_last valid.1 member
    have mark (rest : Chars) : Strips ['\''] ['\''] rest :=
      strips_mark (by decide) (by decide) (by decide) rest
    have escape (rest : Chars) : Strips pre pre rest := by
      obtain rfl | rfl := few
      · exact strips_nil rest
      · exact strips_mark (by decide) (by decide) (by decide) rest
    have upTo := (strips_byteMark byte _).append
      ((mark _).append (escape ('"' :: '\'' :: suffix ++ rest)))
    have ne := upTo.ne (y := '"' :: '\'' :: suffix)
      (stripNoise_quote (suffix ++ rest) <| suffix ++ ·) out
    simpa only [Tok.text, Tok.seen, Tok.stem, Tok.stemSeen, Tok.stemBlank, Tok.word, same,
      append_assoc,
      cons_append, nil_append] using ne
  | _ => exact absurd quote Bool.false_ne_true

theorem word_ne (xid : ∀ c ∈ w, letters.xid c = true)
    (last : w.getLast? = some 'r') (raw : rawBody rest ≠ none) (out : Chars) :
    stripNoise (w ++ rest) ≠ .ok (w ++ out) := by
  obtain ⟨init, rfl⟩ := List.getLast?_eq_some_iff.mp last
  have upTo : Strips init init (['r'] ++ rest) :=
    strips_letters letters (fun c member => xid c (mem_append_left _ member))
      fun _ => rawBody_cons (by decide) (by decide)
  exact upTo.ne (y := ['r']) (stripNoise_rawStart raw) out

theorem Tok.not_read_ne {t : Tok}
    (valid : t.valid letters rest = true) (notRead : t.read rest = false) (out : Chars) :
    stripNoise (t.text ++ rest) ≠ .ok (t.seen ++ out) := by
  cases quote : t.hasQuote with
  | true => exact Tok.hasQuote_ne valid quote out
  | false =>
    simp only [Tok.read, quote, Bool.not_false, Bool.true_and, Bool.or_eq_false_iff,
      decide_eq_false_iff_not, not_not, Option.isNone_eq_false_iff, Option.isSome_iff_ne_none]
      at notRead
    exact (Tok.stem_strips valid quote).ne (word_ne (Tok.word_letters valid) notRead.1 notRead.2)
      out

theorem Tok.strips {t : Tok} (valid : t.valid letters rest = true)
    (read : t.read rest = true) : Strips t.text t.seen rest := by
  simp only [Tok.read, and_eq_true, not_eq_true', or_eq_true, decide_eq_true_eq,
    Option.isNone_iff_eq_none] at read
  exact (Tok.stem_strips valid read.1).append
    (strips_letters letters (Tok.word_letters valid) (read.2.resolve_left ∘ not_not_intro))

/-- The letter in front of a raw string stays. -/
theorem Tok.lettered_ne {t : Tok} (valid : t.valid letters rest = true)
    (lettered : t.lettered = true)
    (out : Chars) : stripNoise (t.text ++ rest) ≠ .ok (t.blank ++ out) := by
  cases t with
  | raw pre hashes body suffix =>
    simp only [Tok.valid, and_eq_true] at valid
    obtain ⟨c, rfl⟩ := Option.isSome_iff_exists.mp lettered
    have letter (rest : Chars) : Strips [c] [c] rest := strips_letter valid.1.1 rest
    have other : c ≠ ' ' := fun same => absurd (same ▸ valid.1.1) (by decide)
    have shape : (Tok.raw (some c) hashes body suffix).text ++ rest =
        [c] ++ ('r' :: (List.replicate hashes '#' ++ '"' :: (body ++ rawClose hashes)) ++
          suffix ++ rest) := by
      simp [Tok.text, Tok.stem, Tok.word]
    rw [shape, letter]
    cases stripNoise _ with
    | error e => exact nofun
    | ok m =>
      intro same
      refine other (List.cons.inj (Except.ok.inj same)).1
  | _ => cases lettered

/-- What the scan leaves of a source that it reads as Rust does. -/
theorem stripNoise_read {ts : List Tok} (source : isSource letters ts = true)
    (read : isRead ts = true) : stripNoise (sourceText ts) = .ok (sourceSeen ts) := by
  induction ts with
  | nil => rfl
  | cons t ts ih =>
    rw [isSource, and_eq_true] at source
    rw [isRead, and_eq_true] at read
    change stripNoise (t.text ++ sourceText ts) = .ok (t.seen ++ sourceSeen ts)
    rw [Tok.strips source.1 read.1, ih source.2 read.2]
    rfl

theorem Tok.seen_eq {t : Tok} (noLetter : t.lettered = false) : t.seen = t.blank := by
  cases t with
  | raw pre hashes body suffix =>
    obtain rfl : pre = none :=
      Option.isSome_eq_false_iff.mp noLetter |> Option.isNone_iff_eq_none.mp
    simp [Tok.seen, Tok.blank, Tok.stemSeen, Tok.stemBlank]
  | _ => rfl

/-- The mask is the lexical one for exactly the plain sources. -/
theorem stripNoise_eq_iff {ts : List Tok} (source : isSource letters ts = true) :
    stripNoise (sourceText ts) = .ok (sourceMask ts) ↔ isPlain ts = true := by
  induction ts with
  | nil => exact iff_of_true rfl rfl
  | cons t ts ih =>
    rw [isSource, and_eq_true] at source
    have split : isPlain (t :: ts) = ((t.read (sourceText ts) && !t.lettered) && isPlain ts) := by
      simp only [isPlain, isRead, all_cons]
      ac_rfl
    rw [split, and_eq_true, and_eq_true, ← ih source.2]
    change stripNoise (t.text ++ sourceText ts) = .ok (t.blank ++ sourceMask ts) ↔ _
    cases lettered : t.lettered with
    | true => exact iff_of_false (Tok.lettered_ne source.1 lettered _) fun both => nomatch both.1.2
    | false =>
      rw [← Tok.seen_eq lettered]
      cases read : t.read (sourceText ts) with
      | false => exact iff_of_false (Tok.not_read_ne source.1 read _) fun both => nomatch both.1.1
      | true =>
        rw [Tok.strips source.1 read]
        cases stripNoise (sourceText ts) with
        | error e => exact iff_of_false nofun fun both => nomatch both.2
        | ok m =>
          refine ⟨fun same => ⟨⟨rfl, rfl⟩, congrArg _ (append_cancel_left (Except.ok.inj same))⟩,
            ?_⟩
          exact fun both => congrArg (fun m => Except.ok (t.seen ++ m)) (Except.ok.inj both.2)

end BpfEquiv.Tags
