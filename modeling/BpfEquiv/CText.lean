import BpfEquiv.Text

/-!
C source as characters of code, literals and comments, and the text in which literals and
comments are blanked.

A backslash at the end of a line joins it to the next one. Here it may stand between tokens and
in literals; a line comment is not continued by one, and no token is cut by one.
-/
namespace BpfEquiv.Affected

open List Bool

abbrev Chars := List Char

def spaces (n : Nat) : Chars := List.replicate n ' '

def find (part : Chars) : Chars → Option Nat
  | [] => if part.isEmpty then some 0 else none
  | c :: cs => if part.isPrefixOf (c :: cs) then some 0 else (find part cs).map (· + 1)

/-- How far the scan for the closing quote gets; an escape at the end of the text goes past it. -/
def litLength (quote : Char) : Chars → Nat
  | [] => 0
  | [c] => if c = quote then 0 else if c = '\\' then 2 else 1
  | c :: d :: cs =>
    if c = quote then 0
    else if c = '\\' then litLength quote cs + 2
    else litLength quote (d :: cs) + 1

def keepLines (s : Chars) : Chars := s.map fun c => if c = '\n' then '\n' else ' '

def lineLength (text : Chars) : Nat := (text.takeWhile (· ≠ '\n')).length

def blockLength (text : Chars) : Nat :=
  match find ['*', '/'] (text.drop 2) with
  | none => text.length
  | some i => i + 4

def blankLit (quote : Char) (length : Nat) : Chars :=
  if length ≥ 2 then quote :: (spaces (length - 2) ++ [quote]) else spaces length

/-- What becomes of the text at one position, and of how much of it. -/
def blankStep (c : Char) (cs : Chars) : Chars × Nat :=
  if ['/', '/'].isPrefixOf (c :: cs) then (spaces (lineLength (c :: cs)), lineLength (c :: cs))
  else if ['/', '*'].isPrefixOf (c :: cs) then
    (keepLines ((c :: cs).take (blockLength (c :: cs))), blockLength (c :: cs))
  else if c = '"' ∨ c = '\'' then
    let length := min (litLength c cs + 2) (c :: cs).length
    (blankLit c length, length)
  else ([c], 1)

def blankFrom : Nat → Chars → Chars
  | fuel + 1, c :: cs =>
    let (out, length) := blankStep c cs
    out ++ blankFrom fuel ((c :: cs).drop length)
  | _, _ => []

/-- The text with comments and literals blanked. -/
def blankNoncode (text : Chars) : Chars := blankFrom text.length text

/-! The lexical structure. -/

inductive Piece where
  | code (c : Char)
  | lit (quote : Char) (body : Chars)
  | line (body : Chars)
  | block (body : Chars)
  deriving DecidableEq

namespace Piece

def text : Piece → Chars
  | code c => [c]
  | lit quote body => quote :: (body ++ [quote])
  | line body => '/' :: '/' :: body
  | block body => '/' :: '*' :: (body ++ ['*', '/'])

def blank : Piece → Chars
  | code c => [c]
  | lit quote body => quote :: (spaces body.length ++ [quote])
  | line body => spaces (body.length + 2)
  | block body => keepLines ('/' :: '*' :: (body ++ ['*', '/']))

end Piece

def escaped (quote : Char) : Chars → Bool
  | [] => true
  | [c] => c ≠ '\\' && c ≠ quote
  | c :: d :: cs => if c = '\\' then escaped quote cs else c ≠ quote && escaped quote (d :: cs)

def Piece.valid : Piece → Bool
  | .code c => c ≠ '"' && c ≠ '\''
  | .lit quote body => (quote = '"' || quote = '\'') && escaped quote body
  | .line body => !body.contains '\n' && body.getLast? ≠ some '\\'
  | .block body => !Text.contains ['*', '/'] body

def sourceText (ps : List Piece) : Chars := ps.flatMap Piece.text

def sourceCode (ps : List Piece) : Chars := ps.flatMap Piece.blank

/-- What may follow a piece so that it ends there: a slash begins no comment, and a line comment
ends with its line. -/
def Piece.mayPrecede (p : Piece) (rest : Chars) : Bool :=
  match p with
  | .code c => c ≠ '/' || (rest.head? ≠ some '/' && rest.head? ≠ some '*')
  | .line _ => rest.head? = none || rest.head? = some '\n'
  | _ => true

/-- Lexically valid source. -/
def isSource : List Piece → Bool
  | [] => true
  | p :: ps => p.valid && p.mayPrecede (sourceText ps) && isSource ps

/-! Blanking follows the structure. -/

theorem find_append_self {part body : Chars} (rest : Chars)
    (first : ∀ k < body.length, ¬ part <+: (body ++ (part ++ rest)).drop k) :
    find part (body ++ (part ++ rest)) = some body.length := by
  induction body with
  | nil =>
    rw [nil_append, length_nil]
    cases whole : part ++ rest with
    | nil =>
      rw [(append_eq_nil_iff.mp whole).1]
      rfl
    | cons c cs =>
      rw [find, if_pos]
      exact isPrefixOf_iff_prefix.mpr (whole ▸ prefix_append part rest)
  | cons c body ih =>
    have here : ¬ part.isPrefixOf (c :: (body ++ (part ++ rest))) = true := fun starts =>
      first 0 (Nat.succ_pos _) (List.isPrefixOf_iff_prefix.mp starts)
    rw [cons_append, find, if_neg here, ih fun k lt => first (k + 1) (Nat.succ_lt_succ lt)]
    rfl

/-- A comment that does not contain its end mark ends at the first one. -/
theorem find_close {body : Chars} (open' : ¬ ['*', '/'] <:+: body) (rest : Chars) :
    find ['*', '/'] (body ++ (['*', '/'] ++ rest)) = some body.length := by
  refine find_append_self rest fun k lt starts => open' ?_
  rw [drop_append_of_le_length (Nat.le_of_lt lt)] at starts
  cases tail : body.drop k with
  | nil =>
    have length := drop_eq_nil_iff.mp tail
    omega
  | cons a tail' =>
    cases tail' with
    | nil =>
      -- The last character of the comment and the star do not make the mark.
      rw [tail] at starts
      have second := (cons_prefix_cons.mp (cons_prefix_cons.mp starts).2).1
      exact absurd second (by decide)
    | cons b tail' =>
      rw [tail] at starts
      obtain ⟨isStar, starts⟩ := cons_prefix_cons.mp starts
      obtain ⟨isSlash, _⟩ := cons_prefix_cons.mp starts
      have inside : ['*', '/'] <:+: body.drop k := by
        rw [tail, ← isStar, ← isSlash]
        exact ⟨[], tail', rfl⟩
      exact inside.trans (drop_suffix k body).isInfix

theorem litLength_escaped {quote : Char} (notEscape : quote ≠ '\\') {body : Chars}
    (h : escaped quote body = true) (rest : Chars) :
    litLength quote (body ++ quote :: rest) = body.length := by
  have atQuote : litLength quote (quote :: rest) = 0 := by
    cases rest <;> rw [litLength, if_pos rfl]
  induction body using escaped.induct with
  | case1 => exact atQuote
  | case2 c =>
    rw [escaped, and_eq_true] at h
    rw [singleton_append, litLength, if_neg (of_decide_eq_true h.2),
      if_neg (of_decide_eq_true h.1), atQuote]
    rfl
  | case3 d cs ih =>
    rw [escaped, if_pos rfl] at h
    rw [cons_append, cons_append, litLength, if_neg notEscape.symm, if_pos rfl, ih h]
    rfl
  | case4 c d cs notBackslash ih =>
    rw [escaped, if_neg notBackslash, and_eq_true] at h
    rw [cons_append, cons_append, litLength, if_neg (of_decide_eq_true h.1),
      if_neg notBackslash, ← cons_append, ih h.2]
    rfl

theorem blankStep_piece {p : Piece} {rest : Chars} (valid : p.valid = true)
    (follow : p.mayPrecede rest = true) :
    ∃ c cs, p.text = c :: cs ∧ blankStep c (cs ++ rest) = (p.blank, p.text.length) := by
  cases p with
  | code c =>
    refine ⟨c, [], rfl, ?_⟩
    rw [Piece.valid, and_eq_true] at valid
    have noQuote : ¬ (c = '"' ∨ c = '\'') :=
      not_or.mpr ⟨of_decide_eq_true valid.1, of_decide_eq_true valid.2⟩
    have noComment (d : Char) (isMark : d = '/' ∨ d = '*') :
        ¬ ['/', d].isPrefixOf (c :: rest) = true := by
      intro starts
      obtain ⟨isSlash, starts⟩ := cons_prefix_cons.mp (List.isPrefixOf_iff_prefix.mp starts)
      cases rest with
      | nil => exact absurd (prefix_nil.mp starts) (cons_ne_nil d [])
      | cons e rest =>
        obtain ⟨isD, _⟩ := cons_prefix_cons.mp starts
        subst isSlash isD
        rcases isMark with rfl | rfl <;> simp [Piece.mayPrecede] at follow
    rw [blankStep, nil_append, if_neg (noComment '/' (.inl rfl)),
      if_neg (noComment '*' (.inr rfl)), if_neg noQuote]
    rfl
  | lit quote body =>
    refine ⟨quote, body ++ [quote], rfl, ?_⟩
    rw [Piece.valid, and_eq_true, or_eq_true] at valid
    have isQuote : quote = '"' ∨ quote = '\'' :=
      valid.1.imp of_decide_eq_true of_decide_eq_true
    have notEscape : quote ≠ '\\' := by
      rcases isQuote with rfl | rfl <;> decide
    have noComment (d : Char) :
        ¬ ['/', d].isPrefixOf (quote :: ((body ++ [quote]) ++ rest)) = true := by
      intro starts
      have isSlash := (cons_prefix_cons.mp (List.isPrefixOf_iff_prefix.mp starts)).1
      rcases isQuote with rfl | rfl <;> cases isSlash
    have length : min (litLength quote ((body ++ [quote]) ++ rest) + 2)
        (quote :: ((body ++ [quote]) ++ rest)).length = body.length + 2 := by
      rw [append_assoc, singleton_append, litLength_escaped notEscape valid.2]
      simp only [length_cons, length_append]
      omega
    rw [blankStep, if_neg (noComment '/'), if_neg (noComment '*'), if_pos isQuote]
    simp only [length]
    rw [blankLit, if_pos (Nat.le_add_left 2 _), Nat.add_sub_cancel]
    simp [Piece.blank, Piece.text]
  | line body =>
    refine ⟨'/', '/' :: body, rfl, ?_⟩
    rw [Piece.valid, and_eq_true] at valid
    have inLine : ∀ c ∈ '/' :: '/' :: body, decide (c ≠ '\n') = true := by
      intro c member
      refine decide_eq_true fun isNewline => ?_
      subst isNewline
      simp_all
    have length : lineLength ('/' :: '/' :: (body ++ rest)) = body.length + 2 := by
      rw [lineLength, ← cons_append, ← cons_append, takeWhile_append_of_pos inLine]
      cases rest with
      | nil => simp
      | cons d rest =>
        have isNewline : d = '\n' := by simpa [Piece.mayPrecede] using follow
        simp [isNewline]
    rw [blankStep, if_pos (by simp), cons_append, length]
    rfl
  | block body =>
    refine ⟨'/', '*' :: (body ++ ['*', '/']), rfl, ?_⟩
    have closed : ¬ ['*', '/'] <:+: body := by
      rw [← Text.contains_iff]
      simpa [Piece.valid] using valid
    have length : blockLength ('/' :: '*' :: ((body ++ ['*', '/']) ++ rest)) = body.length + 4 := by
      rw [blockLength, append_assoc]
      change (match find ['*', '/'] (body ++ (['*', '/'] ++ rest)) with
        | none => _
        | some i => i + 4) = _
      rw [find_close closed]
    have taken : ('/' :: '*' :: ((body ++ ['*', '/']) ++ rest)).take (body.length + 4) =
        '/' :: '*' :: (body ++ ['*', '/']) := by
      rw [← cons_append, ← cons_append]
      exact take_left' (by simp)
    rw [blankStep, if_neg (by simp), if_pos (by simp), cons_append, length, taken, Piece.blank,
      Piece.text]
    simp

theorem blankNoncode_sourceText {ps : List Piece} (source : isSource ps = true) :
    blankNoncode (sourceText ps) = sourceCode ps := by
  have run (fuel : Nat) (enough : (sourceText ps).length ≤ fuel) :
      blankFrom fuel (sourceText ps) = sourceCode ps := by
    induction ps generalizing fuel with
    | nil => cases fuel <;> rfl
    | cons p ps ih =>
      rw [isSource, and_eq_true, and_eq_true] at source
      obtain ⟨⟨valid, follow⟩, source⟩ := source
      obtain ⟨c, cs, text, step⟩ := blankStep_piece valid follow
      have split : sourceText (p :: ps) = c :: (cs ++ sourceText ps) := by
        rw [sourceText, flatMap_cons, text]
        rfl
      rw [split] at enough ⊢
      cases fuel with
      | zero => cases enough
      | succ fuel =>
        rw [blankFrom, step]
        have rest : (c :: (cs ++ sourceText ps)).drop p.text.length = sourceText ps := by
          rw [← cons_append, ← text, drop_left]
        simp only [rest]
        rw [ih source fuel (by simp at enough; omega)]
        rfl
  exact run _ (Nat.le_refl _)

theorem Piece.blank_length (p : Piece) : p.blank.length = p.text.length := by
  cases p <;> simp [blank, text, spaces, keepLines]

theorem sourceCode_length (ps : List Piece) : (sourceCode ps).length = (sourceText ps).length := by
  induction ps with
  | nil => rfl
  | cons p ps ih =>
    rw [sourceCode, sourceText, flatMap_cons, flatMap_cons, length_append,
      length_append, p.blank_length]
    exact congrArg (p.text.length + ·) ih

end BpfEquiv.Affected
