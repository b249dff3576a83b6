import BpfEquiv.RustText
import BpfEquiv.Subst

/-!
The body of a macro declaration, cut out of the source beside its mask.

The scan knows the characters of the mask and counts brackets of the kind that opens the body.
The tokens say which text is a declaration and where its token tree ends.
-/
namespace BpfEquiv.Tags
open List

open Affected (Chars spaces)
open Subst (Classes)

/-- The text beside its mask. -/
abbrev Masked := List (Char × Char)

def dropSpaces (s : Masked) : Masked := s.dropWhile fun p => Text.isSpace p.2

def afterBang (s : Masked) : Option Masked :=
  match dropSpaces s with
  | [] => none
  | p :: later => if p.2 = '!' then some later else none

/-- What follows the name, space and the exclamation mark. -/
def matchAt (name : Chars) (s : Masked) : Option Masked :=
  if name.isPrefixOf (s.map Prod.snd) then afterBang (s.drop name.length) else none

/-- What follows each match that begins at a word boundary; matches do not overlap. -/
def hits (classes : Classes) (name : Chars) : Bool → Masked → List Masked
  | _, [] => []
  | inWord, p :: s =>
    (if inWord then [] else (matchAt name (p :: s)).toList) ++
      hits classes name (classes.word p.2) s

inductive Bracket where
  | round
  | curly
  | square
  deriving DecidableEq

def Bracket.opener : Bracket → Char
  | round => '('
  | curly => '\x7b'
  | square => '['

def Bracket.closer : Bracket → Char
  | round => ')'
  | curly => '\x7d'
  | square => ']'

def Bracket.all : List Bracket := [.round, .curly, .square]

def Bracket.opened (c : Char) : Option Bracket := all.find? (·.opener = c)

def Bracket.closed (c : Char) : Option Bracket := all.find? (·.closer = c)

/-- What stands in front of the bracket that closes the open one. -/
def cut (b : Bracket) : Nat → Masked → Option Masked
  | _, [] => none
  | depth, p :: s =>
    if p.2 = b.opener then (p :: ·) <$> cut b (depth + 1) s
    else if p.2 = b.closer then
      if depth = 0 then some [] else (p :: ·) <$> cut b (depth - 1) s
    else (p :: ·) <$> cut b depth s

section
variable (path name : String)

def noDelimiter : Fail := .tag s!"{path}: {name}! is not followed by a delimiter"

def unterminated : Fail := .tag s!"{path}: unterminated {name}! body"

def several : Fail := .tag s!"{path}: more than one {name}! declaration"

/-- The body from the delimiter on. -/
def bodyFrom (s : Masked) : Except Fail (Option (Chars × Chars)) :=
  match dropSpaces s with
  | [] => .error (noDelimiter path name)
  | p :: later =>
    match Bracket.opened p.2 with
    | none => .error (noDelimiter path name)
    | some b =>
      match cut b 0 later with
      | none => .error (unterminated path name)
      | some body => .ok (some (body.map Prod.fst, body.map Prod.snd))

/-- The body of the one declaration in the source and its mask. -/
def macroBody (classes : Classes) (src mask : Chars) : Except Fail (Option (Chars × Chars)) :=
  match hits classes name.toList false (src.zip mask) with
  | [] => .ok none
  | [s] => bodyFrom path name s
  | _ => .error (several path name)

end

/-- The declarations that are read this way. -/
def macros : List String := ["test_tags", "arg_tags", "btf_type_tags"]

/-- The source is masked first. -/
def declaration (classes : Classes) (path name : String) (src : Chars) :
    Except Fail (Option (Chars × Chars)) := do
  let mask ← stripNoise src
  macroBody path name classes src mask

/-! Declarations in the tokens. -/

def Tok.isGap : Tok → Bool
  | .space _ | .line _ | .block _ => true
  | _ => false

/-- What follows an exclamation mark, if one comes behind some tokens that are skipped. -/
def bang (skip : Tok → Bool) (ts : List Tok) : Option (List Tok) :=
  match ts.dropWhile skip with
  | [] => none
  | t :: us => if t = .punct '!' then some us else none

def Tok.isIdent (name : Chars) : Tok → Bool
  | .ident _ n => n = name
  | _ => false

/-- What follows each mention of the name with an exclamation mark. -/
def mentions (name : Chars) : List Tok → List (List Tok)
  | [] => []
  | t :: ts => (if t.isIdent name then (bang Tok.isGap ts).toList else []) ++ mentions name ts

def Tok.opened : Tok → Option Bracket
  | .punct c => Bracket.opened c
  | _ => none

def Tok.closed : Tok → Option Bracket
  | .punct c => Bracket.closed c
  | _ => none

/-- The inside of the token tree whose delimiter is the last of the open ones. -/
def tree : List Bracket → List Tok → Option (List Tok)
  | _, [] => none
  | opens, t :: ts =>
    match t.opened, t.closed with
    | some b, _ => (t :: ·) <$> tree (b :: opens) ts
    | none, none => (t :: ·) <$> tree opens ts
    | none, some b =>
      match opens with
      | [] => none
      | [top] => if top = b then some [] else none
      | top :: next :: below => if top = b then (t :: ·) <$> tree (next :: below) ts else none

section
variable (path name : String)

/-- The token tree behind a mention: its text, and what the scan leaves of it. -/
def treeFrom (ts : List Tok) : Except Fail (Option (Chars × Chars)) :=
  match ts.dropWhile Tok.isGap with
  | [] => .error (noDelimiter path name)
  | t :: us =>
    match t.opened with
    | none => .error (noDelimiter path name)
    | some b =>
      match tree [b] us with
      | none => .error (unterminated path name)
      | some inner => .ok (some (sourceText inner, sourceSeen inner))

def declared (ts : List Tok) : Except Fail (Option (Chars × Chars)) :=
  match mentions name.toList ts with
  | [] => .ok none
  | [us] => treeFrom path name us
  | _ => .error (several path name)

end

/-! What the scan takes for a declaration. -/

/-- Of a raw string the scan sees nothing. -/
def Tok.isBlank : Tok → Bool
  | .raw none _ _ suffix => suffix.isEmpty
  | t => t.isGap

/-- Every word counts, also a lifetime or a suffix. -/
def seenMentions (name : Chars) : List Tok → List (List Tok)
  | [] => []
  | t :: ts => (if t.word = name then (bang Tok.isBlank ts).toList else []) ++ seenMentions name ts

/-- A bracket, also in a character literal. -/
def Tok.counts (c : Char) : Tok → Bool
  | .punct d | .chr _ (.plain d) _ => d = c
  | _ => false

/-- The depth after some tokens, unless the count falls below zero. -/
def walk (b : Bracket) : Nat → List Tok → Option Nat
  | depth, [] => some depth
  | depth, t :: ts =>
    if t.counts b.opener then walk b (depth + 1) ts
    else if t.counts b.closer then
      if depth = 0 then none else walk b (depth - 1) ts
    else walk b depth ts

/-- Counting brackets finds the end of the token tree, or none where there is none. -/
def clearBody (us : List Tok) : Bool :=
  match us.dropWhile Tok.isBlank with
  | [] => true
  | t :: vs =>
    match t.opened with
    | none => true
    | some b => us.dropWhile Tok.isGap = t :: vs &&
      match tree [b] vs with
      | some inner => walk b 0 inner = some 0
      | none => (walk b 0 vs).isSome

/-- The scan sees the declaration, and no other text as one. -/
def isClear (name : Chars) (ts : List Tok) : Bool :=
  match mentions name ts with
  | [] => (seenMentions name ts).isEmpty
  | [us] => (seenMentions name ts).length = 1 && clearBody us
  | _ => true

/-- Python takes the letters of the token for letters and its white space for white space. -/
def Tok.isKnown (classes : Classes) (t : Tok) : Bool :=
  (t.word.all fun c => classes.word c && !Text.isSpace c) &&
    match t with
    | .space c => Text.isSpace c && !classes.word c
    | _ => true

def isKnown (classes : Classes) (ts : List Tok) : Bool := ts.all (Tok.isKnown classes)

/-! The mask token by token. -/

def Tok.masked (t : Tok) : Masked := t.stem.zip t.stemSeen ++ t.word.zip t.word

def sourceMasked (ts : List Tok) : Masked := ts.flatMap Tok.masked

theorem Tok.masked_eq (t : Tok) : t.text.zip t.seen = t.masked :=
  zip_append t.stemSeen_length.symm

theorem sourceMasked_eq (ts : List Tok) :
    (sourceText ts).zip (sourceSeen ts) = sourceMasked ts := by
  induction ts with
  | nil => rfl
  | cons t ts ih =>
    change (t.text ++ sourceText ts).zip (t.seen ++ sourceSeen ts) = t.masked ++ sourceMasked ts
    rw [zip_append t.seen_length.symm, t.masked_eq, ih]

theorem sourceMasked_cons (t : Tok) (ts : List Tok) :
    sourceMasked (t :: ts) = t.stem.zip t.stemSeen ++ (t.word.zip t.word ++ sourceMasked ts) := by
  rw [sourceMasked, flatMap_cons, Tok.masked, append_assoc]
  rfl

theorem sourceMasked_fst (ts : List Tok) : (sourceMasked ts).map Prod.fst = sourceText ts := by
  rw [← sourceMasked_eq, map_fst_zip (Nat.le_of_eq (sourceSeen_length ts).symm)]

theorem sourceMasked_snd (ts : List Tok) : (sourceMasked ts).map Prod.snd = sourceSeen ts := by
  rw [← sourceMasked_eq, map_snd_zip (Nat.le_of_eq (sourceSeen_length ts))]

/-! Matches of the pattern. -/

theorem not_word (classes : Classes) {c : Char} (small : c.toNat < 128)
    (mark : (c.isAlphanum || c = '_') = false) : classes.word c = false :=
  (classes.ascii c small).2.trans mark

structure IsName (classes : Classes) (name : Chars) : Prop where
  long : 2 ≤ name.length
  letters : ∀ c ∈ name, classes.word c = true

/-- A part of the mask in a word. -/
def InWord (classes : Classes) (s : Masked) : Prop :=
  ∀ p ∈ s, classes.word p.2 = true ∧ Text.isSpace p.2 = false

/-- No word goes on here. -/
def Ends (classes : Classes) (s : Masked) : Prop :=
  ∀ p, s.head? = some p → classes.word p.2 = false

theorem ends_cons {classes : Classes} {p : Char × Char} (mark : classes.word p.2 = false)
    (s : Masked) : Ends classes (p :: s) :=
  fun _ same => Option.some.inj same ▸ mark

variable {s run : Masked} {w m rest : Chars} {d : Char} {ts us : List Tok}

section
variable {classes : Classes} {name : Chars} (isName : IsName classes name)
include isName

theorem IsName.cons :
    ∃ a b rest, name = a :: b :: rest ∧ classes.word a = true ∧ classes.word b = true := by
  have long := isName.long
  match name, isName with
  | a :: b :: rest, isName =>
    exact ⟨a, b, rest, rfl, isName.letters a (by simp), isName.letters b (by simp)⟩

theorem matchAt_mark {p : Char × Char} (s : Masked) (mark : classes.word p.2 = false) :
    matchAt name (p :: s) = none := by
  obtain ⟨a, b, rest, rfl, first, -⟩ := isName.cons
  have differ : a ≠ p.2 := fun same => absurd (same ▸ first) (Bool.eq_false_iff.mp mark)
  rw [matchAt, map_cons, isPrefixOf_cons_cons, beq_eq_false_iff_ne.mpr differ]
  rfl

theorem matchAt_single (p : Char × Char) (ends : Ends classes s) :
    matchAt name (p :: s) = none := by
  obtain ⟨a, b, rest, rfl, -, second⟩ := isName.cons
  rw [matchAt, map_cons, isPrefixOf_cons_cons]
  cases s with
  | nil => simp
  | cons q s =>
    have differ : b ≠ q.2 := fun same =>
      absurd (same ▸ second) (Bool.eq_false_iff.mp (ends q rfl))
    rw [map_cons, isPrefixOf_cons_cons, beq_eq_false_iff_ne.mpr differ, Bool.false_and,
      Bool.and_false]
    rfl

theorem hits_mark {p : Char × Char} (inWord : Bool) (s : Masked) (mark : classes.word p.2 = false) :
    hits classes name inWord (p :: s) = hits classes name false s := by
  rw [hits, matchAt_mark isName s mark, mark]
  cases inWord <;> rfl

theorem hits_single (p : Char × Char) (inWord : Bool) (ends : Ends classes s) :
    hits classes name inWord (p :: s) = hits classes name (classes.word p.2) s := by
  rw [hits, matchAt_single isName p ends]
  cases inWord <;> rfl

theorem hits_marks (marks : ∀ c ∈ m, classes.word c = false) (s : Masked) :
    hits classes name false (w.zip m ++ s) = hits classes name false s := by
  induction w generalizing m with
  | nil => rfl
  | cons c w ih =>
    cases m with
    | nil => rfl
    | cons d m =>
      rw [zip_cons_cons, cons_append, hits_mark isName _ _ (marks d mem_cons_self)]
      exact ih fun c member => marks c (.tail _ member)

omit isName in
theorem hits_inWord (word : InWord classes run) (s : Masked) :
    hits classes name true (run ++ s) = hits classes name true s := by
  induction run with
  | nil => rfl
  | cons p run ih =>
    rw [cons_append, hits, if_pos rfl, (word p mem_cons_self).1]
    exact ih fun q member => word q (.tail _ member)

omit isName in
theorem afterBang_inWord {p : Char × Char} (word : classes.word p.2 = true)
    (noSpace : Text.isSpace p.2 = false) : afterBang (p :: s) = none := by
  have noBang : p.2 ≠ '!' := fun same =>
    absurd (same ▸ word) (Bool.eq_false_iff.mp (not_word classes (by decide) (by decide)))
  rw [afterBang, dropSpaces, dropWhile_cons_of_neg (by simp [noSpace])]
  exact if_neg noBang

theorem matchAt_run (word : InWord classes run) (ends : Ends classes s) :
    matchAt name (run ++ s) = if run.map Prod.snd = name then afterBang s else none := by
  rw [matchAt, map_append]
  by_cases same : run.map Prod.snd = name
  · have length : run.length = name.length := by rw [← same, length_map]
    rw [if_pos same, if_pos (by rw [List.isPrefixOf_iff_prefix, ← same]; exact prefix_append _ _),
      ← length, drop_left]
  rw [if_neg same]
  split
  · rename_i starts
    rw [List.isPrefixOf_iff_prefix] at starts
    rcases Nat.lt_or_ge run.length name.length with short | long
    · -- the name goes on where the word has ended
      exfalso
      have there := prefix_iff_getElem?.mp starts run.length short
      rw [List.getElem?_append_right (by simp), length_map, Nat.sub_self] at there
      cases s with
      | nil => cases there
      | cons q s =>
        have letter := isName.letters _ (getElem_mem short)
        rw [← Option.some.inj there, ends q rfl] at letter
        cases letter
    · -- the word goes on where the name has ended
      have inside : name <+: run.map Prod.snd :=
        prefix_of_prefix_length_le starts (prefix_append _ _) (by simpa using long)
      have longer : name.length < run.length := by
        refine Nat.lt_of_le_of_ne long fun equal => same ?_
        exact (inside.eq_of_length (by simpa using equal)).symm
      rw [drop_append_of_le_length long, drop_eq_getElem_cons longer, cons_append]
      have letter := word _ (getElem_mem longer)
      exact afterBang_inWord letter.1 letter.2
  · rfl

theorem hits_run (word : InWord classes run) (some_left : run ≠ [])
    (ends : Ends classes s) :
    hits classes name false (run ++ s) =
      (if run.map Prod.snd = name then (afterBang s).toList else []) ++
        hits classes name true s := by
  have here := matchAt_run isName word ends
  cases run with
  | nil => exact absurd rfl some_left
  | cons p run =>
    rw [cons_append] at here ⊢
    rw [hits, here, (word p (.head _)).1,
      hits_inWord (fun q member => word q (.tail _ member)), if_neg Bool.false_ne_true]
    by_cases same : (p :: run).map Prod.snd = name
    · rw [if_pos same, if_pos same]
    · rw [if_neg same, if_neg same]
      rfl

/-- No match begins in this part of the mask, or reaches over its end. -/
def Shut (classes : Classes) (name : Chars) (part : Masked) : Prop :=
  ∀ inWord s, hits classes name inWord (part ++ s) = hits classes name false s

omit isName in
theorem Shut.append {a b : Masked} (first : Shut classes name a) (second : Shut classes name b) :
    Shut classes name (a ++ b) := by
  intro inWord s
  rw [append_assoc, first, second]

theorem shut_mark {p : Char × Char} (mark : classes.word p.2 = false) : Shut classes name [p] :=
  fun inWord s => hits_mark isName inWord s mark

theorem shut_single (p : Char × Char) {q : Char × Char} (mark : classes.word q.2 = false) :
    Shut classes name [p, q] := fun inWord s =>
  (hits_single isName p inWord (ends_cons mark s)).trans (hits_mark isName _ s mark)

/-- A word in front of a mark that is no space is not seen. -/
theorem shut_run {p : Char × Char} (word : InWord classes run) (mark : classes.word p.2 = false)
    (noSpace : Text.isSpace p.2 = false) (noBang : p.2 ≠ '!') :
    Shut classes name (run ++ [p]) := by
  intro inWord s
  have after : afterBang (p :: s) = none := by
    rw [afterBang, dropSpaces, dropWhile_cons_of_neg (by simp [noSpace])]
    exact if_neg noBang
  rw [append_assoc, singleton_append]
  cases inWord with
  | true => rw [hits_inWord word, hits_mark isName _ _ mark]
  | false =>
    by_cases none_left : run = []
    · rw [none_left, nil_append, hits_mark isName _ _ mark]
    · rw [hits_run isName word none_left (ends_cons mark s), after, hits_mark isName _ _ mark]
      simp

theorem shut_marks {c : Char} (marks : ∀ e ∈ d :: m, classes.word e = false) :
    Shut classes name ((c :: w).zip (d :: m)) := by
  intro inWord s
  rw [zip_cons_cons, cons_append, hits_mark isName _ _ (marks d mem_cons_self)]
  exact hits_marks isName (fun e member => marks e (.tail _ member)) s

theorem shut_lead (pre : Option Char) {c : Char} (marks : ∀ e ∈ d :: m, classes.word e = false) :
    Shut classes name ((pre.toList ++ c :: w).zip (pre.toList ++ d :: m)) := by
  cases pre with
  | none => exact shut_marks isName marks
  | some e =>
    have first := shut_single isName (e, e) (q := (c, d)) (marks d mem_cons_self)
    intro inWord s
    refine (first inWord _).trans (hits_marks isName (fun e member => marks e (.tail _ member)) s)

end

/-! Tokens and matches. -/

theorem inWord_zip {classes : Classes}
    (letters : ∀ c ∈ w, classes.word c = true ∧ Text.isSpace c = false) :
    InWord classes (w.zip w) :=
  fun p member => letters p.2 (of_mem_zip member).2

theorem isSpace_printed {c : Char} (low : 33 ≤ c.toNat) (high : c.toNat < 128) :
    Text.isSpace c = false := by
  simp only [Text.isSpace, Bool.or_eq_false_iff, decide_eq_false_iff_not, contains_eq_mem,
    mem_cons, not_mem_nil, or_false]
  omega

theorem ascii_letter (classes : Classes) {c : Char} (h : (c.isAlphanum || c = '_') = true) :
    classes.word c = true ∧ Text.isSpace c = false := by
  have range : 48 ≤ c.toNat ∧ c.toNat < 128 := by
    rw [Bool.or_eq_true, decide_eq_true_eq] at h
    obtain letter | rfl := h
    · simp only [Char.isAlphanum, Char.isAlpha, Char.isUpper, Char.isLower, Char.isDigit,
        Bool.or_eq_true, Bool.and_eq_true, decide_eq_true_eq, UInt32.le_iff_toNat_le,
          ge_iff_le] at letter
      have value : c.toNat = c.val.toNat := rfl
      have high : 'z'.val.toNat = 122 := rfl
      have highUpper : 'Z'.val.toNat = 90 := rfl
      have highDigit : '9'.val.toNat = 57 := rfl
      have low : '0'.val.toNat = 48 := rfl
      have lowUpper : 'A'.val.toNat = 65 := rfl
      have lowLower : 'a'.val.toNat = 97 := rfl
      omega
    · decide
  exact ⟨(classes.ascii c range.2).2.trans h, isSpace_printed (by omega) range.2⟩

theorem hex_letter {c : Char} (h : (isHex c || c = '_') = true) :
    (c.isAlphanum || c = '_') = true := by
  rw [isHex, Bool.or_eq_true, Bool.or_eq_true] at h
  rw [Bool.or_eq_true]
  obtain (digit | letter) | mark := h
  · left
    rw [Char.isAlphanum, digit, Bool.or_true]
  · left
    have known : hexLetters.all Char.isAlphanum = true := by decide +kernel
    exact all_eq_true.mp known c (contains_iff_mem.mp letter)
  · exact .inr mark

theorem punct_mark {c : Char} (h : isPunct c = true) :
    c.toNat < 128 ∧ (c.isAlphanum || c = '_') = false := by
  have known : (punctuation.all fun c => c.toNat < 128 && !(c.isAlphanum || c = '_')) = true := by
    decide +kernel
  have mark := all_eq_true.mp known c (contains_iff_mem.mp h)
  rwa [Bool.and_eq_true, decide_eq_true_eq, Bool.not_eq_true'] at mark

theorem punct_not_word (classes : Classes) {c : Char} (h : isPunct c = true) :
    classes.word c = false :=
  not_word classes (punct_mark h).1 (punct_mark h).2

section
variable {classes : Classes} {name : Chars} (isName : IsName classes name)
include isName

theorem shut_charBody {body : CharBody} (valid : body.valid = true) :
    Shut classes name (body.text.zip body.text ++ [('\'', '\'')]) := by
  have mark (c : Char) (small : c.toNat < 128) (no : (c.isAlphanum || c = '_') = false) :
      classes.word c = false := not_word classes small no
  have quote := mark '\'' (by decide) (by decide)
  have slash := shut_mark isName (p := ('\\', '\\')) (mark _ (by decide) (by decide))
  cases body with
  | plain c => exact shut_single isName _ quote
  | escape c => exact slash.append (shut_single isName _ quote)
  | hex a b =>
    rw [CharBody.valid, Bool.and_eq_true] at valid
    have word : InWord classes (['x', a, b].zip ['x', a, b]) := by
      refine inWord_zip ?_
      simp only [mem_cons, not_mem_nil, or_false]
      rintro c (rfl | rfl | rfl)
      · exact ascii_letter classes (by decide)
      · exact ascii_letter classes (hex_letter (by rw [valid.1, Bool.true_or]))
      · exact ascii_letter classes (hex_letter (by rw [valid.2, Bool.true_or]))
    exact slash.append (shut_run isName word quote (by decide) (by decide))
  | unicode digits =>
    rw [CharBody.valid, all_eq_true] at valid
    have word : InWord classes (digits.zip digits) :=
      inWord_zip fun c member => ascii_letter classes (hex_letter (valid c member))
    have shape :
        (CharBody.unicode digits).text.zip (CharBody.unicode digits).text ++ [('\'', '\'')] =
        [('\\', '\\')] ++ ([('u', 'u'), ('\x7b', '\x7b')] ++
          ((digits.zip digits ++ [('\x7d', '\x7d')]) ++ [('\'', '\'')])) := by
      simp [CharBody.text, zip_append]
    rw [shape]
    refine slash.append ((shut_single isName _ (mark _ (by decide) (by decide))).append ?_)
    exact (shut_run isName word (mark _ (by decide) (by decide)) (by decide) (by decide)).append
      (shut_mark isName quote)

/-- The part of a token in front of its word is not seen. -/
theorem shut_stem {letters : Letters} {t : Tok} (valid : t.valid letters rest = true)
    (known : t.isKnown classes = true) (some_left : t.stem ≠ []) :
    Shut classes name (t.stem.zip t.stemSeen) := by
  have blanks (n : Nat) : ∀ e ∈ spaces n, classes.word e = false := fun e member =>
    eq_of_mem_replicate member ▸ not_word classes (by decide) (by decide)
  have quote : classes.word '"' = false := not_word classes (by decide) (by decide)
  have apostrophe : classes.word '\'' = false := not_word classes (by decide) (by decide)
  have hash : classes.word '#' = false := not_word classes (by decide) (by decide)
  cases t with
  | space c =>
    simp only [Tok.isKnown, Bool.and_eq_true, Bool.not_eq_true'] at known
    exact shut_mark isName known.2.2
  | line body | block body => exact shut_marks isName (blanks (body.length + 2))
  | str pre body suffix =>
    refine shut_lead isName pre (forall_mem_cons.mpr ⟨quote, forall_mem_append.mpr ⟨blanks _, ?_⟩⟩)
    exact forall_mem_singleton.mpr quote
  | raw pre hashes body suffix =>
    exact shut_lead isName pre (blanks (body.length + 2 * hashes + 3))
  | chr byte body suffix =>
    simp only [Tok.valid, Bool.and_eq_true] at valid
    have shape : (Tok.chr byte body suffix).stem.zip (Tok.chr byte body suffix).stemSeen =
        (byteMark byte ++ ['\'']).zip (byteMark byte ++ ['\'']) ++
          (body.text.zip body.text ++ [('\'', '\'')]) := by
      simp [Tok.stemSeen, Tok.stemBlank, Tok.stem, zip_append]
    rw [shape]
    cases byte with
    | false => exact (shut_mark isName apostrophe).append (shut_charBody isName valid.1)
    | true => exact (shut_single isName _ apostrophe).append (shut_charBody isName valid.1)
  | lifetime isRaw name =>
    cases isRaw with
    | false => exact shut_mark isName apostrophe
    | true => exact (shut_mark isName apostrophe).append (shut_single isName _ hash)
  | ident isRaw name =>
    cases isRaw with
    | false => exact absurd rfl some_left
    | true => exact shut_single isName _ hash
  | number digits => exact absurd rfl some_left
  | punct c =>
    simp only [Tok.valid, Bool.and_eq_true] at valid
    exact shut_mark isName (punct_not_word classes valid.1)

end

theorem punct_not_space {c : Char} (h : isPunct c = true) : Text.isSpace c = false := by
  have known : (punctuation.all fun c => !Text.isSpace c) = true := by decide +kernel
  exact (Bool.not_eq_true' _).mp (all_eq_true.mp known c (contains_iff_mem.mp h))

/-- How the mask of a token begins. -/
inductive Begins (letters : Letters) (classes : Classes) : Tok → Char × Char → Prop
  | gap {t p} (noPunct : ∀ c, t ≠ .punct c) (mark : classes.word p.2 = false)
      (quiet : isPunct p.2 = false) (seen : t.isBlank = Text.isSpace p.2) :
        Begins letters classes t p
  | blank {hashes body suffix p} (isBlank : p.2 = ' ') :
      Begins letters classes (.raw none hashes body suffix) p
  | punct {c} (isPunct : isPunct c = true) : Begins letters classes (.punct c) (c, c)
  | letter {t c} (noPunct : ∀ c, t ≠ .punct c) (xid : letters.xid c = true)
      (noSpace : Text.isSpace c = false) : Begins letters classes t (c, c)

section
variable {letters : Letters} {classes : Classes} {name : Chars} {t : Tok}

theorem known_letters (known : t.isKnown classes = true) :
    ∀ c ∈ t.word, classes.word c = true ∧ Text.isSpace c = false := by
  intro c member
  simp only [Tok.isKnown, Bool.and_eq_true, all_eq_true, Bool.not_eq_true'] at known
  exact known.1 c member

theorem not_punct_letter {c : Char} (xid : letters.xid c = true) : isPunct c = false := by
  refine Bool.eq_false_iff.mpr fun isPunct => ?_
  rw [letters.ascii c (punct_mark isPunct).1, (punct_mark isPunct).2] at xid
  cases xid

theorem begins_quote (noPunct : ∀ c, t ≠ .punct c) (shows : t.isBlank = false) {p : Char × Char}
    (isQuote : p.2 = '"' ∨ p.2 = '\'') : Begins letters classes t p := by
  refine .gap noPunct ?_ ?_ ?_ <;> rcases isQuote with same | same <;> rw [same]
  · exact not_word classes (by decide) (by decide)
  · exact not_word classes (by decide) (by decide)
  · decide
  · decide
  · exact shows
  · exact shows

theorem begins_word (noPunct : ∀ c, t ≠ .punct c) (known : t.isKnown classes = true)
    (valid : t.valid letters rest = true) (some_left : t.word ≠ []) :
    ∃ p tail, t.word.zip t.word = p :: tail ∧ Begins letters classes t p := by
  have xid := Tok.word_letters valid
  have noSpace := known_letters known
  obtain ⟨c, w, same⟩ := exists_cons_of_ne_nil some_left
  rw [same] at xid noSpace ⊢
  exact ⟨(c, c), _, rfl, .letter noPunct (xid c (.head _)) (noSpace c (.head _)).2⟩

theorem begins_lead {pre : Option Char} (valid : isPrefixLetter pre = true)
    (noPunct : ∀ c, t ≠ .punct c) {c : Char}
    (other : pre = none → Begins letters classes t (c, d)) :
    ∃ p tail, (pre.toList ++ c :: w).zip (pre.toList ++ d :: m) ++ s = p :: tail ∧
      Begins letters classes t p := by
  rw [isPrefixLetter, Bool.or_eq_true, Bool.or_eq_true, decide_eq_true_eq, decide_eq_true_eq,
    decide_eq_true_eq] at valid
  obtain (rfl | rfl) | rfl := valid
  · exact ⟨(c, d), _, rfl, other rfl⟩
  · exact ⟨('b', 'b'), _, rfl, .letter noPunct (letters.ascii _ (by decide)) (by decide)⟩
  · exact ⟨('c', 'c'), _, rfl, .letter noPunct (letters.ascii _ (by decide)) (by decide)⟩

theorem white_not_punct {c : Char} (white : isWhite c = true) : isPunct c = false := by
  have known : (punctuation.all fun c => !isWhite c) = true := by decide +kernel
  refine Bool.eq_false_iff.mpr fun isPunct => ?_
  have no := all_eq_true.mp known c (contains_iff_mem.mp isPunct)
  rw [white] at no
  cases no

theorem masked_begins (valid : t.valid letters rest = true) (known : t.isKnown classes = true) :
    ∃ p tail, t.masked = p :: tail ∧ Begins letters classes t p := by
  have blank : classes.word ' ' = false := not_word classes (by decide) (by decide)
  cases t with
  | space c =>
    simp only [Tok.isKnown, Bool.and_eq_true, Bool.not_eq_true'] at known
    exact ⟨(c, c), [], rfl, .gap (by simp) known.2.2 (white_not_punct valid) known.2.1.symm⟩
  | line body | block body =>
    have seen : true = Text.isSpace ' ' := by decide
    exact ⟨('/', ' '), _, rfl, .gap (by simp) blank (by decide) seen⟩
  | str pre body suffix =>
    simp only [Tok.valid, Bool.and_eq_true] at valid
    exact begins_lead valid.1.1 (by simp) fun _ => begins_quote (by simp) rfl (.inl rfl)
  | raw pre hashes body suffix =>
    simp only [Tok.valid, Bool.and_eq_true] at valid
    refine begins_lead valid.1.1 (by simp) fun none => ?_
    rw [none]
    exact .blank rfl
  | chr byte body suffix =>
    cases byte with
    | false => exact ⟨('\'', '\''), _, rfl, begins_quote (by simp) rfl (.inr rfl)⟩
    | true =>
      exact ⟨('b', 'b'), _, rfl, .letter (by simp) (letters.ascii _ (by decide)) (by decide)⟩
  | lifetime isRaw name => exact ⟨('\'', '\''), _, rfl, begins_quote (by simp) rfl (.inr rfl)⟩
  | ident isRaw name =>
    cases isRaw with
    | true =>
      exact ⟨('r', 'r'), _, rfl, .letter (by simp) (letters.ascii _ (by decide)) (by decide)⟩
    | false =>
      refine begins_word (by simp) known valid fun none => ?_
      rw [show name = [] from none] at valid
      simp [Tok.valid, isName] at valid
  | number digits =>
    refine begins_word (by simp) known valid fun none => ?_
    rw [show digits = [] from none] at valid
    simp [Tok.valid, beginsWithDigit] at valid
  | punct c =>
    simp only [Tok.valid, Bool.and_eq_true] at valid
    exact ⟨(c, c), [], rfl, .punct valid.1⟩

theorem zip_spaces (w : Chars) (n : Nat) : ∀ p ∈ w.zip (spaces n), Text.isSpace p.2 = true := by
  intro p member
  rw [eq_of_mem_replicate (of_mem_zip member).2]
  decide

theorem blank_spaces (isBlank : t.isBlank = true) (known : t.isKnown classes = true) :
    ∀ p ∈ t.masked, Text.isSpace p.2 = true := by
  cases t with
  | space c =>
    simp only [Tok.isKnown, Bool.and_eq_true] at known
    intro p member
    rw [mem_singleton.mp member]
    exact known.2.1
  | line body | block body =>
    intro p member
    rcases mem_append.mp member with inStem | inWord
    · exact zip_spaces _ _ p inStem
    · cases inWord
  | raw pre hashes body suffix =>
    cases pre with
    | some c => cases isBlank
    | none =>
      rw [Tok.masked, Tok.word, isEmpty_iff.mp isBlank, zip_nil_left, append_nil]
      exact zip_spaces _ _
  | _ => cases isBlank

/-- What is left after some tokens. -/
theorem drop_of_tail {P : List Tok → Prop} (tail : ∀ t ts, P (t :: ts) → P ts) (suffix : us <:+ ts)
    (whole : P ts) : P us := by
  induction ts with
  | nil => exact suffix_nil.mp suffix ▸ whole
  | cons t ts ih =>
    rcases suffix_cons_iff.mp suffix with rfl | later
    · exact whole
    · exact ih later (tail t ts whole)

theorem isSource_drop (suffix : us <:+ ts) (source : isSource letters ts = true) :
    isSource letters us = true :=
  drop_of_tail (fun _ _ h => (Bool.and_eq_true_iff.mp h).2) suffix source

theorem isKnown_drop (suffix : us <:+ ts) (known : isKnown classes ts = true) :
    isKnown classes us = true :=
  drop_of_tail (fun _ _ h => (Bool.and_eq_true_iff.mp h).2) suffix known

theorem ends_source (source : isSource letters ts = true) (known : isKnown classes ts = true)
    (start : ∀ c, (sourceText ts).head? = some c → letters.xid c = false) :
    Ends classes (sourceMasked ts) := by
  cases ts with
  | nil => exact nofun
  | cons t ts =>
    rw [isSource, Bool.and_eq_true] at source
    rw [isKnown, all_cons, Bool.and_eq_true] at known
    obtain ⟨p, tail, same, begins⟩ := masked_begins source.1 known.1
    have shape : sourceMasked (t :: ts) = p :: (tail ++ sourceMasked ts) := by
      rw [sourceMasked, flatMap_cons, same]
      rfl
    have first : (sourceText (t :: ts)).head? = some p.1 := by
      rw [← sourceMasked_fst, shape]
      rfl
    rw [shape]
    refine ends_cons ?_ _
    cases begins with
    | gap _ mark => exact mark
    | blank isBlank => rw [isBlank]; exact not_word classes (by decide) (by decide)
    | punct isPunct => exact punct_not_word classes isPunct
    | letter _ xid => exact absurd xid (Bool.eq_false_iff.mp (start _ first))

/-- The first token that the scan sees. -/
inductive Ahead (ts : List Tok) : Prop
  | stop (tokens : ts.dropWhile Tok.isBlank = []) (mask : dropSpaces (sourceMasked ts) = [])
  | punct (c : Char) (us : List Tok) (tokens : ts.dropWhile Tok.isBlank = .punct c :: us)
      (mask : dropSpaces (sourceMasked ts) = (c, c) :: sourceMasked us)
  | other (t : Tok) (us : List Tok) (tokens : ts.dropWhile Tok.isBlank = t :: us)
      (noPunct : ∀ c, t ≠ .punct c) (p : Char × Char) (tail : Masked)
      (mask : dropSpaces (sourceMasked ts) = p :: tail) (quiet : isPunct p.2 = false)

theorem ahead (source : isSource letters ts = true) (known : isKnown classes ts = true) :
    Ahead ts := by
  induction ts with
  | nil => exact .stop rfl rfl
  | cons t ts ih =>
    rw [isSource, Bool.and_eq_true] at source
    rw [isKnown, all_cons, Bool.and_eq_true] at known
    by_cases isBlank : t.isBlank = true
    · have tokens : (t :: ts).dropWhile Tok.isBlank = ts.dropWhile Tok.isBlank :=
        dropWhile_cons_of_pos isBlank
      have mask : dropSpaces (sourceMasked (t :: ts)) = dropSpaces (sourceMasked ts) :=
        dropWhile_append_of_pos (blank_spaces isBlank known.1)
      cases ih source.2 known.2 with
      | stop tokens' mask' => exact .stop (tokens.trans tokens') (mask.trans mask')
      | punct c us tokens' mask' => exact .punct c us (tokens.trans tokens') (mask.trans mask')
      | other t us tokens' noPunct p tail mask' quiet =>
        exact .other t us (tokens.trans tokens') noPunct p tail (mask.trans mask') quiet
    · have tokens : (t :: ts).dropWhile Tok.isBlank = t :: ts := dropWhile_cons_of_neg isBlank
      obtain ⟨p, tail, same, begins⟩ := masked_begins source.1 known.1
      have mask (noSpace : Text.isSpace p.2 = false) :
          dropSpaces (sourceMasked (t :: ts)) = p :: (tail ++ sourceMasked ts) := by
        rw [sourceMasked, flatMap_cons, same, cons_append, dropSpaces,
          dropWhile_cons_of_neg (by simp [noSpace])]
        rfl
      cases begins with
      | gap noPunct mark quiet seen =>
        rw [Bool.eq_false_iff.mpr isBlank] at seen
        exact .other t ts tokens noPunct p _ (mask seen.symm) quiet
      | @blank hashes body suffix _ isBlank' =>
        cases suffix with
        | nil => exact absurd rfl isBlank
        | cons c w =>
          refine .other _ ts tokens (by simp) (c, c) (w.zip w ++ sourceMasked ts) ?_
            (not_punct_letter (Tok.word_letters source.1 c (.head _)))
          have noSpace := (known_letters known.1 c (.head _)).2
          rw [sourceMasked_cons, dropSpaces]
          exact (dropWhile_append_of_pos (zip_spaces _ _)).trans
            (dropWhile_cons_of_neg (by simp [noSpace]))
      | @punct c isPunct =>
        obtain rfl : tail = [] := (List.cons.inj same).2.symm
        exact .punct c ts tokens (mask (punct_not_space isPunct))
      | letter noPunct xid noSpace =>
        exact .other t ts tokens noPunct _ _ (mask noSpace) (not_punct_letter xid)

theorem afterBang_source (source : isSource letters ts = true) (known : isKnown classes ts = true) :
    afterBang (sourceMasked ts) = (bang Tok.isBlank ts).map sourceMasked := by
  rw [afterBang, bang]
  cases ahead source known with
  | stop tokens mask => rw [tokens, mask]; rfl
  | punct c us tokens mask =>
    rw [tokens, mask]
    by_cases isBang : c = '!'
    · rw [isBang]
      rfl
    · simp [isBang]
  | other t us tokens noPunct p tail mask quiet =>
    have noBang : p.2 ≠ '!' := fun same => absurd (same ▸ quiet) (by decide)
    rw [tokens, mask]
    simp [noPunct, noBang]

theorem Tok.word_ends (valid : t.valid letters rest = true)
    (some_left : t.word ≠ []) : ∀ c, rest.head? = some c → letters.xid c = false := by
  have ofWord {w : Chars} (h : isWord letters w rest = true) :
      ∀ c, rest.head? = some c → letters.xid c = false := by
    intro c same
    rw [isWord, Bool.and_eq_true, same] at h
    exact (Bool.not_eq_true' _).mp h.2
  have ofName {w : Chars} (h : isName letters w rest = true) :
      ∀ c, rest.head? = some c → letters.xid c = false := by
    rw [isName, Bool.and_eq_true, Bool.and_eq_true] at h
    exact ofWord h.1.1
  have ofSuffix {w : Chars} (nonempty : w ≠ []) (h : isSuffix letters w rest = true) :
      ∀ c, rest.head? = some c → letters.xid c = false := by
    rw [isSuffix, isEmpty_eq_false_iff.mpr nonempty, Bool.false_and, Bool.or_false] at h
    exact ofName h
  cases t <;> simp only [Tok.valid, Bool.and_eq_true] at valid
  case str => exact ofSuffix some_left valid.2
  case raw => exact ofSuffix some_left valid.2
  case chr => exact ofSuffix some_left valid.2
  case lifetime => exact ofName valid.1
  case ident => exact ofName valid.1.1.1
  case number => exact ofWord valid.1
  all_goals exact absurd rfl some_left

theorem Tok.stem_nonempty (valid : t.valid letters rest = true)
    (noWord : t.word = []) : t.stem ≠ [] := by
  cases t with
  | ident isRaw name =>
    rw [show name = [] from noWord] at valid
    simp [Tok.valid, isName] at valid
  | number digits =>
    rw [show digits = [] from noWord] at valid
    simp [Tok.valid, beginsWithDigit] at valid
  | _ => simp [Tok.stem]

theorem hits_source (named : IsName classes name) (source : isSource letters ts = true)
    (known : isKnown classes ts = true) (inWord : Bool)
    (start : inWord = true → ∀ c, (sourceText ts).head? = some c → letters.xid c = false) :
    hits classes name inWord (sourceMasked ts) = (seenMentions name ts).map sourceMasked := by
  induction ts generalizing inWord with
  | nil => rfl
  | cons t ts ih =>
    rw [isSource, Bool.and_eq_true] at source
    rw [isKnown, all_cons, Bool.and_eq_true] at known
    have stem : hits classes name inWord (sourceMasked (t :: ts)) =
        hits classes name false (t.word.zip t.word ++ sourceMasked ts) := by
      rw [sourceMasked_cons]
      by_cases noStem : t.stem = []
      · -- the token begins with a letter, so the text before it did not end with one
        have fresh : inWord = false := Bool.eq_false_iff.mpr fun inside => by
          obtain ⟨c, w, same⟩ := exists_cons_of_ne_nil
            fun noWord => Tok.stem_nonempty source.1 noWord noStem
          have first : (sourceText (t :: ts)).head? = some c := by
            rw [sourceText, flatMap_cons, Tok.text, noStem, same]
            rfl
          have xid := Tok.word_letters source.1 c (by rw [same]; exact (.head _))
          rw [start inside c first] at xid
          cases xid
        rw [noStem, zip_nil_left, nil_append, fresh]
      · exact shut_stem named source.1 known.1 noStem inWord _
    rw [stem, seenMentions, map_append]
    by_cases noWord : t.word = []
    · have unnamed : t.word ≠ name := by
        intro same
        have long := named.long
        rw [← same, noWord] at long
        exact absurd long (by decide)
      rw [if_neg unnamed, noWord]
      exact ih source.2 known.2 false (by simp)
    · have after := Tok.word_ends source.1 noWord
      have inside : InWord classes (t.word.zip t.word) := inWord_zip (known_letters known.1)
      have nonempty : t.word.zip t.word ≠ [] := by
        simpa [zip_eq_nil_iff] using noWord
      rw [hits_run named inside nonempty (ends_source source.2 known.2 after),
        ih source.2 known.2 true fun _ => after, map_snd_zip (Nat.le_refl _),
        afterBang_source source.2 known.2]
      congr 1
      split
      · cases bang Tok.isBlank ts <;> rfl
      · rfl

end

/-! Brackets. -/

theorem opened_eq {c : Char} {b : Bracket} (h : Bracket.opened c = some b) : c = b.opener := by
  have found := List.find?_some h
  exact (of_decide_eq_true found).symm

theorem closed_eq {c : Char} {b : Bracket} (h : Bracket.closed c = some b) : c = b.closer := by
  have found := List.find?_some h
  exact (of_decide_eq_true found).symm

theorem opened_none {c : Char} (h : Bracket.opened c = none) (b : Bracket) : c ≠ b.opener := by
  intro same
  refine of_decide_eq_false (Bool.eq_false_iff.mpr (List.find?_eq_none.mp h b ?_)) same.symm
  cases b <;> decide

theorem closed_none {c : Char} (h : Bracket.closed c = none) (b : Bracket) : c ≠ b.closer := by
  intro same
  refine of_decide_eq_false (Bool.eq_false_iff.mpr (List.find?_eq_none.mp h b ?_)) same.symm
  cases b <;> decide

theorem Bracket.opener_inj {a b : Bracket} (h : a.opener = b.opener) : a = b := by
  cases a <;> cases b <;> first | rfl | exact absurd h (by decide)

theorem Bracket.closer_inj {a b : Bracket} (h : a.closer = b.closer) : a = b := by
  cases a <;> cases b <;> first | rfl | exact absurd h (by decide)

theorem Bracket.opener_ne_closer (a b : Bracket) : a.opener ≠ b.closer := by
  cases a <;> cases b <;> decide

theorem Bracket.isPunct_opener (b : Bracket) : isPunct b.opener = true := by cases b <;> decide

theorem Bracket.isPunct_closer (b : Bracket) : isPunct b.closer = true := by cases b <;> decide

/-- A character that the count of brackets passes over. -/
def Quiet (b : Bracket) (c : Char) : Prop := c ≠ b.opener ∧ c ≠ b.closer

theorem quiet_of_not_punct (b : Bracket) {c : Char} (h : isPunct c = false) : Quiet b c := by
  refine ⟨?_, ?_⟩ <;> rintro rfl
  · exact absurd b.isPunct_opener (Bool.eq_false_iff.mp h)
  · exact absurd b.isPunct_closer (Bool.eq_false_iff.mp h)

/-- The depth after some text, unless the count falls below zero. -/
def depthAfter (b : Bracket) : Nat → Chars → Option Nat
  | depth, [] => some depth
  | depth, c :: s =>
    if c = b.opener then depthAfter b (depth + 1) s
    else if c = b.closer then
      if depth = 0 then none else depthAfter b (depth - 1) s
    else depthAfter b depth s

section
variable {letters : Letters} {b : Bracket}

theorem depthAfter_append (depth : Nat) (u v : Chars) :
    depthAfter b depth (u ++ v) = (depthAfter b depth u).bind (depthAfter b · v) := by
  induction u generalizing depth with
  | nil => rfl
  | cons c u ih =>
    simp only [cons_append, depthAfter, ih]
    split_ifs <;> rfl

theorem depthAfter_quiet {u : Chars} (quiet : ∀ c ∈ u, Quiet b c) (depth : Nat) :
    depthAfter b depth u = some depth := by
  induction u with
  | nil => rfl
  | cons c u ih =>
    have here := quiet c (.head _)
    rw [depthAfter, if_neg here.1, if_neg here.2]
    exact ih fun d member => quiet d (.tail _ member)

/-- Behind some text the scan goes on at the depth after it, or it has stopped in the text. -/
theorem cut_append (xs s : Masked) (depth : Nat) :
    (∀ d, depthAfter b depth (xs.map Prod.snd) = some d →
      cut b depth (xs ++ s) = (xs ++ ·) <$> cut b d s) ∧
    (depthAfter b depth (xs.map Prod.snd) = none →
      ∃ body, cut b depth (xs ++ s) = some body ∧ body.length < xs.length) := by
  induction xs generalizing depth with
  | nil =>
    refine ⟨fun d same => ?_, nofun⟩
    cases same
    change cut b depth s = ([] ++ ·) <$> cut b depth s
    cases cut b depth s <;> rfl
  | cons p xs ih =>
    have onwards (d' : Nat) :
        (∀ d, depthAfter b d' (xs.map Prod.snd) = some d →
          (p :: ·) <$> cut b d' (xs ++ s) = (p :: xs ++ ·) <$> cut b d s) ∧
        (depthAfter b d' (xs.map Prod.snd) = none →
          ∃ body, (p :: ·) <$> cut b d' (xs ++ s) = some body ∧ body.length < xs.length + 1) := by
      refine ⟨fun d same => ?_, fun same => ?_⟩
      · rw [(ih d').1 d same]
        cases cut b d s <;> rfl
      · obtain ⟨body, found, short⟩ := (ih d').2 same
        rw [found]
        exact ⟨p :: body, rfl, Nat.succ_lt_succ short⟩
    rw [map_cons, depthAfter, cons_append, cut]
    split_ifs
    · exact onwards _
    · exact ⟨nofun, fun _ => ⟨[], rfl, Nat.succ_pos _⟩⟩
    · exact onwards _
    · exact onwards _

theorem quiet_of_all {p : Char → Bool} (none' : (punctuation.all fun c => !p c) = true) {c : Char}
    (h : p c = true) : Quiet b c := by
  refine quiet_of_not_punct b (Bool.eq_false_iff.mpr fun isPunct => ?_)
  have no := all_eq_true.mp none' c (contains_iff_mem.mp isPunct)
  rw [h] at no
  cases no

theorem quiet_letter {c : Char} (xid : letters.xid c = true) : Quiet b c :=
  quiet_of_not_punct b (not_punct_letter xid)

theorem quiet_spaces (n : Nat) : ∀ c ∈ spaces n, Quiet b c := fun _ member =>
  eq_of_mem_replicate member ▸ quiet_of_not_punct b (by decide)

theorem quiet_lead {pre : Option Char} (valid : isPrefixLetter pre = true) :
    ∀ c ∈ pre.toList, Quiet b c := by
  rw [isPrefixLetter, Bool.or_eq_true, Bool.or_eq_true, decide_eq_true_eq, decide_eq_true_eq,
    decide_eq_true_eq] at valid
  intro c member
  obtain (rfl | rfl) | rfl := valid
  · cases member
  · exact mem_singleton.mp member ▸ quiet_of_not_punct b (by decide)
  · exact mem_singleton.mp member ▸ quiet_of_not_punct b (by decide)

theorem quiet_rawMark (b : Bracket) (isRaw : Bool) : ∀ c ∈ rawMark isRaw, Quiet b c := by
  cases isRaw <;> cases b <;> simp [rawMark, Quiet, Bracket.opener, Bracket.closer]

theorem quiet_byteMark (b : Bracket) (byte : Bool) : ∀ c ∈ byteMark byte, Quiet b c := by
  cases byte <;> cases b <;> simp [byteMark, Quiet, Bracket.opener, Bracket.closer]

theorem quiet_hex {c : Char} (h : (isHex c || c = '_') = true) : Quiet b c := by
  have letter := hex_letter h
  exact @quiet_letter Letters.asciiOnly b c letter

/-- A character that is written as an escape leaves the depth, also with its own brackets. -/
theorem depthAfter_charBody {body : CharBody} (valid : body.valid = true)
    (escaped : ∀ c, body ≠ .plain c) (depth : Nat) : depthAfter b depth body.text = some depth := by
  cases body with
  | plain c => exact absurd rfl (escaped c)
  | escape c =>
    refine depthAfter_quiet (forall_mem_cons.mpr ⟨quiet_of_not_punct b (by decide), ?_⟩) depth
    refine forall_mem_singleton.mpr ?_
    exact @quiet_of_all _ (fun c => (CharBody.escape c).valid) (by decide +kernel) c valid
  | hex x y =>
    rw [CharBody.valid, Bool.and_eq_true] at valid
    have digits : ∀ c ∈ [x, y], Quiet b c := forall_mem_cons.mpr
      ⟨quiet_hex (by rw [valid.1, Bool.true_or]),
        forall_mem_singleton.mpr (quiet_hex (by rw [valid.2, Bool.true_or]))⟩
    exact depthAfter_quiet (forall_mem_cons.mpr ⟨quiet_of_not_punct b (by decide),
      forall_mem_cons.mpr ⟨quiet_of_not_punct b (by decide), digits⟩⟩) depth
  | unicode digits =>
    rw [CharBody.valid, all_eq_true] at valid
    have digit (d : Nat) : depthAfter b d digits = some d :=
      depthAfter_quiet (fun c member => quiet_hex (valid c member)) d
    cases b <;> simp [CharBody.text, depthAfter, depthAfter_append, digit, Bracket.opener,
      Bracket.closer]

/-- The count over the characters of a token is the one over the token. -/
theorem walk_token {t : Tok} (valid : t.valid letters rest = true) (depth : Nat) :
    walk b depth [t] = depthAfter b depth t.seen := by
  have word : ∀ c ∈ t.word, Quiet b c := fun c member =>
    quiet_letter (Tok.word_letters valid c member)
  have quiet (each : ∀ c ∈ t.stemSeen, Quiet b c) : some depth = depthAfter b depth t.seen :=
    (depthAfter_quiet (forall_mem_append.mpr ⟨each, word⟩) depth).symm
  have mark (c : Char) (no : isPunct c = false) : Quiet b c := quiet_of_not_punct b no
  cases t with
  | space c =>
    exact quiet (forall_mem_singleton.mpr (@quiet_of_all _ isWhite (by decide +kernel) c valid))
  | line body | block body => exact quiet (quiet_spaces (body.length + 2))
  | str pre body suffix =>
    simp only [Tok.valid, Bool.and_eq_true] at valid
    refine quiet (forall_mem_append.mpr ⟨quiet_lead valid.1.1, ?_⟩)
    refine forall_mem_cons.mpr ⟨mark _ (by decide), forall_mem_append.mpr ⟨quiet_spaces _, ?_⟩⟩
    exact forall_mem_singleton.mpr (mark _ (by decide))
  | raw pre hashes body suffix =>
    simp only [Tok.valid, Bool.and_eq_true] at valid
    exact quiet (forall_mem_append.mpr ⟨quiet_lead valid.1.1, quiet_spaces _⟩)
  | chr byte body suffix =>
    simp only [Tok.valid, Bool.and_eq_true] at valid
    have lead : depthAfter b depth (byteMark byte ++ ['\'']) = some depth := depthAfter_quiet
      (forall_mem_append.mpr
        ⟨quiet_byteMark b byte, forall_mem_singleton.mpr (mark _ (by decide))⟩) _
    have tail (d : Nat) : depthAfter b d ('\'' :: suffix) = some d :=
      depthAfter_quiet (forall_mem_cons.mpr ⟨mark _ (by decide), word⟩) d
    have shape : (Tok.chr byte body suffix).seen =
        (byteMark byte ++ ['\'']) ++ (body.text ++ '\'' :: suffix) := by
      simp [Tok.seen, Tok.stemSeen, Tok.stemBlank, Tok.stem, Tok.word]
    rw [shape, depthAfter_append, lead, Option.bind_some, depthAfter_append]
    simp only [tail, Option.bind_fun_some]
    cases body with
    | plain c => simp [walk, Tok.counts, CharBody.text, depthAfter]
    | escape _ | hex _ _ | unicode _ => rw [depthAfter_charBody valid.1 (by simp)]; rfl
  | lifetime isRaw name =>
    exact quiet (forall_mem_cons.mpr ⟨mark _ (by decide), quiet_rawMark b isRaw⟩)
  | ident isRaw name => exact quiet (quiet_rawMark b isRaw)
  | number digits => exact quiet (forall_mem_nil _)
  | punct c =>
    change _ = depthAfter b depth [c]
    simp [walk, Tok.counts, depthAfter]

def EachValid (letters : Letters) (ts : List Tok) : Prop :=
  ∀ t ∈ ts, ∃ rest, t.valid letters rest = true

theorem eachValid_of_source (source : isSource letters ts = true) : EachValid letters ts := by
  induction ts with
  | nil => exact nofun
  | cons t ts ih =>
    rw [isSource, Bool.and_eq_true] at source
    intro u member
    rcases mem_cons.mp member with rfl | later
    · exact ⟨_, source.1⟩
    · exact ih source.2 u later

theorem walk_source (each : EachValid letters ts) (depth : Nat) :
    walk b depth ts = depthAfter b depth (sourceSeen ts) := by
  induction ts generalizing depth with
  | nil => rfl
  | cons t ts ih =>
    obtain ⟨rest, valid⟩ := each t (.head _)
    have first : walk b depth (t :: ts) = (walk b depth [t]).bind (walk b · ts) := by
      simp only [walk]
      split_ifs <;> rfl
    have later := funext (ih fun u member => each u (.tail _ member))
    rw [first, later, walk_token valid]
    exact (depthAfter_append depth t.seen (sourceSeen ts)).symm

/-- The scan goes with the count over the tokens, and stops where the count does. -/
theorem cut_walk (each : EachValid letters ts) (depth : Nat) (s : Masked) :
    (∀ d, walk b depth ts = some d →
      cut b depth (sourceMasked ts ++ s) = (sourceMasked ts ++ ·) <$> cut b d s) ∧
    (walk b depth ts = none → ∃ body, cut b depth (sourceMasked ts ++ s) = some body ∧
      body.length < (sourceMasked ts).length) := by
  have scan := cut_append (b := b) (sourceMasked ts) s depth
  rwa [sourceMasked_snd, ← walk_source each] at scan

end

/-! Token trees. -/

/-- A step of the search for the end of a tree. -/
theorem tree_cons {opens : List Bracket} {t : Tok} {inner : List Tok} {b : Bracket}
    (found : tree opens (t :: ts) = some inner) (last : opens.getLast? = some b) :
    (∃ b' later, t = .punct b'.opener ∧ inner = t :: later ∧ tree (b' :: opens) ts = some later) ∨
    (∃ later, (∀ b' : Bracket, t ≠ .punct b'.opener ∧ t ≠ .punct b'.closer) ∧ inner = t :: later ∧
      tree opens ts = some later) ∨
    (opens = [b] ∧ t = .punct b.closer ∧ inner = []) ∨
    ∃ top next below later, opens = top :: next :: below ∧ t = .punct top.closer ∧
      inner = t :: later ∧ tree (next :: below) ts = some later := by
  rw [tree] at found
  split at found
  · rename_i b' opened
    obtain ⟨later, rest, same⟩ := Option.map_eq_some_iff.mp found
    cases t with
    | punct c => exact .inl ⟨b', later, by rw [opened_eq opened], same.symm, rest⟩
    | _ => cases opened
  · rename_i opened closed
    obtain ⟨later, rest, same⟩ := Option.map_eq_some_iff.mp found
    refine .inr (.inl ⟨later, fun b' => ⟨?_, ?_⟩, same.symm, rest⟩) <;> rintro rfl
    · exact opened_none opened b' rfl
    · exact closed_none closed b' rfl
  · rename_i b' opened closed
    cases t with
    | punct c =>
      obtain rfl : c = b'.closer := closed_eq closed
      split at found
      · cases found
      · split at found
        · rename_i top isTop
          obtain rfl : top = b := Option.some.inj last
          exact .inr (.inr (.inl ⟨rfl, by rw [isTop], (Option.some.inj found).symm⟩))
        · cases found
      · rename_i top next below
        split at found
        · rename_i isTop
          obtain ⟨later, rest, same⟩ := Option.map_eq_some_iff.mp found
          exact .inr (.inr (.inr ⟨top, next, below, later, rfl, by rw [isTop], same.symm, rest⟩))
        · cases found
    | _ => cases closed

theorem tree_shape {opens : List Bracket} {inner : List Tok} {b : Bracket}
    (found : tree opens ts = some inner) (last : opens.getLast? = some b) :
    ∃ rest, ts = inner ++ .punct b.closer :: rest := by
  induction ts generalizing opens inner with
  | nil => cases found
  | cons t ts ih =>
    rcases tree_cons found last with ⟨b', later, -, rfl, rest⟩ | ⟨later, -, rfl, rest⟩ |
      ⟨-, rfl, rfl⟩ | ⟨top, next, below, later, rfl, -, rfl, rest⟩
    · obtain ⟨behind, same⟩ := ih rest
        ((List.getLast?_cons_of_ne_nil (ne_nil_of_mem (mem_of_getLast? last))).trans last)
      exact ⟨behind, by rw [same]; rfl⟩
    · obtain ⟨behind, same⟩ := ih rest last
      exact ⟨behind, by rw [same]; rfl⟩
    · exact ⟨ts, rfl⟩
    · rw [List.getLast?_cons_cons] at last
      obtain ⟨behind, same⟩ := ih rest last
      exact ⟨behind, by rw [same]; rfl⟩

/-- A character literal that is a bracket. -/
def Tok.hasBracket (b : Bracket) : Tok → Bool
  | .chr _ (.plain c) _ => c = b.opener || c = b.closer
  | _ => false

theorem counts_iff {t : Tok} {b : Bracket} (noLiteral : t.hasBracket b = false) :
    (t.counts b.opener = true ↔ t = .punct b.opener) ∧
      (t.counts b.closer = true ↔ t = .punct b.closer) := by
  cases t with
  | punct c => simp [Tok.counts]
  | chr byte body suffix =>
    cases body with
    | plain c =>
      simp only [Tok.hasBracket, Bool.or_eq_false_iff, decide_eq_false_iff_not] at noLiteral
      simp [Tok.counts, noLiteral]
    | _ => simp [Tok.counts]
  | _ => simp [Tok.counts]

/-- Brackets of one kind suffice to find the end of a token tree. -/
theorem walk_tree {opens : List Bracket} {inner : List Tok} {b : Bracket}
    (found : tree opens ts = some inner) (last : opens.getLast? = some b)
    (noLiteral : ∀ t ∈ inner, t.hasBracket b = false) :
    walk b (opens.count b - 1) inner = some 0 := by
  induction ts generalizing opens inner with
  | nil => cases found
  | cons t ts ih =>
    have pos : 0 < opens.count b := count_pos_iff.mpr (mem_of_getLast? last)
    rcases tree_cons found last with ⟨b', later, rfl, rfl, rest⟩ | ⟨later, other, rfl, rest⟩ |
      ⟨rfl, rfl, rfl⟩ | ⟨top, next, below, later, rfl, rfl, rfl, rest⟩
    · have step := ih rest
        ((List.getLast?_cons_of_ne_nil (ne_nil_of_mem (mem_of_getLast? last))).trans last)
        fun u member => noLiteral u (.tail _ member)
      obtain ⟨atOpener, atCloser⟩ := counts_iff (noLiteral _ (.head _))
      by_cases ours : b' = b
      · subst ours
        rw [count_cons_self, Nat.add_sub_cancel] at step
        rw [walk, if_pos (atOpener.mpr rfl), Nat.sub_add_cancel pos, step]
      · rw [count_cons_of_ne ours] at step
        rw [walk, if_neg fun same => ours (Bracket.opener_inj (Tok.punct.inj (atOpener.mp same))),
          if_neg fun same => Bracket.opener_ne_closer b' b (Tok.punct.inj (atCloser.mp same)), step]
    · obtain ⟨atOpener, atCloser⟩ := counts_iff (noLiteral t (.head _))
      rw [walk, if_neg fun same => (other b).1 (atOpener.mp same),
        if_neg fun same => (other b).2 (atCloser.mp same)]
      exact ih rest last fun u member => noLiteral u (.tail _ member)
    · rw [count_singleton_self]
      rfl
    · rw [List.getLast?_cons_cons] at last
      have step := ih rest last fun u member => noLiteral u (.tail _ member)
      have pos' : 0 < (next :: below).count b := count_pos_iff.mpr (mem_of_getLast? last)
      obtain ⟨atOpener, atCloser⟩ := counts_iff (noLiteral _ (.head _))
      have notOpener : ¬ (Tok.punct top.closer).counts b.opener = true := fun same =>
        (Bracket.opener_ne_closer b top) (Tok.punct.inj (atOpener.mp same)).symm
      by_cases ours : top = b
      · subst ours
        rw [count_cons_self, Nat.add_sub_cancel, walk, if_neg notOpener, if_pos (atCloser.mpr rfl),
          if_neg (Nat.ne_of_gt pos'), step]
      · rw [count_cons_of_ne ours, walk, if_neg notOpener,
          if_neg fun same => ours (Bracket.closer_inj (Tok.punct.inj (atCloser.mp same))), step]

/-! The body and the token tree. -/

section
variable {letters : Letters} {classes : Classes} {b : Bracket}

theorem sourceMasked_append (ts us : List Tok) :
    sourceMasked (ts ++ us) = sourceMasked ts ++ sourceMasked us :=
  flatMap_append

/-- The scan finds the end of the tree exactly where the count says so. -/
theorem cut_eq_iff {vs inner : List Tok} (each : EachValid letters vs)
    (found : tree [b] vs = some inner) :
    cut b 0 (sourceMasked vs) = some (sourceMasked inner) ↔ walk b 0 inner = some 0 := by
  have shape : ∃ rest, vs = inner ++ .punct b.closer :: rest := tree_shape found rfl
  obtain ⟨rest, rfl⟩ := shape
  obtain ⟨goes, stops⟩ := cut_walk (b := b) (fun t member => each t (mem_append_left _ member)) 0
    (sourceMasked (.punct b.closer :: rest))
  rw [sourceMasked_append]
  cases walked : walk b 0 inner with
  | none =>
    obtain ⟨body, cut', short⟩ := stops walked
    rw [cut']
    refine iff_of_false (fun same => ?_) nofun
    rw [Option.some.inj same] at short
    exact Nat.lt_irrefl _ short
  | some d =>
    rw [goes d walked]
    cases d with
    | zero =>
      refine iff_of_true ?_ rfl
      have shut : cut b 0 (sourceMasked (.punct b.closer :: rest)) = some [] := by
        change cut b 0 ((b.closer, b.closer) :: sourceMasked rest) = some []
        rw [cut, if_neg (Bracket.opener_ne_closer b b).symm, if_pos rfl, if_pos rfl]
      rw [shut]
      exact congrArg some (append_nil _)
    | succ d =>
      refine iff_of_false (fun same => ?_) nofun
      have on : cut b (d + 1) (sourceMasked (.punct b.closer :: rest)) =
          ((b.closer, b.closer) :: ·) <$> cut b d (sourceMasked rest) := by
        change cut b (d + 1) ((b.closer, b.closer) :: sourceMasked rest) = _
        rw [cut, if_neg (Bracket.opener_ne_closer b b).symm, if_pos rfl,
          if_neg (Nat.succ_ne_zero d), Nat.add_sub_cancel]
      rw [on] at same
      cases later : cut b d (sourceMasked rest) with
      | none => rw [later] at same; cases same
      | some body =>
        rw [later] at same
        have length := congrArg length (Option.some.inj same)
        simp at length

theorem cut_none_iff {vs : List Tok} (each : EachValid letters vs) :
    cut b 0 (sourceMasked vs) = none ↔ (walk b 0 vs).isSome = true := by
  obtain ⟨goes, stops⟩ := cut_walk (b := b) each 0 []
  rw [append_nil] at goes stops
  cases walked : walk b 0 vs with
  | none =>
    obtain ⟨body, cut', -⟩ := stops walked
    rw [cut']
    exact iff_of_false nofun nofun
  | some d => exact iff_of_true (goes d walked) rfl

/-- Behind the gaps comes what the scan sees, or a raw string. -/
theorem gaps_or_raw (ts : List Tok) :
    ts.dropWhile Tok.isGap = ts.dropWhile Tok.isBlank ∨
      ∃ hashes body us, ts.dropWhile Tok.isGap = .raw none hashes body [] :: us := by
  induction ts with
  | nil => exact .inl rfl
  | cons t ts ih =>
    cases t with
    | space _ | line _ | block _ => exact ih
    | raw pre hashes body suffix =>
      cases pre with
      | some c => exact .inl rfl
      | none =>
        cases suffix with
        | nil => exact .inr ⟨hashes, body, ts, rfl⟩
        | cons c w => exact .inl rfl
    | _ => exact .inl rfl

theorem bang_seen (h : bang Tok.isGap ts = some us) : bang Tok.isBlank ts = some us := by
  rw [bang] at h ⊢
  obtain same | ⟨hashes, body, vs, raw⟩ := gaps_or_raw ts
  · rwa [← same]
  · rw [raw] at h
    simp at h

theorem isIdent_word {name : Chars} {t : Tok} (h : t.isIdent name = true) : t.word = name := by
  cases t with
  | ident isRaw w => exact of_decide_eq_true h
  | _ => cases h

/-- The scan sees every mention. -/
theorem mentions_sublist (name : Chars) (ts : List Tok) :
    mentions name ts <+ seenMentions name ts := by
  induction ts with
  | nil => exact .slnil
  | cons t ts ih =>
    refine Sublist.append ?_ ih
    by_cases isIdent : t.isIdent name = true
    · rw [if_pos isIdent, if_pos (isIdent_word isIdent)]
      cases found : bang Tok.isGap ts with
      | none => exact nil_sublist _
      | some us =>
        rw [bang_seen found]
    · rw [if_neg isIdent]
      exact nil_sublist _

theorem bang_suffix {skip : Tok → Bool} (h : bang skip ts = some us) : us <:+ ts := by
  have behind := dropWhile_suffix (p := skip) (l := ts)
  rw [bang] at h
  cases drop : ts.dropWhile skip with
  | nil => rw [drop] at h; cases h
  | cons t later =>
    rw [drop] at h behind
    dsimp only at h
    split at h
    · rw [← Option.some.inj h]
      exact (suffix_cons t later).trans behind
    · cases h

theorem seenMentions_suffix {name : Chars} (member : us ∈ seenMentions name ts) : us <:+ ts := by
  induction ts with
  | nil => cases member
  | cons t ts ih =>
    rw [seenMentions, mem_append] at member
    cases member with
    | inl here =>
      split at here
      · exact (bang_suffix (Option.mem_toList.mp here)).trans (suffix_cons t ts)
      · cases here
    | inr later => exact (ih later).trans (suffix_cons t ts)

/-- The three complaints are different texts. -/
structure Apart (path name : String) : Prop where
  shut : noDelimiter path name ≠ unterminated path name
  single : noDelimiter path name ≠ several path name
  whole : unterminated path name ≠ several path name

theorem apart_of_macros {name : String} (known : name ∈ macros) (path : String) :
    Apart path name := by
  simp only [macros, mem_cons, not_mem_nil, or_false] at known
  obtain rfl | rfl | rfl := known <;>
  · refine ⟨?_, ?_, ?_⟩ <;>
    · intro same
      have texts := Fail.tag.inj same
      simp only [toString, String.append_assoc, String.append_right_inj] at texts
      exact absurd texts (by decide)

theorem body_inj {body : Masked} {inner : List Tok} (h : body.map Prod.fst = sourceText inner)
    (h' : body.map Prod.snd = sourceSeen inner) : body = sourceMasked inner := by
  rw [← sourceMasked_eq, ← h, ← h', ← unzip_fst, ← unzip_snd, zip_unzip]

/-- The body is the token tree exactly where the count of the brackets finds it. -/
theorem bodyFrom_iff {path name : String} (apart : Apart path name)
    (source : isSource letters ts = true) (known : isKnown classes ts = true) :
    bodyFrom path name (sourceMasked ts) = treeFrom path name ts ↔ clearBody ts = true := by
  have none' (t : Tok) (us : List Tok) (drop : ts.dropWhile Tok.isBlank = t :: us)
      (closed : t.opened = none) : treeFrom path name ts = .error (noDelimiter path name) := by
    rw [treeFrom]
    obtain same | ⟨hashes, body, vs, raw⟩ := gaps_or_raw ts
    · rw [same, drop]
      dsimp only
      rw [closed]
    · rw [raw]
      rfl
  rw [bodyFrom, clearBody]
  cases ahead source known with
  | stop tokens mask =>
    rw [tokens, mask]
    refine iff_of_true ?_ rfl
    rw [treeFrom]
    obtain same | ⟨hashes, body, vs, raw⟩ := gaps_or_raw ts
    · rw [same, tokens]
    · rw [raw]
      rfl
  | other t us tokens noPunct p tail mask quiet =>
    have noMask : Bracket.opened p.2 = none := by
      refine List.find?_eq_none.mpr fun b _ same => ?_
      have opener : b.opener = p.2 := of_decide_eq_true same
      rw [← opener, b.isPunct_opener] at quiet
      cases quiet
    have noToken : t.opened = none := by
      cases t with
      | punct c => exact absurd rfl (noPunct c)
      | _ => rfl
    rw [none' t us tokens noToken, tokens, mask]
    dsimp only
    rw [noMask, noToken]
    exact iff_of_true rfl rfl
  | punct c us tokens mask =>
    cases opened : Bracket.opened c with
    | none =>
      have noToken : (Tok.punct c).opened = none := opened
      rw [none' _ us tokens noToken, tokens, mask]
      dsimp only
      rw [opened, noToken]
      exact iff_of_true rfl rfl
    | some b =>
      have each : EachValid letters us := by
        have behind := dropWhile_suffix (p := Tok.isBlank) (l := ts)
        rw [tokens] at behind
        exact eachValid_of_source (isSource_drop ((suffix_cons _ us).trans behind) source)
      have token : (Tok.punct c).opened = some b := opened
      rw [tokens, mask]
      dsimp only
      rw [opened, token]
      dsimp only
      obtain same | ⟨hashes, body, vs, raw⟩ := gaps_or_raw ts
      · rw [treeFrom, same, tokens]
        dsimp only
        rw [token]
        dsimp only
        rw [decide_eq_true rfl, Bool.true_and]
        cases found : tree [b] us with
        | some inner =>
          dsimp only
          rw [decide_eq_true_eq, ← cut_eq_iff each found]
          cases cut' : cut b 0 (sourceMasked us) with
          | none => exact iff_of_false nofun nofun
          | some body =>
            refine ⟨fun equal => ?_, fun equal => ?_⟩
            · injection equal with equal
              injection equal with equal
              rw [Prod.mk.injEq] at equal
              rw [body_inj equal.1 equal.2]
            · rw [Option.some.inj equal]
              dsimp only
              rw [sourceMasked_fst, sourceMasked_snd]
        | none =>
          dsimp only
          rw [← cut_none_iff each]
          cases cut' : cut b 0 (sourceMasked us) with
          | none => exact iff_of_true rfl rfl
          | some body => exact iff_of_false nofun nofun
      · have error : treeFrom path name ts = .error (noDelimiter path name) := by
          rw [treeFrom, raw]
          rfl
        rw [error, raw]
        refine iff_of_false ?_ (by simp)
        cases cut b 0 (sourceMasked us) with
        | none => exact fun same => apart.shut (Except.error.inj same).symm
        | some body => exact nofun

theorem bodyFrom_ne (path name : String) (s : Masked) : bodyFrom path name s ≠ .ok none := by
  rw [bodyFrom]
  split
  · exact nofun
  · split
    · exact nofun
    · split <;> exact nofun

theorem treeFrom_ne {path name : String} (apart : Apart path name) (ts : List Tok) :
    treeFrom path name ts ≠ .error (several path name) := by
  rw [treeFrom]
  split
  · exact fun same => apart.single (Except.error.inj same)
  · split
    · exact fun same => apart.single (Except.error.inj same)
    · split
      · exact fun same => apart.whole (Except.error.inj same)
      · exact nofun

/-- In a clear source, and in no other one, the body is the token tree of the declaration. -/
theorem macroBody_iff {name : String} (named : IsName classes name.toList) (path : String)
    (apart : Apart path name) (source : isSource letters ts = true)
    (known : isKnown classes ts = true) :
    macroBody path name classes (sourceText ts) (sourceSeen ts) = declared path name ts ↔
      isClear name.toList ts = true := by
  have sub := mentions_sublist name.toList ts
  rw [macroBody, declared, isClear, sourceMasked_eq, hits_source named source known false nofun]
  cases found : mentions name.toList ts with
  | nil =>
    cases seen : seenMentions name.toList ts with
    | nil => exact iff_of_true rfl rfl
    | cons us others =>
      refine iff_of_false ?_ nofun
      cases others with
      | nil => exact bodyFrom_ne path name _
      | cons _ _ => exact nofun
  | cons us others =>
    rw [found] at sub
    cases others with
    | nil =>
      cases seen : seenMentions name.toList ts with
      | nil => rw [seen] at sub; cases sub
      | cons vs more =>
        rw [seen] at sub
        cases more with
        | nil =>
          obtain rfl : us = vs := List.cons.inj (sub.eq_of_length rfl) |>.1
          have behind : us <:+ ts := seenMentions_suffix (by rw [seen]; exact .head _)
          exact bodyFrom_iff apart (isSource_drop behind source) (isKnown_drop behind known)
        | cons _ _ =>
          exact iff_of_false (fun same => treeFrom_ne apart us same.symm) (by simp)
    | cons us' others =>
      refine iff_of_true ?_ rfl
      obtain ⟨v, v', more, seen⟩ : ∃ v v' more, seenMentions name.toList ts = v :: v' :: more := by
        have long := sub.length_le
        match seenMentions name.toList ts, long with
        | v :: v' :: more, _ => exact ⟨v, v', more, rfl⟩
      rw [seen]
      rfl

end

theorem isName_of_macros (classes : Classes) {name : String} (known : name ∈ macros) :
    IsName classes name.toList := by
  have all : (macros.all fun name => 2 ≤ name.toList.length &&
      name.toList.all fun c => c.isAlphanum || c = '_') = true := by decide +kernel
  have here := all_eq_true.mp all name known
  rw [Bool.and_eq_true, decide_eq_true_eq, all_eq_true] at here
  exact ⟨here.1, fun c member => (ascii_letter classes (here.2 c member)).1⟩

/-- The mask is as long as the source, and it is the lexical one for exactly the plain sources.
Of a source that the masking function reads as Rust does, what is cut out is the token tree of
the declaration exactly where the scan sees that declaration, no other one, and the end of its
tree; the end is seen unless a character literal is a bracket of the tree's kind. -/
theorem declarations_exact (letters : Letters) (classes : Classes) {ts : List Tok}
    (source : isSource letters ts = true) :
    (sourceMask ts).length = (sourceText ts).length ∧
      (stripNoise (sourceText ts) = .ok (sourceMask ts) ↔ isPlain ts = true) ∧
      (isRead ts = true → isKnown classes ts = true → ∀ path, ∀ name ∈ macros,
        (declaration classes path name (sourceText ts) = declared path name ts ↔
          isClear name.toList ts = true)) ∧
      ∀ b us inner, tree [b] us = some inner → (∀ t ∈ inner, t.hasBracket b = false) →
        walk b 0 inner = some 0 := by
  refine ⟨sourceMask_length ts, stripNoise_eq_iff source, fun read known path name listed => ?_,
    fun b us inner found noLiteral => ?_⟩
  · rw [declaration, stripNoise_read source read]
    exact macroBody_iff (isName_of_macros classes listed) path
      (apart_of_macros listed path) source known
  · have walked : walk b ([b].count b - 1) inner = some 0 := walk_tree found rfl noLiteral
    rwa [count_singleton_self] at walked

/-- `test_tags!` with one program, whose tag has an argument. -/
def oneDeclaration (argument : Tok) : List Tok :=
  [.ident false "test_tags".toList, .punct '!', .space ' ', .punct '\x7b', .space '\n',
    .line " one program".toList, .space '\n', .ident false "prog".toList, .punct ':', .space ' ',
    .ident false "__msg".toList, .punct '(', argument, .punct ')', .punct ';',
      .space '\n', .punct '\x7d']

/-- The argument is a string that holds a bracket. -/
def bracketString : List Tok := oneDeclaration (.str none "\x7d".toList [])

theorem declarations_exact_one :
    isSource Letters.asciiOnly bracketString = true ∧
      stripNoise (sourceText bracketString) = .ok (sourceMask bracketString) ∧
      declaration .asciiOnly "prog.rs" "test_tags" (sourceText bracketString) =
        declared "prog.rs" "test_tags" bracketString := by
  have source : isSource Letters.asciiOnly bracketString = true := by decide +kernel
  have plain : isPlain bracketString = true := by decide +kernel
  obtain ⟨-, masks, cuts, -⟩ := declarations_exact Letters.asciiOnly .asciiOnly source
  exact ⟨source, masks.mpr plain,
    (cuts (by decide +kernel) (by decide +kernel) _ _ (by decide)).mpr (by decide +kernel)⟩

/-- A declaration between two character literals, each a double quote. -/
def quoted (inside : List Tok) : List Tok :=
  let literal (name : Char) : List Tok :=
    [.ident false "const".toList, .space ' ', .ident false [name], .punct ':', .space ' ',
      .ident false "char".toList, .punct '=', .chr false (.plain '"') [], .punct ';']
  literal 'A' ++ .space '\n' :: (inside ++ .space '\n' :: literal 'B')

def byteString : List Tok := [.raw (some 'b') 0 ['x'] []]

/-- The masking function takes the quote of a character literal for the beginning of a string: a
declaration between two such literals is missed, and one in a string between them is invented.
A bracket in a character literal counts. Of a raw byte string the first letter stays. -/
theorem declarations_inexact :
    (isSource Letters.asciiOnly (quoted (oneDeclaration (.number ['1']))) = true ∧
      declaration .asciiOnly "prog.rs" "test_tags"
        (sourceText (quoted (oneDeclaration (.number ['1'])))) = .ok none ∧
      declared "prog.rs" "test_tags" (quoted (oneDeclaration (.number ['1']))) =
        .ok (some (sourceText ((oneDeclaration (.number ['1'])).drop 4).dropLast,
          sourceMask ((oneDeclaration (.number ['1'])).drop 4).dropLast))) ∧
    (isSource Letters.asciiOnly (quoted [.str none "test_tags!()".toList []]) = true ∧
      declaration .asciiOnly "prog.rs" "test_tags"
        (sourceText (quoted [.str none "test_tags!()".toList []])) = .ok (some ([], [])) ∧
      declared "prog.rs" "test_tags" (quoted [.str none "test_tags!()".toList []]) = .ok none) ∧
    (isSource Letters.asciiOnly (oneDeclaration (.chr false (.plain '\x7b') [])) = true ∧
      isPlain (oneDeclaration (.chr false (.plain '\x7b') [])) = true ∧
      declaration .asciiOnly "prog.rs" "test_tags"
          (sourceText (oneDeclaration (.chr false (.plain '\x7b') []))) =
        .error (.tag "prog.rs: unterminated test_tags! body")) ∧
    isSource Letters.asciiOnly byteString = true ∧ sourceText byteString = "br\"x\"".toList ∧
      stripNoise (sourceText byteString) = .ok "b    ".toList ∧
        sourceMask byteString = "     ".toList := by
  refine ⟨?_, ?_, ?_, ?_⟩ <;> decide +kernel

end BpfEquiv.Tags
