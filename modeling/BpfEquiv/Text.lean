import Mathlib

/-!
Texts as lists of characters: lines, blanks and parts of texts, as Python's string methods
see them.
-/
namespace Text

open List

/-- Characters at which splitlines cuts. -/
def isBreak (c : Char) : Bool :=
  [0x0a, 0x0b, 0x0c, 0x0d, 0x1c, 0x1d, 0x1e, 0x85, 0x2028, 0x2029].contains c.toNat

/-- The lines of a text; the line read so far is an accumulator. -/
def splitAux : List Char → List Char → List (List Char)
  | line, [] => if line.isEmpty then [] else [line]
  | line, '\r' :: '\n' :: cs => line :: splitAux [] cs
  | line, c :: cs => if isBreak c then line :: splitAux [] cs else splitAux (line ++ [c]) cs

def splitlines (text : List Char) : List (List Char) := splitAux [] text

def unlines (lines : List (List Char)) : List Char := lines.flatMap (· ++ ['\n'])

def isSpace (c : Char) : Bool :=
  let n := c.toNat
  decide (9 ≤ n ∧ n ≤ 13) || decide (0x1c ≤ n ∧ n ≤ 0x20) || decide (0x2000 ≤ n ∧ n ≤ 0x200a) ||
    [0x85, 0xa0, 0x1680, 0x2028, 0x2029, 0x202f, 0x205f, 0x3000].contains n

def strip (text : List Char) : List Char :=
  ((text.dropWhile isSpace).reverse.dropWhile isSpace).reverse

def contains (part text : List Char) : Bool := text.tails.any part.isPrefixOf

theorem contains_iff {part text : List Char} : contains part text = true ↔ part <:+: text := by
  simp only [contains, any_eq_true, mem_tails, isPrefixOf_iff_prefix]
  exact ⟨fun ⟨tail, suffix, start⟩ => infix_iff_prefix_suffix.mpr ⟨tail, start, suffix⟩,
    fun inside => by
      obtain ⟨tail, start, suffix⟩ := infix_iff_prefix_suffix.mp inside
      exact ⟨tail, suffix, start⟩⟩

theorem splitAux_step {line cs : List Char} {c : Char} (single : ∀ ds, c = '\r' → cs ≠ '\n' :: ds) :
    splitAux line (c :: cs) =
      if isBreak c then line :: splitAux [] cs else splitAux (line ++ [c]) cs := by
  rw [splitAux.eq_def]
  split
  · next shape => cases shape
  · rename_i ds shape
    obtain ⟨isReturn, rest⟩ := List.cons.inj shape
    exact absurd rest (single ds isReturn)
  · rename_i d ds _ shape
    obtain ⟨rfl, rfl⟩ := List.cons.inj shape
    rfl

theorem splitAux_line {line rest : List Char} (plain : ∀ c ∈ line, isBreak c = false)
    (before : List Char) :
    splitAux before (line ++ '\n' :: rest) = (before ++ line) :: splitAux [] rest := by
  induction line generalizing before with
  | nil => simp [splitAux, isBreak]
  | cons c cs ih =>
    have here := plain c (.head _)
    have next := ih (fun d later => plain d (.tail c later)) (before ++ [c])
    have notReturn : c ≠ '\r' := by
      rintro rfl
      simp [isBreak] at here
    rw [cons_append, splitAux_step fun ds isReturn => absurd isReturn notReturn, here,
      if_neg Bool.false_ne_true, next, append_assoc, singleton_append]

theorem splitAux_newline (before front rest : List Char) :
    splitAux before (front ++ '\n' :: rest) =
      splitAux before (front ++ ['\n']) ++ splitAux [] rest := by
  induction before, front using splitAux.induct with
  | case1 line => simp [splitAux, isBreak]
  | case2 line => simp [splitAux, isBreak]
  | case3 line cs ih =>
    simp only [cons_append]
    rw [splitAux, splitAux, ih]
    rfl
  | case4 line c cs notPair isBrk ih =>
    by_cases pair : c = '\r' ∧ cs = []
    · -- The newline belongs to the return before it.
      obtain ⟨rfl, rfl⟩ := pair
      rfl
    have single (tail ds : List Char) (isReturn : c = '\r') : cs ++ '\n' :: tail ≠ '\n' :: ds := by
      intro same
      cases cs with
      | nil => exact pair ⟨isReturn, rfl⟩
      | cons d cs => exact notPair cs isReturn (congrArg (· :: cs) (List.cons.inj same).1)
    rw [cons_append, cons_append, splitAux_step (single rest), splitAux_step (single []),
      if_pos isBrk, if_pos isBrk, ih]
    rfl
  | case5 line c cs notPair noBrk ih =>
    have notReturn : c ≠ '\r' := by
      rintro rfl
      exact noBrk (by decide)
    rw [cons_append, cons_append, splitAux_step fun ds isReturn => absurd isReturn notReturn,
      splitAux_step fun ds isReturn => absurd isReturn notReturn, if_neg noBrk, if_neg noBrk, ih]

theorem splitlines_append (front rest : List Char) :
    splitlines (front ++ '\n' :: rest) = splitlines (front ++ ['\n']) ++ splitlines rest :=
  splitAux_newline [] front rest

/-- Lines that contain no line break are the lines of the printed text. -/
theorem splitlines_unlines {lines : List (List Char)}
    (plain : ∀ line ∈ lines, ∀ c ∈ line, isBreak c = false) :
    splitlines (unlines lines) = lines := by
  unfold splitlines
  induction lines with
  | nil => rfl
  | cons line lines ih =>
    have rest := ih fun l later => plain l (.tail line later)
    rw [unlines, flatMap_cons, append_assoc, singleton_append,
      splitAux_line (plain line (.head _))]
    exact congrArg (line :: ·) rest

theorem word_start_iff {k w rest : List Char} (hk : ' ' ∉ k) (hw : ' ' ∉ w) :
    k ++ [' '] <+: w ++ ' ' :: rest ↔ k = w := by
  induction k generalizing w with
  | nil =>
    cases w with
    | nil => simp
    | cons d ds =>
      have differs : ¬ (' ' = d) := fun same => hw (same ▸ (.head _))
      simp [cons_prefix_cons, differs]
  | cons c cs ih =>
    cases w with
    | nil =>
      have differs : ¬ (c = ' ') := fun same => hk (same ▸ (.head _))
      simp [cons_prefix_cons, differs]
    | cons d ds =>
      have rest := ih (fun later => hk (.tail c later))
        fun later => hw (.tail d later)
      rw [cons_append, cons_append, cons_prefix_cons, rest, List.cons.injEq]

end Text
