import Mathlib

/-!
Substitution of tokens in a text, in several passes.

A pass looks for one kind of token from left to right and shows a fixed text in the place of
each. The passes after the first see the texts that were shown before. Where no token of a
later pass can touch a shown text, the passes amount to a single division of the text into
plain characters and tokens, and two texts look the same after all passes just if they are the
same up to tokens that are shown alike.
-/
namespace Subst

open List Option

/-- Digits and word characters. What they are beyond ASCII is left open. -/
structure Classes where
  digit : Char → Bool
  word : Char → Bool
  ascii : ∀ c : Char, c.toNat < 128 → digit c = c.isDigit ∧ word c = (c.isAlphanum || c = '_')

/-- No digits and word characters beyond ASCII. -/
def Classes.asciiOnly : Classes where
  digit := Char.isDigit
  word c := c.isAlphanum || c = '_'
  ascii _ _ := ⟨rfl, rfl⟩

/-- A part of a pattern. Repetitions take as much as they can, and the patterns made of them
need no second try. -/
inductive Item where
  | one (c : Char)
  | opt (c : Char)
  | digits
  | word
  | upTo (c : Char)
  | either (a b : List Char)

/-- A kind of token: what stands in front of it and is kept, the token, and what is kept behind
it, with a word boundary at either end or not. -/
structure Pattern (κ : Type) where
  kind : κ
  wordStart : Bool
  lead : List Item
  tok : List Item
  tail : List Item
  wordEnd : Bool

/-- A plain character or a token. -/
inductive Sym (κ : Type) where
  | ch (c : Char)
  | tok (k : κ) (t : List Char)
  deriving DecidableEq

section Find
variable (cls : Classes) {κ : Type}

def Item.eat : Item → List Char → Option (List Char × List Char)
  | .one c, s =>
    match s with
    | [] => none
    | d :: s => if d = c then some ([c], s) else none
  | .opt c, s =>
    match s with
    | [] => some ([], [])
    | d :: s => if d = c then some ([c], s) else some ([], d :: s)
  | .digits, s =>
    if s.takeWhile cls.digit = [] then none
    else some (s.takeWhile cls.digit, s.dropWhile cls.digit)
  | .word, s =>
    if s.takeWhile cls.word = [] then none
    else some (s.takeWhile cls.word, s.dropWhile cls.word)
  | .upTo c, s => some (s.takeWhile (· ≠ c), s.dropWhile (· ≠ c))
  | .either a b, s =>
    if a.isPrefixOf s then some (a, s.drop a.length)
    else if b.isPrefixOf s then some (b, s.drop b.length)
    else none

def eatAll : List Item → List Char → Option (List Char × List Char)
  | [], s => some ([], s)
  | it :: its, s =>
    match it.eat cls s with
    | none => none
    | some (a, s') =>
      match eatAll its s' with
      | none => none
      | some (b, s'') => some (a ++ b, s'')

def wordAt : Option Char → Bool
  | none => false
  | some c => cls.word c

/-- The token at the front of a text: what is kept before it, the token itself, and what is kept
behind it. -/
def Pattern.find (p : Pattern κ) (prev : Option Char) (s : List Char) :
    Option (List Char × List Char × List Char) :=
  if p.wordStart && wordAt cls prev then none
  else
    match eatAll cls p.lead s with
    | none => none
    | some (l, s₁) =>
      match eatAll cls p.tok s₁ with
      | none => none
      | some (t, s₂) =>
        match eatAll cls p.tail s₂ with
        | none => none
        | some (r, s₃) => if p.wordEnd && wordAt cls s₃.head? then none else some (l, t, r)

end Find

section Pass
variable {κ : Type}

/-- The characters up to the first token. -/
def run : List (Sym κ) → List Char
  | .ch c :: s => c :: run s
  | _ => []

def chars (s : List Char) : List (Sym κ) := s.map .ch

variable (cls : Classes)

/-- One pass. The number counts characters that belong to the token found last. -/
def refine (p : Pattern κ) : Nat → Option Char → List (Sym κ) → List (Sym κ)
  | _, _, [] => []
  | _, _, .tok k t :: s => .tok k t :: refine p 0 none s
  | n + 1, _, .ch c :: s => refine p n (some c) s
  | 0, prev, .ch c :: s =>
    match p.find cls prev (c :: run s) with
    | none => .ch c :: refine p 0 (some c) s
    | some (l, t, r) =>
      chars l ++ .tok p.kind t ::
        (chars r ++ refine p (l.length + t.length + r.length - 1) (some c) s)

def restore : List (Sym κ) → List Char
  | [] => []
  | .ch c :: s => c :: restore s
  | .tok _ t :: s => t ++ restore s

def render (shown : κ → List Char) : List (Sym κ) → List Char
  | [] => []
  | .ch c :: s => c :: render shown s
  | .tok k _ :: s => shown k ++ render shown s

def sub (shown : κ → List Char) (p : Pattern κ) (s : List Char) : List Char :=
  render shown (refine cls p 0 none (chars s))

end Pass

/-! Texts of symbols. -/

section Texts
variable {κ : Type} {shown : κ → List Char}

@[simp] theorem run_chars (s : List Char) : run (chars s : List (Sym κ)) = s := by
  induction s with
  | nil => rfl
  | cons c s ih => exact congrArg (c :: ·) ih

@[simp] theorem render_chars_append (s : List Char) (m : List (Sym κ)) :
    render shown (chars s ++ m) = s ++ render shown m := by
  induction s with
  | nil => rfl
  | cons c s ih => exact congrArg (c :: ·) ih

@[simp] theorem restore_chars_append (s : List Char) (m : List (Sym κ)) :
    restore (chars s ++ m) = s ++ restore m := by
  induction s with
  | nil => rfl
  | cons c s ih => exact congrArg (c :: ·) ih

theorem chars_append (s t : List Char) : (chars (s ++ t) : List (Sym κ)) = chars s ++ chars t :=
  map_append

theorem restore_chars (s : List Char) : restore (chars s : List (Sym κ)) = s := by
  have whole := restore_chars_append s ([] : List (Sym κ))
  rwa [append_nil, restore, append_nil] at whole

theorem run_prefix_restore (m : List (Sym κ)) : run m <+: restore m := by
  induction m with
  | nil => exact prefix_rfl
  | cons x m ih =>
    cases x with
    | ch c => exact (prefix_cons_inj c).mpr ih
    | tok k t => exact nil_prefix

end Texts

/-! What a pattern takes. -/

variable {s a r l : List Char} {its : List Item} {prev : Option Char} {c stop : Char}

variable {t : List Char}

section Eat
variable {cls : Classes} {κ : Type}

theorem eat_append {it : Item} (h : it.eat cls s = some (a, r)) : s = a ++ r := by
  cases it with
  | one c =>
    cases s with
    | nil => cases h
    | cons d s =>
      simp only [Item.eat] at h
      split_ifs at h with same
      cases h
      rw [same]
      rfl
  | opt c =>
    cases s with
    | nil =>
      cases h
      rfl
    | cons d s =>
      simp only [Item.eat] at h
      split_ifs at h with same
      · cases h
        rw [same]
        rfl
      · cases h
        rfl
  | digits | word =>
    simp only [Item.eat] at h
    split_ifs at h
    cases h
    exact takeWhile_append_dropWhile.symm
  | upTo c =>
    cases h
    exact takeWhile_append_dropWhile.symm
  | either a b =>
    simp only [Item.eat] at h
    split_ifs at h with start start
    all_goals
      cases h
      exact prefix_append_drop (List.isPrefixOf_iff_prefix.mp start)

theorem eatAll_cons {it : Item} (h : eatAll cls (it :: its) s = some (a, r)) :
    ∃ b d s', it.eat cls s = some (b, s') ∧ eatAll cls its s' = some (d, r) ∧ a = b ++ d := by
  rw [eatAll] at h
  split at h
  · cases h
  rename_i b s' first
  split at h
  · cases h
  · rename_i d s'' later
    cases h
    exact ⟨b, d, s', first, later, rfl⟩

theorem eatAll_append (h : eatAll cls its s = some (a, r)) :
    s = a ++ r := by
  induction its generalizing s a with
  | nil =>
    cases h
    rfl
  | cons it its ih =>
    obtain ⟨b, d, s', first, later, rfl⟩ := eatAll_cons h
    rw [eat_append first, ih later, append_assoc]

theorem find_parts {p : Pattern κ} (h : p.find cls prev s = some (l, t, r)) :
    ∃ s₁ s₂ s₃, eatAll cls p.lead s = some (l, s₁) ∧ eatAll cls p.tok s₁ = some (t, s₂) ∧
      eatAll cls p.tail s₂ = some (r, s₃) := by
  unfold Pattern.find at h
  split at h
  · cases h
  split at h
  · cases h
  rename_i l' s₁ lead
  split at h
  · cases h
  rename_i t' s₂ tok
  split at h
  · cases h
  rename_i r' s₃ tail
  split at h
  · cases h
  cases h
  exact ⟨s₁, s₂, s₃, lead, tok, tail⟩

theorem find_append {p : Pattern κ}
    (h : p.find cls prev s = some (l, t, r)) : l ++ (t ++ r) <+: s := by
  obtain ⟨s₁, s₂, s₃, lead, tok, tail⟩ := find_parts h
  rw [eatAll_append lead, eatAll_append tok, eatAll_append tail, ← append_assoc,
    ← append_assoc, ← append_assoc]
  exact prefix_append _ s₃

/-- The whole text is what the token part of the pattern takes. -/
def Pattern.IsToken (cls : Classes) (p : Pattern κ) (t : List Char) : Prop :=
  ∃ rest, eatAll cls p.tok (t ++ rest) = some (t, rest)

theorem find_isToken {p : Pattern κ}
    (h : p.find cls prev s = some (l, t, r)) : p.IsToken cls t := by
  obtain ⟨s₁, s₂, s₃, -, tok, -⟩ := find_parts h
  refine ⟨s₂, ?_⟩
  rw [← eatAll_append tok]
  exact tok

/-- The pattern starts with this character. -/
def Pattern.StartsWith (p : Pattern κ) (d : Char) : Prop := (p.lead ++ p.tok).head? = some (.one d)

theorem eatAll_one {d : Char} (other : c ≠ d) :
    eatAll cls (.one d :: its) (c :: s) = none := by
  rw [eatAll, Item.eat]
  simp only [other, if_false]

theorem find_other {p : Pattern κ} {d : Char} (starts : p.StartsWith d) (other : c ≠ d)
    (prev : Option Char) (s : List Char) : p.find cls prev (c :: s) = none := by
  unfold Pattern.find
  unfold Pattern.StartsWith at starts
  split
  · rfl
  cases lead : p.lead with
  | nil =>
    rw [lead, nil_append] at starts
    cases tok : p.tok with
    | nil =>
      rw [tok] at starts
      cases starts
    | cons it its =>
      rw [tok] at starts
      cases starts
      simp only [eatAll, Item.eat, other, if_false]
  | cons it its =>
    rw [lead] at starts
    cases starts
    rw [eatAll_one other]

theorem eatAll_one_ne {d : Char}
    (h : eatAll cls (.one d :: its) s = some (a, r)) : a ≠ [] := by
  obtain ⟨b, _, s', first, -, rfl⟩ := eatAll_cons h
  cases s with
  | nil => cases first
  | cons c s =>
    simp only [Item.eat] at first
    split_ifs at first
    cases first
    exact cons_ne_nil _ _

/-- A token is found with at least one character. -/
theorem find_ne_nil {p : Pattern κ} {d : Char} (starts : p.StartsWith d)
    (h : p.find cls prev s = some (l, t, r)) :
    0 < l.length + t.length + r.length := by
  have some' : l ≠ [] ∨ t ≠ [] := by
    obtain ⟨s₁, s₂, _, lead, tok, -⟩ := find_parts h
    unfold Pattern.StartsWith at starts
    cases first : p.lead with
    | nil =>
      rw [first, nil_append] at starts
      obtain ⟨its, shape⟩ := List.head?_eq_some_iff.mp starts
      rw [shape] at tok
      exact .inr (eatAll_one_ne tok)
    | cons it its =>
      rw [first] at starts lead
      cases starts
      exact .inl (eatAll_one_ne lead)
  rcases some' with some' | some'
  · have := length_pos_of_ne_nil some'
    omega
  · have := length_pos_of_ne_nil some'
    omega

theorem find_prev {p : Pattern κ} {prev' : Option Char}
    (same : wordAt cls prev = wordAt cls prev') (s : List Char) :
    p.find cls prev s = p.find cls prev' s := by
  unfold Pattern.find
  rw [same]

/-! Patterns that do not touch a character. -/

/-- The item never takes this character. -/
def Item.Avoids (cls : Classes) (stop : Char) : Item → Prop
  | .one c => c ≠ stop
  | .opt c => c ≠ stop
  | .digits => cls.digit stop = false
  | .word => cls.word stop = false
  | .upTo _ => False
  | .either a b => stop ∉ a ∧ stop ∉ b

theorem prefix_append_stop (free : stop ∉ a) :
    a <+: s ++ stop :: t ↔ a <+: s := by
  constructor
  · intro h
    by_cases short : a.length ≤ s.length
    · exact prefix_of_prefix_length_le h (prefix_append s _) short
    obtain ⟨rest, whole⟩ := h
    have inside : (a ++ rest)[s.length]? = some stop := by
      rw [whole, List.getElem?_append_right (Nat.le_refl _), Nat.sub_self]
      rfl
    rw [List.getElem?_append_left (by omega)] at inside
    exact absurd (mem_of_getElem? inside) free
  · intro h
    exact h.trans (prefix_append s _)

theorem takeWhile_stop {f : Char → Bool} (no : f stop = false) (s t : List Char) :
    (s ++ stop :: t).takeWhile f = s.takeWhile f ∧
      (s ++ stop :: t).dropWhile f = s.dropWhile f ++ stop :: t := by
  induction s with
  | nil => simp [no]
  | cons c s ih =>
    by_cases yes : f c = true
    · simp [yes, ih.1, ih.2]
    · simp [yes]

theorem eat_stop {it : Item} (avoids : it.Avoids cls stop) (s t : List Char) :
    it.eat cls (s ++ stop :: t) = (it.eat cls s).map fun (a, r) => (a, r ++ stop :: t) := by
  cases it with
  | one c =>
    cases s with
    | nil => simp [Item.eat, show stop ≠ c from fun same => avoids same.symm]
    | cons d s =>
      simp only [cons_append, Item.eat]
      split <;> rfl
  | opt c =>
    cases s with
    | nil => simp [Item.eat, show stop ≠ c from fun same => avoids same.symm]
    | cons d s =>
      simp only [cons_append, Item.eat]
      split <;> rfl
  | digits | word =>
    simp only [Item.eat, (takeWhile_stop avoids s t).1, (takeWhile_stop avoids s t).2]
    split <;> rfl
  | upTo c => cases avoids
  | either a b =>
    have drop {x : List Char} (start : x <+: s) :
        (s ++ stop :: t).drop x.length = s.drop x.length ++ stop :: t :=
      drop_append_of_le_length start.length_le
    simp only [Item.eat, isPrefixOf_iff_prefix, prefix_append_stop avoids.1,
      prefix_append_stop avoids.2]
    split
    · next start => rw [drop start]; rfl
    · split
      · next start => rw [drop start]; rfl
      · rfl

theorem eatAll_stop (avoids : ∀ it ∈ its, it.Avoids cls stop)
    (s t : List Char) :
    eatAll cls its (s ++ stop :: t) = (eatAll cls its s).map fun (a, r) => (a, r ++ stop :: t) := by
  induction its generalizing s with
  | nil => rfl
  | cons it its ih =>
    rw [eatAll, eatAll, eat_stop (avoids it mem_cons_self)]
    cases it.eat cls s with
    | none => rfl
    | some out =>
      simp only [map_some, ih (fun x inside => avoids x (.tail it inside))]
      cases eatAll cls its out.2 <;> rfl

/-- Nothing of the pattern takes the character, and it is no word character. -/
structure Pattern.Avoids (cls : Classes) (stop : Char) (p : Pattern κ) : Prop where
  lead : ∀ it ∈ p.lead, it.Avoids cls stop
  tok : ∀ it ∈ p.tok, it.Avoids cls stop
  tail : ∀ it ∈ p.tail, it.Avoids cls stop
  noWord : cls.word stop = false

theorem find_stop {p : Pattern κ} (avoids : p.Avoids cls stop) (prev : Option Char)
    (s t : List Char) : p.find cls prev (s ++ stop :: t) = p.find cls prev s := by
  have next (s : List Char) : wordAt cls (s ++ stop :: t).head? = wordAt cls s.head? := by
    cases s with
    | nil => exact avoids.noWord
    | cons c s => rfl
  unfold Pattern.find
  rw [eatAll_stop avoids.lead]
  split
  · rfl
  cases eatAll cls p.lead s with
  | none => rfl
  | some l =>
    simp only [map_some, eatAll_stop avoids.tok]
    cases eatAll cls p.tok l.2 with
    | none => rfl
    | some k =>
      simp only [map_some, eatAll_stop avoids.tail]
      cases eatAll cls p.tail k.2 with
      | none => rfl
      | some r => simp only [map_some, next]

end Eat

/-! One pass. -/

section Refine
variable {cls : Classes} {κ : Type} {p : Pattern κ} {d : Char}

theorem find_skip_le {s : List (Sym κ)}
    (h : p.find cls prev (c :: run s) = some (l, t, r)) :
    l.length + t.length + r.length - 1 ≤ (run s).length := by
  have inside := (find_append h).length_le
  simp only [length_append, length_cons] at inside
  omega

/-- A pass changes nothing but the division. -/
theorem restore_refine (starts : p.StartsWith d) {n : Nat} {m : List (Sym κ)}
    (inside : n ≤ (run m).length) : restore (refine cls p n prev m) = (restore m).drop n := by
  induction m generalizing n prev with
  | nil => rw [refine, restore, drop_nil]
  | cons x m ih =>
    cases x with
    | tok k t =>
      obtain rfl : n = 0 := Nat.le_zero.mp inside
      rw [refine, restore, ih (Nat.zero_le _)]
      rfl
    | ch c =>
      cases n with
      | succ n => exact ih (Nat.le_of_succ_le_succ inside)
      | zero =>
        rw [refine]
        split
        · rw [restore, ih (Nat.zero_le _)]
          rfl
        rename_i l t r found
        have skip := find_skip_le found
        have positive := find_ne_nil starts found
        have whole : l ++ (t ++ r) <+: c :: restore m :=
          (find_append found).trans ((prefix_cons_inj c).mpr (run_prefix_restore m))
        simp only [restore_chars_append, restore, ih skip, drop_zero]
        obtain ⟨rest, eq⟩ := whole
        have dropped : (restore m).drop (l.length + t.length + r.length - 1) = rest := by
          have tail := congrArg (List.drop (l.length + t.length + r.length)) eq
          rw [drop_left' (by simp only [length_append]; omega)] at tail
          rw [tail, show l.length + t.length + r.length =
            (l.length + t.length + r.length - 1) + 1 by omega, drop_succ_cons]
          rfl
        rw [dropped, ← eq, append_assoc, append_assoc]

theorem mem_refine {n : Nat} {m : List (Sym κ)} {k : κ}
    (h : .tok k t ∈ refine cls p n prev m) : .tok k t ∈ m ∨ (k = p.kind ∧ p.IsToken cls t) := by
  induction m generalizing n prev with
  | nil => cases h
  | cons x m ih =>
    have later {n : Nat} {prev : Option Char} (h : .tok k t ∈ refine cls p n prev m) :
        .tok k t ∈ x :: m ∨ (k = p.kind ∧ p.IsToken cls t) :=
      (ih h).imp_left (.tail x)
    have noChar {s : List Char} : .tok k t ∉ (chars s : List (Sym κ)) := by
      intro inside
      obtain ⟨c, _, same⟩ := mem_map.mp inside
      cases same
    cases x with
    | tok k' t' =>
      rw [refine] at h
      cases h with
      | head => exact .inl (.head _)
      | tail _ h => exact later h
    | ch c =>
      cases n with
      | succ n => exact later h
      | zero =>
        rw [refine] at h
        split at h
        · cases h with
          | tail _ h => exact later h
        rename_i l t' r found
        rcases mem_append.mp h with h | h
        · exact absurd h noChar
        cases h with
        | head => exact .inr ⟨rfl, find_isToken found⟩
        | tail _ h =>
          rcases mem_append.mp h with h | h
          · exact absurd h noChar
          · exact later h

theorem refine_prev {prev prev' : Option Char} (same : wordAt cls prev = wordAt cls prev')
    (m : List (Sym κ)) : refine cls p 0 prev m = refine cls p 0 prev' m := by
  cases m with
  | nil => rfl
  | cons x m =>
    cases x with
    | tok k t => rfl
    | ch c => rw [refine, refine, find_prev same]

/-- Characters at which no token starts. -/
theorem refine_dead (starts : p.StartsWith d) (other : ∀ c ∈ s, c ≠ d)
    (prev : Option Char) (m : List (Sym κ)) :
    refine cls p 0 prev (chars s ++ m) = chars s ++ refine cls p 0 (s.getLast?.or prev) m := by
  induction s generalizing prev with
  | nil => rfl
  | cons c s ih =>
    have step : refine cls p 0 prev (chars (c :: s) ++ m) =
        .ch c :: refine cls p 0 (some c) (chars s ++ m) := by
      change refine cls p 0 prev (.ch c :: (chars s ++ m)) = _
      rw [refine, find_other starts (other c mem_cons_self)]
    rw [step, ih fun e inside => other e (.tail c inside)]
    cases s with
    | nil => rfl
    | cons e s => rw [List.getLast?_cons_cons, List.getLast?_cons]; rfl

end Refine

/-! Passes over shown texts. -/

/-- Every kind is shown by a text between two characters that stand nowhere else in it, and no
shown text starts another. -/
structure Shows {κ : Type} (shown : κ → List Char) (first last : Char) : Prop where
  framed : ∀ k, ∃ inner, shown k = first :: (inner ++ [last]) ∧ first ∉ inner ++ [last]
  free : ∀ k k', shown k <+: shown k' → shown k = shown k'

section Shown
variable {cls : Classes} {κ : Type} {shown : κ → List Char} {first last : Char}

/-- The text from the first token on. -/
theorem render_run (shows : Shows shown first last) (m : List (Sym κ)) :
    render shown m = run m ∨ ∃ rest, render shown m = run m ++ first :: rest := by
  induction m with
  | nil => exact .inl rfl
  | cons x m ih =>
    cases x with
    | ch c =>
      rcases ih with same | ⟨rest, same⟩
      · exact .inl (congrArg (c :: ·) same)
      · exact .inr ⟨rest, congrArg (c :: ·) same⟩
    | tok k t =>
      obtain ⟨inner, text, _⟩ := shows.framed k
      refine .inr ⟨inner ++ [last] ++ render shown m, ?_⟩
      rw [render, text]
      rfl

/-- A pass sees in the shown text what it sees in the divided one. -/
theorem render_refine (shows : Shows shown first last) {p : Pattern κ} {d : Char}
    (starts : p.StartsWith d) (avoids : p.Avoids cls first) (endWord : cls.word last = false)
    (quiet : ∀ k, d ∉ shown k) {n : Nat} {m : List (Sym κ)}
    (inside : n ≤ (run m).length) :
    render shown (refine cls p n prev m) =
      render shown (refine cls p n prev (chars (render shown m))) := by
  induction m generalizing n prev with
  | nil => rfl
  | cons x m ih =>
    cases x with
    | tok k t =>
      obtain rfl : n = 0 := Nat.le_zero.mp inside
      obtain ⟨inner, text, _⟩ := shows.framed k
      have isLast : (shown k).getLast? = some last := by
        rw [text, ← cons_append, List.getLast?_append]
        rfl
      rw [refine, render, render, chars_append,
        refine_dead starts (fun c member same => quiet k (same ▸ member)), render_chars_append,
        ih (Nat.zero_le _), isLast, some_or]
      rw [@refine_prev cls κ p none (some last) endWord.symm]
    | ch c =>
      have shownText : (chars (render shown (.ch c :: m)) : List (Sym κ)) =
          .ch c :: chars (render shown m) := rfl
      rw [shownText]
      cases n with
      | succ n => exact ih (Nat.le_of_succ_le_succ inside)
      | zero =>
        have same : p.find cls prev (c :: run (chars (render shown m) : List (Sym κ))) =
            p.find cls prev (c :: run m) := by
          rw [run_chars]
          rcases render_run shows m with all | ⟨rest, cut⟩
          · rw [all]
          · rw [cut, ← cons_append, find_stop avoids]
        rw [refine, refine, same]
        split
        · rw [render, render, ih (Nat.zero_le _)]
        · rename_i l t r found
          simp only [render_chars_append, render, ih (find_skip_le found)]

theorem sub_render (shows : Shows shown first last) {p : Pattern κ} {d : Char}
    (starts : p.StartsWith d) (avoids : p.Avoids cls first) (endWord : cls.word last = false)
    (quiet : ∀ k, d ∉ shown k) (m : List (Sym κ)) :
    sub cls shown p (render shown m) = render shown (refine cls p 0 none m) :=
  (render_refine shows starts avoids endWord quiet (Nat.zero_le _)).symm

/-! Texts that look the same. -/

/-- The same character, or tokens that are shown alike. -/
inductive Same (shown : κ → List Char) : Sym κ → Sym κ → Prop where
  | ch (c : Char) : Same shown (.ch c) (.ch c)
  | tok {k k' : κ} (t t' : List Char) (alike : shown k = shown k') :
      Same shown (.tok k t) (.tok k' t')

/-- No shown text stands in the plain characters. -/
def Clear (shown : κ → List Char) (m : List (Sym κ)) : Prop :=
  ∀ pre rest, m = pre ++ rest → ∀ k, ¬ shown k <+: run rest

theorem Clear.tail {x : Sym κ} {m : List (Sym κ)} (clear : Clear shown (x :: m)) : Clear shown m :=
  fun pre rest split => clear (x :: pre) rest (by rw [split]; rfl)

theorem clear_of_restore {m : List (Sym κ)} (free : ∀ k, ¬ shown k <:+: restore m) :
    Clear shown m := by
  intro pre rest split k start
  have suffix : restore rest <:+ restore m := by
    rw [split]
    clear split start free
    induction pre with
    | nil => exact suffix_rfl
    | cons x pre ih =>
      cases x with
      | ch c => exact ih.trans (suffix_cons c _)
      | tok k t => exact ih.trans (suffix_append t _)
  exact free k (((start.trans (run_prefix_restore rest)).isInfix).trans suffix.isInfix)

theorem not_char_and_tok (shows : Shows shown first last) {k : κ}
    {m rest : List (Sym κ)} (clear : Clear shown (.ch c :: m)) :
    c :: render shown m ≠ shown k ++ render shown rest := by
  intro same
  obtain ⟨inner, text, once⟩ := shows.framed k
  have start : shown k <+: c :: render shown m := ⟨_, same.symm⟩
  refine clear [] _ rfl k ?_
  change shown k <+: c :: run m
  rcases render_run shows m with all | ⟨after, cut⟩
  · rw [← all]
    exact start
  rw [text] at start ⊢
  rw [cut, cons_prefix_cons] at start
  rw [cons_prefix_cons]
  exact ⟨start.1, (prefix_append_stop once).mp start.2⟩

theorem same_of_render_eq (shows : Shows shown first last) {m m' : List (Sym κ)}
    (clear : Clear shown m) (clear' : Clear shown m') (h : render shown m = render shown m') :
    List.Forall₂ (Same shown) m m' := by
  have nonempty (k : κ) (rest : List Char) : shown k ++ rest ≠ [] := by
    obtain ⟨inner, text, _⟩ := shows.framed k
    rw [text]
    exact cons_ne_nil _ _
  induction m generalizing m' with
  | nil =>
    cases m' with
    | nil => exact .nil
    | cons y m' =>
      cases y with
      | ch c => cases h
      | tok k t => exact absurd h.symm (nonempty k _)
  | cons x m ih =>
    cases m' with
    | nil =>
      cases x with
      | ch c => cases h
      | tok k t => exact absurd h (nonempty k _)
    | cons y m' =>
      cases x with
      | ch c =>
        cases y with
        | ch c' =>
          obtain ⟨rfl, tails⟩ := List.cons.inj h
          exact .cons (.ch c) (ih clear.tail clear'.tail tails)
        | tok k t => exact absurd h (not_char_and_tok shows clear)
      | tok k t =>
        cases y with
        | ch c => exact absurd h.symm (not_char_and_tok shows clear')
        | tok k' t' =>
          have alike : shown k = shown k' := by
            have one : shown k <+: render shown (.tok k t :: m) := prefix_append _ _
            have other : shown k' <+: render shown (.tok k t :: m) :=
              h ▸ prefix_append _ _
            rcases prefix_or_prefix_of_prefix one other with up | down
            · exact shows.free k k' up
            · exact (shows.free k' k down).symm
          rw [render, render, alike] at h
          exact .cons (.tok t t' alike) (ih clear.tail clear'.tail (append_cancel_left h))

end Shown

end Subst
