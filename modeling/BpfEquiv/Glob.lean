import Mathlib.Data.List.Infix
import Mathlib.Order.WellFounded

/-!
The glob matcher of `arena_strsearch`. Pointers are what is left of a text with its terminator, and
a read behind the terminator stops the run. The matcher remembers only the last star; that this is
enough is the exchange argument of `Fair.exchange`.
-/
namespace BpfEquiv.Glob

open List

def ascii (c : Char) : UInt8 := c.toNat.toUInt8

/-- The loop over a class, from the span that begins with `a`. Without a result the class is
malformed. -/
def classLoop (c : UInt8) (matched : Bool) (a : UInt8) :
    List UInt8 → Option (Option (Bool × List UInt8))
  | [] => if a = 0 then some none else none
  | x :: rest =>
    if a = 0 then some none
    else if x = ascii '-' then
      match rest with
      | [] => none
      | y :: rest =>
        if y = ascii ']' then classLoop c (matched || a ≤ c && c ≤ a) x (y :: rest)
        else if y = 0 then some none
        else
          match rest with
          | [] => none
          | z :: rest =>
            if z = ascii ']' then some (some (matched || a ≤ c && c ≤ y, rest))
            else classLoop c (matched || a ≤ c && c ≤ y) z rest
    else if x = ascii ']' then some (some (matched || a ≤ c && c ≤ a, rest))
    else classLoop c (matched || a ≤ c && c ≤ a) x rest

structure State where
  pat : List UInt8
  str : List UInt8
  /-- `back_pat` and `back_str`. -/
  back : Option (List UInt8 × List UInt8)

def backtrack (c : UInt8) (st : State) : Bool ⊕ State :=
  if c = 0 then .inl false
  else
    match st.back with
    | none => .inl false
    | some (pat, str) => .inr ⟨pat, str.tail, some (pat, str.tail)⟩

def literal (c d : UInt8) (st : State) : Bool ⊕ State :=
  if c = d then if d = 0 then .inl true else .inr st else backtrack c st

/-- A class in the pattern behind its bracket `d`. -/
def classStep (c d : UInt8) (next : State) : Option (Bool ⊕ State) := do
  let e ← next.pat.head?
  let inverted : Bool := e = ascii '!'
  let cls := if inverted then next.pat.tail else next.pat
  let a ← cls.head?
  match ← classLoop c false a cls.tail with
  | none => some (literal c d next)
  | some (matched, rest) =>
    some (if matched = inverted then backtrack c next else .inr { next with pat := rest })

def State.step (st : State) : Option (Bool ⊕ State) := do
  let c ← st.str.head?
  let d ← st.pat.head?
  let next : State := { st with pat := st.pat.tail, str := st.str.tail }
  if d = ascii '?' then some (if c = 0 then .inl false else .inr next)
  else if d = ascii '*' then
    let e ← next.pat.head?
    some (if e = 0 then .inl true else .inr ⟨next.pat, st.str, some (next.pat, st.str)⟩)
  else if d = ascii '[' then classStep c d next
  else if d = ascii '\\' then
    let d ← next.pat.head?
    some (literal c d { next with pat := next.pat.tail })
  else some (literal c d next)

def globLoop : Nat → State → Option Bool
  | budget, st =>
    match st.step with
    | none => none
    | some (.inl result) => some result
    | some (.inr st') =>
      match budget with
      | 0 => some false
      | budget + 1 => globLoop budget st'

def globMatch (budget : Nat) (pat str : List UInt8) : Option Bool :=
  globLoop budget ⟨pat ++ [0], str ++ [0], none⟩

/-! Shell patterns. -/

inductive Item where
  | any
  | star
  | lit (c : UInt8)
  | cls (inverted : Bool) (spans : List (UInt8 × UInt8))

def Item.accepts : Item → UInt8 → Bool
  | any, c => c ≠ 0
  | star, _ => false
  | lit e, c => c = e
  | cls inverted spans, c => (spans.any fun s => s.1 ≤ c && c ≤ s.2) ≠ inverted

/-- The spans of a class up to the bracket that ends it. -/
def spans (a : UInt8) : List UInt8 → Option (List (UInt8 × UInt8) × List UInt8)
  | [] => none
  | x :: rest =>
    if x = ascii '-' then
      match rest with
      | [] => none
      | y :: rest =>
        if y = ascii ']' then (spans x (y :: rest)).map fun r => ((a, a) :: r.1, r.2)
        else
          match rest with
          | [] => none
          | z :: rest =>
            if z = ascii ']' then some ([(a, y)], rest)
            else (spans z rest).map fun r => ((a, y) :: r.1, r.2)
    else if x = ascii ']' then some ([(a, a)], rest)
    else (spans x rest).map fun r => ((a, a) :: r.1, r.2)

def classItem (p : List UInt8) : Option (Item × List UInt8) :=
  let inverted : Bool := p.head? = some (ascii '!')
  match if inverted then p.tail else p with
  | [] => none
  | a :: rest => (spans a rest).map fun r => (.cls inverted r.1, r.2)

/-- The first item of a pattern. A backslash at the end quotes the terminator. -/
def nextItem : List UInt8 → Option (Item × List UInt8)
  | [] => none
  | d :: p =>
    if d = ascii '?' then some (.any, p)
    else if d = ascii '*' then some (.star, p)
    else if d = ascii '[' then some ((classItem p).getD (.lit d, p))
    else if d = ascii '\\' then
      match p with
      | [] => none
      | e :: p => some (.lit e, p)
    else some (.lit d, p)

theorem spans_suffix {a : UInt8} {p : List UInt8} {r : List (UInt8 × UInt8) × List UInt8}
    (h : spans a p = some r) : r.2 <:+ p := by
  fun_induction spans a p generalizing r <;> grind [Option.map_eq_some_iff, suffix_cons_iff]

/-- How a pattern begins with an item. -/
inductive Begins : List UInt8 → Item → List UInt8 → Prop
  | any {d p} : Begins (d :: p) .any p
  | star {d p} : Begins (d :: p) .star p
  | cls {d p a q r} (inverted : Bool) (inside : a :: q <:+ p) (found : spans a q = some r) :
      Begins (d :: p) (.cls inverted r.1) r.2
  | lit {d p} : Begins (d :: p) (.lit d) p
  | quoted {d e p} : Begins (d :: e :: p) (.lit e) p

theorem begins_class {p : List UInt8} {r : Item × List UInt8} (d : UInt8)
    (h : classItem p = some r) :
    Begins (d :: p) r.1 r.2 := by
  simp only [classItem] at h
  split at h
  · cases h
  rename_i a rest same
  obtain ⟨r', found, rfl⟩ := Option.map_eq_some_iff.mp h
  refine .cls _ ?_ found
  rw [← same]
  split_ifs
  · exact tail_suffix p
  · exact suffix_refl p

theorem begins {p rest : List UInt8} {i : Item} (h : nextItem p = some (i, rest)) :
    Begins p i rest := by
  cases p with
  | nil => cases h
  | cons d q =>
    simp only [nextItem] at h
    split_ifs at h
    · cases h; exact .any
    · cases h; exact .star
    · cases found : classItem q with
      | none => rw [found] at h; cases h; exact .lit
      | some r => rw [found] at h; cases h; exact begins_class d found
    · cases q with
      | nil => cases h
      | cons e q => cases h; exact .quoted
    · cases h; exact .lit

section Next
variable {p rest : List UInt8} {i : Item} (h : nextItem p = some (i, rest))
include h

theorem nextItem_suffix : ∃ d q, p = d :: q ∧ rest <:+ q := by
  cases begins h with
  | any | star | lit => exact ⟨_, _, rfl, suffix_refl _⟩
  | cls inverted inside found =>
    exact ⟨_, _, rfl, (spans_suffix found).trans ((suffix_cons _ _).trans inside)⟩
  | quoted => exact ⟨_, _, rfl, suffix_cons _ _⟩

theorem clean_rest (clean : 0 ∉ p) : 0 ∉ rest := by
  obtain ⟨d, q, rfl, suffix⟩ := nextItem_suffix h
  exact fun zero => clean (.tail d (suffix.subset zero))

theorem nextItem_length : rest.length < p.length := by
  obtain ⟨d, q, rfl, behind⟩ := nextItem_suffix h
  exact Nat.lt_succ_of_le behind.length_le

end Next

def items (p : List UInt8) : List Item :=
  match _h : nextItem p with
  | none => []
  | some (i, rest) => i :: items rest
termination_by p.length
decreasing_by exact nextItem_length _h

/-- The recursive meaning of a pattern. -/
def glob : List Item → List UInt8 → Bool
  | [], s => s.isEmpty
  | .star :: is, s => s.tails.any (glob is)
  | i :: is, s =>
    match s with
    | [] => false
    | c :: t => i.accepts c && glob is t

theorem items_of_none {p : List UInt8} (h : nextItem p = none) : items p = [] := by
  rw [items]
  split
  · rfl
  · next found => rw [h] at found; cases found

theorem items_of_some {p rest : List UInt8} {i : Item} (h : nextItem p = some (i, rest)) :
    items p = i :: items rest := by
  rw [items]
  split
  · next none => rw [h] at none; cases none
  · next found => rw [h] at found; cases found; rfl

section
variable {is rest : List Item} {i : Item} {s t : List UInt8}

theorem glob_star : glob (.star :: is) s = true ↔ ∃ t, t <:+ s ∧ glob is t = true := by
  simp [glob, any_eq_true]

theorem glob_single (single : i ≠ .star) (s : List UInt8) :
    glob (i :: is) s = true ↔ ∃ c t, s = c :: t ∧ i.accepts c = true ∧ glob is t = true := by
  cases i with
  | star => exact absurd rfl single
  | _ => cases s <;> simp [glob]

/-- Items that are no stars take one character each. -/
theorem glob_append {fixed : List Item} (single : ∀ i ∈ fixed, i ≠ .star)
    (h : glob (fixed ++ is) s = true) :
    ∃ u v, s = u ++ v ∧ u.length = fixed.length ∧ glob is v = true := by
  induction fixed generalizing s with
  | nil => exact ⟨[], s, rfl, rfl, h⟩
  | cons i fixed ih =>
    obtain ⟨c, t, rfl, -, rest⟩ := (glob_single (single i (.head _)) s).mp h
    obtain ⟨u, v, rfl, length, found⟩ := ih (fun j member => single j (.tail i member)) rest
    exact ⟨c :: u, v, rfl, congrArg Nat.succ length, found⟩

end

/-! The steps in terms of items. -/

theorem classLoop_spec (c : UInt8) (matched : Bool) {a : UInt8} {p : List UInt8} (start : a ≠ 0)
    (clean : 0 ∉ p) :
    classLoop c matched a (p ++ [0]) = some ((spans a p).map fun r =>
      (matched || r.1.any fun s => s.1 ≤ c && c ≤ s.2, r.2 ++ [0])) := by
  have dash : (0 : UInt8) ≠ ascii '-' := by decide
  have close : (0 : UInt8) ≠ ascii ']' := by decide
  fun_induction spans a p generalizing matched with
  | case1 a => simp [classLoop, start, dash, close]
  | case2 a => simp [classLoop, start, close]
  | case3 a rest ih =>
    rw [mem_cons, not_or] at clean
    rw [cons_append, classLoop.eq_def]
    simpa [start, Option.map_map, Function.comp_def, Bool.or_assoc] using
      ih (matched || a ≤ c && c ≤ a) dash.symm clean.2
  | case4 a y other =>
    have y0 : y ≠ 0 := by rintro rfl; simp at clean
    simp [classLoop, start, other, y0, close]
  | case5 a y other rest =>
    have y0 : y ≠ 0 := by rintro rfl; simp at clean
    rw [cons_append, classLoop.eq_def]
    simp [start, other, y0]
  | case6 a y other z rest more ih =>
    simp only [mem_cons, not_or] at clean
    rw [cons_append, classLoop.eq_def]
    simpa [start, other, more, Ne.symm clean.2.1, Option.map_map, Function.comp_def,
      Bool.or_assoc] using
      ih (matched || a ≤ c && c ≤ y) (Ne.symm clean.2.2.1) clean.2.2.2
  | case7 a rest other =>
    rw [cons_append, classLoop.eq_def]
    simp [start, other]
  | case8 a x rest other more ih =>
    simp only [mem_cons, not_or] at clean
    rw [cons_append, classLoop.eq_def]
    simpa [start, other, more, Option.map_map, Function.comp_def, Bool.or_assoc] using
      ih (matched || a ≤ c && c ≤ a) (Ne.symm clean.1) clean.2

/-- A state whose pointers stand in the texts `p` and `s`. -/
def stateOf (p s : List UInt8) (back : Option (List UInt8 × List UInt8)) : State :=
  ⟨p ++ [0], s ++ [0], back.map fun b => (b.1 ++ [0], b.2 ++ [0])⟩

section
variable {p s rest : List UInt8} {i : Item} {back : Option (List UInt8 × List UInt8)}

def current (s : List UInt8) : UInt8 := s.headD 0

theorem head_append (s : List UInt8) : (s ++ [0]).head? = some (current s) := by
  cases s <;> rfl

/-- A character of the string is there for the item, or the last star takes one more. -/
def take (i : Item) (rest s : List UInt8) (back : Option (List UInt8 × List UInt8)) :
    Bool ⊕ State :=
  if i.accepts (current s) then .inr { stateOf rest s back with str := (s ++ [0]).tail }
  else backtrack (current s) (stateOf rest s back)

/-- What a turn does, given the first item of the pattern. -/
def turn (s : List UInt8) (back : Option (List UInt8 × List UInt8)) :
    Option (Item × List UInt8) → Bool ⊕ State
  | none => if current s = 0 then .inl true else backtrack (current s) (stateOf [] s back)
  | some (.star, rest) => if rest = [] then .inl true else .inr (stateOf rest s (some (rest, s)))
  | some (i, rest) => take i rest s back

theorem turn_single (single : i ≠ .star) : turn s back (some (i, rest)) = take i rest s back := by
  cases i with
  | star => exact absurd rfl single
  | _ => rfl

theorem literal_eq {d : UInt8} (clean : d ≠ 0) :
    literal (current s) d { stateOf rest s back with str := (s ++ [0]).tail } =
      take (.lit d) rest s back := by
  rw [literal, take, if_neg clean]
  simp only [Item.accepts, decide_eq_true_eq]
  rfl

theorem classStep_eq (clean : 0 ∉ rest) :
    classStep (current s) (ascii '[') { stateOf rest s back with str := (s ++ [0]).tail } =
      some (turn s back (some ((classItem rest).getD (.lit (ascii '['), rest)))) := by
  have isInverted : decide (current rest = ascii '!') = decide (rest.head? = some (ascii '!')) := by
    cases rest with
    | nil => simp [current, ascii]
    | cons e rest => simp [current]
  have body (inverted : Bool) (same : decide (rest.head? = some (ascii '!')) = inverted) :
      (if inverted then (rest ++ [0]).tail else rest ++ [0]) =
        (if inverted then rest.tail else rest) ++ [0] := by
    cases rest with
    | nil => subst same; rfl
    | cons e rest => cases inverted <;> rfl
  simp only [classStep, stateOf, head_append, Option.bind_eq_bind, Option.bind_some, classItem,
    isInverted]
  generalize same : decide (rest.head? = some (ascii '!')) = inverted
  have clean' : 0 ∉ if inverted then rest.tail else rest := by
    cases inverted with
    | true => exact fun member => clean (mem_of_mem_tail member)
    | false => exact clean
  rw [body inverted same, head_append, Option.bind_some]
  generalize (if inverted then rest.tail else rest) = cls at clean'
  have bracket : ascii '[' ≠ 0 := by decide
  cases cls with
  | nil => exact congrArg some (literal_eq bracket)
  | cons a cls =>
    rw [mem_cons, not_or] at clean'
    change Option.bind (classLoop _ false a (cls ++ [0])) _ = _
    rw [classLoop_spec _ _ (Ne.symm clean'.1) clean'.2]
    dsimp only
    cases spans a cls with
    | none => exact congrArg some (literal_eq bracket)
    | some found =>
      rw [Option.map_some, Option.map_some, Option.getD_some, turn_single (by nofun), take]
      simp only [Bool.false_or, Item.accepts, decide_eq_true_eq, ite_not, ne_eq]
      rfl

/-- A turn of the loop takes the first item of the pattern. -/
theorem step_eq (clean : 0 ∉ p) (s : List UInt8) (back) :
    (stateOf p s back).step = some (turn s back (nextItem p)) := by
  cases p with
  | nil =>
    simp only [State.step, stateOf, head_append, Option.bind_eq_bind, Option.bind_some]
    rfl
  | cons d q =>
    rw [mem_cons, not_or] at clean
    simp only [State.step, stateOf, head_append, cons_append, List.head?_cons, tail_cons,
      Option.bind_eq_bind, Option.bind_some, nextItem]
    by_cases any : d = ascii '?'
    · rw [if_pos any, if_pos any, turn_single (by nofun), take]
      simp only [Item.accepts, decide_eq_true_eq, backtrack, ite_not]
      split_ifs <;> rfl
    rw [if_neg any, if_neg any]
    by_cases star : d = ascii '*'
    · rw [if_pos star, if_pos star, turn]
      cases q with
      | nil => rfl
      | cons e q =>
        rw [mem_cons, not_or] at clean
        simp [current, Ne.symm clean.2.1, stateOf]
    rw [if_neg star, if_neg star]
    by_cases cls : d = ascii '['
    · rw [if_pos cls, if_pos cls, cls]
      exact classStep_eq clean.2
    rw [if_neg cls, if_neg cls]
    by_cases slash : d = ascii '\\'
    · rw [if_pos slash, if_pos slash]
      cases q with
      | nil => rfl
      | cons e q =>
        rw [mem_cons, not_or] at clean
        exact congrArg some (literal_eq (Ne.symm clean.2.1))
    rw [if_neg slash, if_neg slash]
    exact congrArg some (literal_eq (Ne.symm clean.1))

end

/-! Patterns that do not run over the end of the string. -/

def Item.inverted : Item → Bool
  | cls inverted _ => inverted
  | _ => false

/-- Some character is accepted, the item being no inverted class. -/
def Item.matchable : Item → Bool
  | cls _ spans => spans.any fun s => s.1 ≤ s.2
  | _ => true

/-- An inverted class stands only behind a class that no character is in. -/
def guarded : List Item → Bool
  | [] => true
  | i :: is => !i.inverted && (!i.matchable || guarded is)

theorem spans_clean {a : UInt8} {p : List UInt8} {r : List (UInt8 × UInt8) × List UInt8}
    (clean : 0 ∉ a :: p) (h : spans a p = some r) : ∀ s ∈ r.1, s.1 ≠ 0 := by
  have start : a ≠ 0 := fun zero => clean (zero ▸ (.head _))
  fun_induction spans a p generalizing r with
  | case1 | case2 | case4 => cases h
  | case5 | case7 =>
    cases h
    simpa using start
  | case3 a rest ih | case6 a y other z rest more ih | case8 a z rest other more ih =>
    obtain ⟨r', found, rfl⟩ := Option.map_eq_some_iff.mp h
    simp only [mem_cons, not_or] at clean ih
    exact forall_mem_cons.mpr ⟨start, ih (by simp [clean]) found (by simp_all [eq_comm])⟩

/-- Only an inverted class takes the terminator for a character. -/
theorem accepts_zero {p rest : List UInt8} {i : Item} (clean : 0 ∉ p)
    (h : nextItem p = some (i, rest)) : i.accepts 0 = i.inverted := by
  cases begins h with
  | any | star => rfl
  | lit | quoted => exact decide_eq_false fun zero => clean (by simp [← zero])
  | @cls d q a tail r inverted inside found =>
    have nonzero := spans_clean (fun zero => clean (.tail _ (inside.subset zero))) found
    have outside : (r.1.any fun s => s.1 ≤ 0 && 0 ≤ s.2) = false := by
      refine any_eq_false.mpr fun s member => ?_
      simp only [Bool.and_eq_true, decide_eq_true_eq, not_and]
      exact fun low => absurd (UInt8.le_antisymm low UInt8.zero_le) (nonzero s member)
    rw [Item.accepts, outside]
    cases inverted <;> rfl

theorem exists_accepted {p rest : List UInt8} {i : Item} (clean : 0 ∉ p)
    (h : nextItem p = some (i, rest)) (single : i ≠ .star) (plain : i.inverted = false)
    (matchable : i.matchable = true) : ∃ c, c ≠ 0 ∧ i.accepts c = true := by
  cases begins h with
  | any => exact ⟨1, by decide, rfl⟩
  | star => exact absurd rfl single
  | @lit d q | @quoted e d q => exact ⟨d, fun zero => clean (by simp [zero]), decide_eq_true rfl⟩
  | @cls d q a tail r inverted inside found =>
    obtain rfl : inverted = false := plain
    have nonzero := spans_clean (fun zero => clean (.tail _ (inside.subset zero))) found
    obtain ⟨s, member, ordered⟩ := any_eq_true.mp matchable
    refine ⟨s.1, nonzero s member, ?_⟩
    simp only [Item.accepts, ne_eq, Bool.not_eq_false, decide_eq_true_eq, any_eq_true,
      Bool.and_eq_true]
    exact ⟨s, member, UInt8.le_refl _, of_decide_eq_true ordered⟩

theorem matchable_of_accepts {i : Item} {c : UInt8} (plain : i.inverted = false)
    (h : i.accepts c = true) : i.matchable = true := by
  cases i with
  | cls inverted spans =>
    obtain rfl : inverted = false := plain
    simp only [Item.accepts, ne_eq, Bool.not_eq_false, decide_eq_true_eq, any_eq_true,
      Bool.and_eq_true] at h
    obtain ⟨s, member, low, high⟩ := h
    simp only [Item.matchable, any_eq_true, decide_eq_true_eq]
    exact ⟨s, member, UInt8.le_trans low high⟩
  | _ => rfl

/-! The search. -/

section
variable {p s rest : List UInt8} {i : Item} {back : Option (List UInt8 × List UInt8)}

/-- The last star could also take more. -/
def Retry (back : Option (List UInt8 × List UInt8)) : Prop :=
  ∃ b ∈ back, ∃ t, t <:+ b.2 ∧ t.length < b.2.length ∧ glob (items b.1) t = true

def Goal (p s : List UInt8) (back : Option (List UInt8 × List UInt8)) : Prop :=
  glob (items p) s = true ∨ Retry back

/-- Behind the last star every item has taken one character. -/
structure Fair (p s : List UInt8) (back : Option (List UInt8 × List UInt8)) : Prop where
  pattern : 0 ∉ p
  string : 0 ∉ s
  plain : guarded (items p) = true
  back : ∀ b ∈ back, 0 ∉ b.1 ∧ 0 ∉ b.2 ∧ guarded (items b.1) = true ∧ ∃ fixed u,
    items b.1 = fixed ++ items p ∧ (∀ i ∈ fixed, i ≠ .star) ∧ b.2 = u ++ s ∧ u.length = fixed.length

def weight (s : List UInt8) : Option (List UInt8 × List UInt8) → Nat
  | none => s.length + 1
  | some b => b.2.length

/-- What a turn of the loop achieves. -/
inductive Progress (p s : List UInt8) (back : Option (List UInt8 × List UInt8)) :
    Bool ⊕ State → Prop
  | stop {result : Bool} (isGoal : result = true ↔ Goal p s back) : Progress p s back (.inl result)
  | move {p' s' back'} (fair : Fair p' s' back') (same : Goal p' s' back' ↔ Goal p s back)
      (less : Prod.Lex (· < ·) (· < ·) (weight s' back', p'.length) (weight s back, p.length)) :
      Progress p s back (.inr (stateOf p' s' back'))

/-- At the end of the string a longer star leaves too little. -/
theorem Fair.no_retry (fair : Fair p [] back) : ¬ Retry back := by
  rintro ⟨b, isBack, t, -, short, matched⟩
  obtain ⟨-, -, -, fixed, u, same, single, string, length⟩ := fair.back b isBack
  rw [same] at matched
  obtain ⟨u', v, rfl, length', -⟩ := glob_append single matched
  rw [string, append_nil, length_append] at short
  omega

/-- What an earlier star could take, the next star can. -/
theorem Fair.exchange (fair : Fair p s back) {is : List Item} (star : items p = .star :: is)
    (retry : Retry back) : glob (.star :: is) s = true := by
  obtain ⟨b, isBack, t, suffix, -, matched⟩ := retry
  obtain ⟨-, -, -, fixed, u, same, single, string, length⟩ := fair.back b isBack
  rw [same, star] at matched
  obtain ⟨u', v, rfl, length', found⟩ := glob_append single matched
  obtain ⟨w, behind, last⟩ := glob_star.mp found
  have inside : v <:+ s := by
    have whole : v <:+ b.2 := (suffix_append u' v).trans suffix
    refine suffix_of_suffix_length_le whole (string ▸ suffix_append u s) ?_
    have total := suffix.length_le
    rw [string, length_append, length_append] at total
    omega
  exact glob_star.mpr ⟨w, behind.trans inside, last⟩

/-- Right behind its star a pattern may match any rest of the string. -/
theorem goal_star {bp bs : List UInt8} :
    Goal bp bs (some (bp, bs)) ↔ ∃ t, t <:+ bs ∧ glob (items bp) t = true := by
  simp only [Goal, Retry, Option.mem_def, Option.some.injEq, exists_eq_left']
  constructor
  · rintro (matched | ⟨t, suffix, -, matched⟩)
    · exact ⟨bs, suffix_refl bs, matched⟩
    · exact ⟨t, suffix, matched⟩
  rintro ⟨t, suffix, matched⟩
  rcases Nat.lt_or_ge t.length bs.length with shorter | long
  · exact .inr ⟨t, suffix, shorter, matched⟩
  · rw [suffix.eq_of_length_le long] at matched
    exact .inl matched

theorem retry_cons {bp bs : List UInt8} {d : UInt8} :
    Retry (some (bp, d :: bs)) ↔ Goal bp bs (some (bp, bs)) := by
  simp only [goal_star, Retry, Option.mem_def, Option.some.injEq, exists_eq_left']
  refine exists_congr fun t =>
    ⟨fun ⟨suffix, short, matched⟩ => ⟨?_, matched⟩, fun ⟨suffix, matched⟩ =>
    ⟨suffix.trans (suffix_cons d bs), Nat.lt_succ_of_le suffix.length_le, matched⟩⟩
  rcases suffix_cons_iff.mp suffix with rfl | inside
  · exact absurd short (Nat.lt_irrefl _)
  · exact inside

/-- The last star takes one more character. -/
theorem Fair.retry {c : UInt8} {t : List UInt8} (fair : Fair p (c :: t) back)
    (none_here : glob (items p) (c :: t) = false) (pat : List UInt8) :
    Progress p (c :: t) back (backtrack c (stateOf pat (c :: t) back)) := by
  have nonzero : c ≠ 0 := fun zero => fair.string (zero ▸ (.head _))
  rw [backtrack, if_neg nonzero]
  cases back with
  | none => exact .stop (by simp [Goal, none_here, Retry])
  | some b =>
    obtain ⟨pattern, string, plain, fixed, u, -, -, same, -⟩ := fair.back b rfl
    obtain ⟨d, bs, cons⟩ : ∃ d bs, b.2 = d :: bs :=
      exists_cons_of_ne_nil (by rw [same]; simp)
    rw [cons, mem_cons, not_or] at string
    have tail : (b.2 ++ [0]).tail = bs ++ [0] := by rw [cons]; rfl
    simp only [stateOf, Option.map_some, tail]
    refine @Progress.move _ _ _ b.1 bs (some (b.1, bs)) ⟨pattern, string.2, plain, ?_⟩ ?_ ?_
    · rintro _ ⟨⟩
      exact ⟨pattern, string.2, plain, [], [], rfl, nofun, rfl, rfl⟩
    · rw [← @retry_cons b.1 bs d, ← cons]
      exact (or_iff_right (Bool.eq_false_iff.mp none_here)).symm
    · exact .left _ _ (by simp [weight, cons])

theorem Fair.take (fair : Fair p s back) (found : nextItem p = some (i, rest))
    (single : i ≠ .star) :
    Progress p s back (take i rest s back) := by
  have isItem := items_of_some found
  have plain := fair.plain
  rw [isItem, guarded, Bool.and_eq_true, Bool.not_eq_true'] at plain
  rw [Glob.take]
  cases s with
  | nil =>
    rw [if_neg (by simp [current, accepts_zero fair.pattern found, plain.1])]
    refine .stop (iff_of_false Bool.false_ne_true (not_or_intro ?_ fair.no_retry))
    rw [isItem, glob_single single]
    rintro ⟨c, t, ⟨⟩, -⟩
  | cons c t =>
    by_cases accepts : i.accepts (current (c :: t)) = true
    · rw [if_pos accepts]
      refine @Progress.move _ _ _ rest t back
        ⟨clean_rest found fair.pattern, ?_, ?_, fun b isBack => ?_⟩ ?_ ?_
      · exact fun zero => fair.string (.tail c zero)
      · simpa [matchable_of_accepts plain.1 accepts] using plain.2
      · obtain ⟨pattern, string, plain, fixed, u, same, each, same', length⟩ := fair.back b isBack
        refine ⟨pattern, string, plain, fixed ++ [i], u ++ [c], ?_, ?_, ?_, ?_⟩
        · rw [same, isItem, append_assoc, singleton_append]
        · simpa [or_imp, forall_and, single] using each
        · rw [same', append_assoc, singleton_append]
        · rw [length_append, length_append, length]
          rfl
      · rw [Goal, Goal, isItem, glob_single single]
        have accepts' : i.accepts c = true := accepts
        simp [accepts']
      · have shorter := nextItem_length found
        cases back with
        | none => exact .left _ _ (by simp [weight])
        | some b => exact .right _ shorter
    · rw [if_neg accepts]
      refine fair.retry ?_ rest
      rw [isItem, Bool.eq_false_iff, ne_eq, glob_single single]
      rintro ⟨c', t', ⟨⟩, accepted, -⟩
      exact accepts accepted

theorem Fair.star (fair : Fair p s back) (found : nextItem p = some (.star, rest)) :
    Progress p s back (turn s back (some (.star, rest))) := by
  have isItem := items_of_some found
  rw [turn]
  by_cases last : rest = []
  · rw [if_pos last]
    refine .stop (iff_of_true rfl (.inl ?_))
    rw [isItem, last, items_of_none rfl, glob_star]
    exact ⟨[], nil_suffix, rfl⟩
  rw [if_neg last]
  have plain := fair.plain
  rw [isItem, guarded, Bool.and_eq_true] at plain
  have pattern := clean_rest found fair.pattern
  refine .move ⟨pattern, fair.string, plain.2, ?_⟩ ?_ ?_
  · rintro _ ⟨⟩
    exact ⟨pattern, fair.string, plain.2, [], [], rfl, nofun, rfl, rfl⟩
  · rw [goal_star, ← glob_star, Goal, isItem]
    exact ⟨.inl, fun goal => goal.elim id (fair.exchange isItem)⟩
  cases back with
  | none => exact .left _ _ (by simp [weight])
  | some b =>
    obtain ⟨-, -, -, fixed, u, -, -, same, -⟩ := fair.back b rfl
    have total : s.length ≤ b.2.length := by rw [same, length_append]; omega
    rcases Nat.lt_or_eq_of_le total with less | equal
    · exact .left _ _ less
    · simp only [weight, equal]
      exact .right _ (nextItem_length found)

theorem Fair.progress (fair : Fair p s back) : Progress p s back (turn s back (nextItem p)) := by
  cases found : nextItem p with
  | none =>
    have isEnd := items_of_none found
    cases s with
    | nil => exact .stop (iff_of_true rfl (.inl (by rw [isEnd]; rfl)))
    | cons c t =>
      have nonzero : c ≠ 0 := fun zero => fair.string (zero ▸ (.head _))
      rw [turn, if_neg (show current (c :: t) ≠ 0 from nonzero)]
      exact fair.retry (by rw [isEnd]; rfl) []
  | some r =>
    obtain ⟨i, rest⟩ := r
    by_cases star : i = .star
    · subst star
      exact fair.star found
    · rw [turn_single star]
      exact fair.take found star

/-- With enough turns the loop finds out whether there is a match. -/
theorem Fair.run {p s back} (fair : Fair p s back) : ∃ result, (result = true ↔ Goal p s back) ∧
    ∃ enough, ∀ budget ≥ enough, globLoop budget (stateOf p s back) = some result := by
  have step := step_eq fair.pattern s back
  have progress := fair.progress
  generalize turn s back (nextItem p) = out at step progress
  cases progress with
  | @stop result isGoal =>
    refine ⟨result, isGoal, 0, fun budget _ => ?_⟩
    rw [globLoop, step]
  | move fair' same less =>
    obtain ⟨result, isGoal, enough, run⟩ := fair'.run
    refine ⟨result, isGoal.trans same, enough + 1, fun budget more => ?_⟩
    obtain ⟨budget, rfl⟩ := Nat.exists_eq_add_of_lt (Nat.lt_of_lt_of_le (Nat.succ_pos enough) more)
    rw [Nat.zero_add, globLoop, step]
    exact run budget (by omega)
termination_by (weight s back, p.length)
decreasing_by exact less

theorem globLoop_succ {st st' : State} (step : st.step = some (.inr st')) (budget : Nat) :
    globLoop (budget + 1) st = globLoop budget st' := by
  rw [globLoop, step]

/-- Some string leads to an inverted class that is not guarded, and over its end. -/
theorem overrun {p : List UInt8} (clean : 0 ∉ p) (open_ : guarded (items p) = false) :
    ∃ s, 0 ∉ s ∧ ∀ back, ∃ enough, ∀ budget ≥ enough,
      globLoop budget (stateOf p s back) = none := by
  cases found : nextItem p with
  | none => simp [items_of_none found, guarded] at open_
  | some r =>
    obtain ⟨i, rest⟩ := r
    have shorter := nextItem_length found
    rw [items_of_some found, guarded] at open_
    -- the first turn is taken, and the rest needs that many turns
    have after {s t : List UInt8} {back back'}
        (first : (stateOf p s back).step = some (.inr (stateOf rest t back')))
        (later : ∀ back, ∃ enough, ∀ budget ≥ enough,
          globLoop budget (stateOf rest t back) = none) :
        ∃ enough, ∀ budget ≥ enough, globLoop budget (stateOf p s back) = none := by
      obtain ⟨enough, run⟩ := later back'
      refine ⟨enough + 1, fun budget more => ?_⟩
      obtain ⟨budget, rfl⟩ :=
        Nat.exists_eq_add_of_le' (Nat.le_trans (Nat.le_add_left 1 enough) more)
      rw [globLoop_succ first]
      exact run budget (by omega)
    by_cases inverted : i.inverted = true
    · refine ⟨[], nofun, fun back => ⟨1, fun budget more => ?_⟩⟩
      obtain ⟨budget, rfl⟩ := Nat.exists_eq_add_of_le' more
      have single : i ≠ .star := by rintro rfl; cases inverted
      have step := step_eq clean [] back
      rw [found, turn_single single, take,
        if_pos (show i.accepts (current []) = true from (accepts_zero clean found).trans
          inverted)] at step
      rw [globLoop_succ step, globLoop]
      rfl
    · rw [Bool.not_eq_true] at inverted
      simp only [inverted, Bool.not_false, Bool.true_and, Bool.or_eq_false_iff,
        Bool.not_eq_false'] at open_
      obtain ⟨s, string, run⟩ := overrun (clean_rest found clean) open_.2
      by_cases star : i = .star
      · have more : rest ≠ [] := by
          rintro rfl
          simp [items_of_none (show nextItem [] = none from rfl), guarded] at open_
        refine ⟨s, string, fun back => @after s s back (some (rest, s)) ?_ run⟩
        rw [step_eq clean, found, star, turn, if_neg more]
      · obtain ⟨c, nonzero, accepted⟩ := exists_accepted clean found star inverted open_.1
        refine ⟨c :: s, by simp [Ne.symm nonzero, string],
          fun back => @after (c :: s) s back back ?_ run⟩
        rw [step_eq clean, found, turn_single star, take,
          if_pos (show i.accepts (current (c :: s)) = true from accepted)]
        rfl
termination_by p.length

/-- The matcher is right on every string, and stays inside it, exactly for the patterns whose
inverted classes are guarded. -/
theorem glob_match_right_iff {p : List UInt8} (clean : 0 ∉ p) :
    (∀ s, 0 ∉ s → ∃ enough, ∀ budget ≥ enough, globMatch budget p s = some (glob (items p) s)) ↔
      guarded (items p) = true := by
  constructor
  · intro right
    by_contra open_
    obtain ⟨s, string, run⟩ := overrun clean (Bool.eq_false_iff.mpr open_)
    obtain ⟨enough, stops⟩ := run none
    obtain ⟨enough', answers⟩ := right s string
    have none_ := stops (max enough enough') (Nat.le_max_left _ _)
    rw [show globLoop _ (stateOf p s none) = _ from answers _ (Nat.le_max_right _ _)] at none_
    cases none_
  · intro plain s string
    obtain ⟨result, isGoal, enough, run⟩ := @Fair.run p s none ⟨clean, string, plain, by nofun⟩
    have same : result = glob (items p) s := by
      rw [Bool.eq_iff_iff, isGoal, Goal]
      simp [Retry]
    exact ⟨enough, fun budget more => same ▸ run budget more⟩

theorem glob_match_right_range :
    ∃ enough, ∀ budget ≥ enough,
      globMatch budget (['*', '[', 'a', '-', 'c', ']'].map ascii) (['x', 'b'].map ascii) =
        some (glob (items (['*', '[', 'a', '-', 'c', ']'].map ascii)) (['x', 'b'].map ascii)) :=
  (glob_match_right_iff (by decide)).mpr (by decide +kernel) _ (by decide)

/-- The pattern `[!a]` does not match the empty string, and the matcher reads behind its
terminator. -/
theorem glob_match_overrun :
    glob (items (['[', '!', 'a', ']'].map ascii)) [] = false ∧
      ∀ budget, globMatch (budget + 1) (['[', '!', 'a', ']'].map ascii) [] = none := by
  refine ⟨by decide +kernel, fun budget => ?_⟩
  rw [globMatch, globLoop_succ rfl, globLoop]
  rfl

end

end BpfEquiv.Glob
