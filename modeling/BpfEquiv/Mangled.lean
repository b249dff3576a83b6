import BpfEquiv.GlobalNames

/-!
Names of variables.

Compilers decorate the names of variables. A static of a function carries the function's
name or a number between dots. The symbol of an item of a crate is a path of two
identifiers, each with its length in front; an underscore keeps the length apart from an
identifier that starts with a digit or an underscore. Three readers recover the
identifier: one for the symbols of an object, which may carry a number behind a dot, and
two for the names of its BTF variables. Two variables share a region just if the first
reader reads one identifier from their symbols.
-/
namespace BpfEquiv

open List Bool

variable {ds i : List Char} {c f : Char}

/-! Readers of BTF names. -/

/-- The trailing identifier of a mangled name. -/
def plainVarName (name : String) : String :=
  if ['_', 'R'].isPrefixOf name.toList then
    match rustItem [] name.toList with
    | some ident => String.ofList ident
    | none => name
  else name

/-- The length of the crate's identifier, with what follows it: the match of
_RNvCs[0-9A-Za-z]*_(\d+) at the start of a symbol. -/
def crateLength (sym : List Char) : Option (Nat × List Char) :=
  if ['_', 'R', 'N', 'v', 'C', 's'].isPrefixOf sym then
    match (sym.drop 6).dropWhile Char.isAlphanum with
    | '_' :: tail =>
      if (tail.takeWhile Char.isDigit).isEmpty then none
      else some (digitsValue (tail.takeWhile Char.isDigit), tail.dropWhile Char.isDigit)
    | _ => none
  else none

/-- The first and the last group of a full match of (\d+)(_?)(.+). The digits and the
underscore are given back where nothing would be left for the last group, which holds no
newline. -/
def itemField (rest : List Char) : Option (List Char × List Char) :=
  let digits := rest.takeWhile Char.isDigit
  let tail := rest.dropWhile Char.isDigit
  if digits.isEmpty || tail.contains '\n' then none
  else
    match tail with
    | [] => if digits.length < 2 then none else some (digits.dropLast, [digits.getLastD '0'])
    | ['_'] => some (digits, ['_'])
    | '_' :: name => some (digits, name)
    | name => some (digits, name)

/-- The source name of a crate-level static. -/
def rustStaticName (sym : String) : Option String :=
  match crateLength sym.toList with
  | none => none
  | some (n, tail) =>
    match itemField (tail.drop n) with
    | none => none
    | some (digits, name) =>
      if digitsValue digits ≠ name.length then none else some (String.ofList name)

/-! Symbols. -/

def isWordChar (c : Char) : Bool := c.isAlphanum || c = '_'

/-- Whether an underscore separates an identifier from its length. -/
def separated : List Char → Bool
  | [] => false
  | c :: _ => c.isDigit || c = '_'

def decimal (n : Nat) : List Char := Nat.toDigits 10 n

def encodeIdent (i : List Char) : List Char :=
  decimal i.length ++ ((if separated i then ['_'] else []) ++ i)

/-- The path of an item at the top of a crate. -/
structure ItemPath where
  disambiguator : List Char
  crate : List Char
  item : List Char
  base62 : disambiguator.all Char.isAlphanum = true
  crate_word : crate ≠ [] ∧ crate.all isWordChar = true
  item_word : item ≠ [] ∧ item.all isWordChar = true

variable (v : ItemPath)

def ItemPath.symbol : List Char :=
  ['_', 'R', 'N', 'v', 'C', 's'] ++ (v.disambiguator ++
    '_' :: (encodeIdent v.crate ++ encodeIdent v.item))

/-- The number that may follow a symbol behind a dot. -/
structure NumberSuffix where
  digits : List Char
  number : digits.all Char.isDigit = true

def NumberSuffix.text (t : NumberSuffix) : List Char :=
  if t.digits.isEmpty then [] else '.' :: t.digits

/-! Decimal numbers. -/

theorem digitsValue_snoc (ds : List Char) (d : Char) :
    digitsValue (ds ++ [d]) = 10 * digitsValue ds + (d.toNat - '0'.toNat) := by
  rw [digitsValue, digitsValue, foldl_append]
  rfl

theorem digitChar_value {n : Nat} (small : n < 10) : n.digitChar.toNat - '0'.toNat = n := by
  revert small
  revert n
  decide

theorem digitsValue_decimal (n : Nat) : digitsValue (decimal n) = n := by
  induction n using Nat.strongRecOn with
  | ind n ih =>
    rw [decimal, Nat.toDigits_eq_if (by decide)]
    split
    · rename_i small
      have value := digitChar_value small
      rw [← nil_append [n.digitChar], digitsValue_snoc, value]
      exact Nat.zero_add n
    rename_i large
    have shorter : n / 10 < n := Nat.div_lt_self (by omega) (by decide)
    have front := ih (n / 10) shorter
    rw [decimal] at front
    rw [digitsValue_snoc, front, digitChar_value (Nat.mod_lt n (by decide))]
    omega

theorem decimal_digits (n : Nat) : ∀ d ∈ decimal n, d.isDigit = true :=
  fun _ member => Nat.isDigit_of_mem_toDigits (by decide) (by decide) member

theorem decimal_ne_nil (n : Nat) : decimal n ≠ [] := by
  rw [decimal, Nat.toDigits_eq_if (by decide)]
  split <;> simp

theorem digitsValue_zeros {zs : List Char} (zeros : ∀ z ∈ zs, z = '0') (ds : List Char) :
    digitsValue (zs ++ ds) = digitsValue ds := by
  induction zs with
  | nil => rfl
  | cons z zs ih =>
    have zero : z = '0' := zeros z (.head _)
    subst zero
    exact ih fun z member => zeros z (.tail _ member)

/-! The reader with two patterns. -/

theorem takeWhile_digits (digits : ∀ d ∈ ds, d.isDigit = true)
    (other : c.isDigit = false) (cs : List Char) :
    (ds ++ c :: cs).takeWhile Char.isDigit = ds ∧
      (ds ++ c :: cs).dropWhile Char.isDigit = c :: cs := by
  rw [takeWhile_append_of_pos digits, dropWhile_append_of_pos digits]
  simp [other]

theorem exists_letter (nonempty : i ≠ []) (direct : separated i = false) :
    ∃ c cs, i = c :: cs ∧ c.isDigit = false ∧ c ≠ '_' := by
  cases i with
  | nil => exact absurd rfl nonempty
  | cons c cs =>
    simp only [separated, or_eq_false_iff, decide_eq_false_iff_not] at direct
    exact ⟨c, cs, rfl, direct.1, direct.2⟩

theorem not_isWordChar_newline (word : i.all isWordChar = true) :
    i.contains '\n' = false := by
  rw [eq_false_iff]
  intro found
  exact absurd (all_eq_true.mp word _ (contains_iff_mem.mp found)) (by decide)

theorem itemField_encodeIdent (nonempty : i ≠ [])
    (word : i.all isWordChar = true) : itemField (encodeIdent i) = some (decimal i.length, i) := by
  have digits := decimal_digits i.length
  have some' : (decimal i.length).isEmpty = false := by
    simpa using decimal_ne_nil i.length
  have oneLine := not_isWordChar_newline word
  cases kind : separated i with
  | true =>
    have groups := takeWhile_digits digits (c := '_') rfl i
    simp only [itemField, encodeIdent, kind, if_true, singleton_append, groups.1, groups.2,
      some', contains_cons, oneLine, Bool.or_false]
    cases i with
    | nil => exact absurd rfl nonempty
    | cons c cs => rfl
  | false =>
    obtain ⟨c, cs, rfl, other, notSep⟩ := exists_letter nonempty kind
    have groups := takeWhile_digits digits other cs
    simp only [itemField, encodeIdent, kind, Bool.false_eq_true, if_false, nil_append,
      groups.1, groups.2, some', oneLine, Bool.or_self]
    split
    · next empty => cases empty
    · next single => cases single; exact absurd rfl notSep
    · next sep => cases sep; exact absurd rfl notSep
    · rfl

theorem crateLength_symbol (direct : separated v.crate = false) :
    crateLength v.symbol = some (v.crate.length, v.crate ++ encodeIdent v.item) := by
  obtain ⟨c, cs, crate, other, _⟩ := exists_letter v.crate_word.1 direct
  have skipped : (v.disambiguator ++ '_' :: (encodeIdent v.crate ++ encodeIdent v.item)).dropWhile
      Char.isAlphanum = '_' :: (encodeIdent v.crate ++ encodeIdent v.item) := by
    rw [dropWhile_append_of_pos (all_eq_true.mp v.base62)]
    rfl
  have groups := takeWhile_digits (decimal_digits v.crate.length) other (cs ++ encodeIdent v.item)
  have plain : encodeIdent v.crate ++ encodeIdent v.item =
      decimal v.crate.length ++ c :: (cs ++ encodeIdent v.item) := by
    rw [encodeIdent, direct, crate]
    simp
  have some' : (decimal v.crate.length).isEmpty = false := by
    simpa using decimal_ne_nil v.crate.length
  have path : ['_', 'R', 'N', 'v', 'C', 's'].isPrefixOf v.symbol = true := by
    simp [ItemPath.symbol]
  have rest : v.symbol.drop 6 =
      v.disambiguator ++ '_' :: (encodeIdent v.crate ++ encodeIdent v.item) := rfl
  rw [crateLength, if_pos path, rest, skipped]
  simp only [plain, groups.1, groups.2, some', digitsValue_decimal]
  rw [crate]
  rfl

theorem rustStaticName_symbol (direct : separated v.crate = false) :
    rustStaticName (String.ofList v.symbol) = some (String.ofList v.item) := by
  rw [rustStaticName, String.toList_ofList, crateLength_symbol v direct]
  simp only [drop_left, itemField_encodeIdent v.item_word.1 v.item_word.2,
    digitsValue_decimal]
  exact if_neg (not_not.mpr rfl)

/-! The readers that scan digit runs. -/

/-- The values of the digit runs of a text, each with what follows it. The run read so far
is an accumulator. -/
def digitRuns : List Char → List Char → List (Nat × List Char)
  | _, [] => []
  | run, c :: cs =>
    if c.isDigit then
      match cs with
      | [] => [(digitsValue (run ++ [c]), [])]
      | d :: _ =>
        if d.isDigit then digitRuns (run ++ [c]) cs
        else (digitsValue (run ++ [c]), cs) :: digitRuns [] cs
    else digitRuns [] cs

/-- The number is the length of the identifier that follows it to the end. -/
def isSegment (r : Nat × List Char) : Bool := decide (r.2.length = r.1) && isIdent r.2

theorem rustItem_eq (run cs : List Char) :
    rustItem run cs = ((digitRuns run cs).find? isSegment).map (·.2) := by
  fun_induction digitRuns run cs with
  | case1 run => rfl
  | case2 run c digit => simp [rustItem, digit, isSegment, isIdent]
  | case3 run c digit d rest next ih =>
    rw [rustItem, if_pos digit]
    exact (if_pos next).trans ih
  | case4 run c digit d rest next ih =>
    rw [rustItem, if_pos digit, List.find?_cons]
    refine (if_neg next).trans ?_
    by_cases segment : isSegment (digitsValue (run ++ [c]), d :: rest) = true
    · have both : (d :: rest).length = digitsValue (run ++ [c]) ∧ isIdent (d :: rest) = true := by
        simpa [isSegment] using segment
      rw [if_pos both, segment]
      rfl
    have other : ¬ ((d :: rest).length = digitsValue (run ++ [c]) ∧
        isIdent (d :: rest) = true) := by
      simpa [isSegment] using segment
    rw [if_neg other, ih, eq_false_iff.mpr segment]
  | case5 run c cs digit ih =>
    cases cs with
    | nil => rw [rustItem, if_neg digit, ih]
    | cons d rest => rw [rustItem, if_neg digit, ih]

def trailingDigits (cs : List Char) : List Char := (cs.reverse.takeWhile Char.isDigit).reverse

theorem takeWhile_stop {p : Char → Bool} (stop : p c = false) (front cs : List Char) :
    (front ++ c :: cs).takeWhile p = front.takeWhile p := by
  induction front with
  | nil => simp [stop]
  | cons f front ih => simp only [cons_append, takeWhile_cons, ih]

theorem trailingDigits_stop (other : c.isDigit = false) (front cs : List Char) :
    trailingDigits (front ++ c :: cs) = trailingDigits cs := by
  have split : (front ++ c :: cs).reverse = cs.reverse ++ c :: front.reverse := by simp
  rw [trailingDigits, trailingDigits, split, takeWhile_stop other]

theorem trailingDigits_digits (digits : ∀ d ∈ ds, d.isDigit = true) :
    trailingDigits ds = ds := by
  have all : ∀ d ∈ ds.reverse, d.isDigit = true := fun d member =>
    digits d (mem_reverse.mp member)
  rw [trailingDigits, takeWhile_eq_self_iff.mpr all, reverse_reverse]

theorem digitRuns_other (other : f.isDigit = false) (run cs : List Char) :
    digitRuns run (f :: cs) = digitRuns [] cs := by
  cases cs <;> simp [digitRuns, other]

/-- A digit with a digit behind it belongs to the run of that digit. -/
theorem digitRuns_within {g : Char} (digit : f.isDigit = true) (next : g.isDigit = true)
    (run cs : List Char) :
    digitRuns run (f :: g :: cs) = digitRuns (run ++ [f]) (g :: cs) := by
  rw [digitRuns, if_pos digit]
  exact if_pos next

theorem digitRuns_last {g : Char} (digit : f.isDigit = true) (next : g.isDigit = false)
    (run cs : List Char) :
    digitRuns run (f :: g :: cs) =
      (digitsValue (run ++ [f]), g :: cs) :: digitRuns [] (g :: cs) := by
  rw [digitRuns, if_pos digit]
  exact if_neg (eq_false_iff.mp next)

theorem digitRuns_digits (other : c.isDigit = false) (cs : List Char) :
    ∀ (ds run : List Char), (∀ d ∈ ds, d.isDigit = true) → ds ≠ [] →
      digitRuns run (ds ++ c :: cs) =
        (digitsValue (run ++ ds), c :: cs) :: digitRuns [] (c :: cs) := by
  intro ds
  induction ds with
  | nil => exact fun _ _ some' => absurd rfl some'
  | cons d ds ih =>
    intro run digits _
    have digit : d.isDigit = true := digits d (.head _)
    cases ds with
    | nil => exact digitRuns_last digit other run cs
    | cons e ds =>
      have next : e.isDigit = true := digits e (by simp)
      have rest := ih (run ++ [d]) (fun x member => digits x (.tail _ member))
        (cons_ne_nil e ds)
      rw [append_assoc] at rest
      exact (digitRuns_within digit next run _).trans rest

/-- A run of digits comes with the digits in front of it; the runs before it have more
behind them. -/
theorem digitRuns_split {d : Char} (digits : ∀ x ∈ d :: ds, x.isDigit = true)
    (other : c.isDigit = false) (cs : List Char) :
    ∀ (front run : List Char), (∀ x ∈ run, x.isDigit = true) →
      ∃ early, digitRuns run (front ++ (d :: ds ++ c :: cs)) =
        early ++ (digitsValue (trailingDigits (run ++ front) ++ d :: ds), c :: cs) ::
          digitRuns [] (c :: cs) ∧ ∀ r ∈ early, (c :: cs).length < r.2.length := by
  intro front
  induction front with
  | nil =>
    intro run ran
    refine ⟨[], ?_, nofun⟩
    rw [append_nil, trailingDigits_digits ran]
    exact digitRuns_digits other cs (d :: ds) run digits (cons_ne_nil d ds)
  | cons f front ih =>
    intro run ran
    cases kind : f.isDigit with
    | false =>
      obtain ⟨early, runs, longer⟩ := ih [] nofun
      refine ⟨early, ?_, longer⟩
      rw [trailingDigits_stop kind]
      exact (digitRuns_other kind run _).trans runs
    | true =>
      have more : ∀ x ∈ run ++ [f], x.isDigit = true := by
        intro x member
        rcases mem_append.mp member with old | last
        · exact ran x old
        · rw [mem_singleton.mp last]
          exact kind
      obtain ⟨early, runs, longer⟩ := ih (run ++ [f]) more
      rw [append_assoc] at runs
      cases front with
      | nil => exact ⟨early, (digitRuns_within kind (digits d (by simp)) run _).trans runs, longer⟩
      | cons g front =>
        cases next : g.isDigit with
        | true => exact ⟨early, (digitRuns_within kind next run _).trans runs, longer⟩
        | false =>
          -- the run ends here, before the one we look for
          obtain ⟨early, runs, longer⟩ := ih [] nofun
          refine ⟨(digitsValue (run ++ [f]), g :: front ++ (d :: ds ++ c :: cs)) :: early,
            ?_, ?_⟩
          · have skipped : trailingDigits (run ++ f :: g :: front) =
                trailingDigits ([] ++ g :: front) := by
              have longer := trailingDigits_stop next (run ++ [f]) front
              rw [append_assoc] at longer
              exact longer.trans (trailingDigits_stop next [] front).symm
            rw [skipped]
            exact (digitRuns_last kind next run _).trans (congrArg _ runs)
          · intro r member
            rcases mem_cons.mp member with rfl | later
            · simp only [length_append, length_cons]
              omega
            · exact longer r later

/-- The item's length is a digit run of its own, and no earlier run is the number of the
characters behind it. -/
structure ItemPath.Scannable (v : ItemPath) : Prop where
  direct : separated v.item = false
  zeros : ∀ d ∈ trailingDigits v.crate, d = '0'
  clear : ∀ r ∈ digitRuns [] v.symbol, v.item.length < r.2.length → r.2.length ≠ r.1

/-- What stands before the item's length. -/
def ItemPath.front : List Char :=
  ['_', 'R', 'N', 'v', 'C', 's'] ++ (v.disambiguator ++ '_' :: encodeIdent v.crate)

theorem trailingDigits_front : trailingDigits v.front = trailingDigits v.crate := by
  cases kind : separated v.crate with
  | true =>
    have split : v.front = (['_', 'R', 'N', 'v', 'C', 's'] ++ (v.disambiguator ++
        '_' :: decimal v.crate.length)) ++ '_' :: v.crate := by
      simp [ItemPath.front, encodeIdent, kind]
    rw [split]
    exact trailingDigits_stop rfl _ _
  | false =>
    obtain ⟨c, cs, crate, other, _⟩ := exists_letter v.crate_word.1 kind
    have split : v.front = (['_', 'R', 'N', 'v', 'C', 's'] ++ (v.disambiguator ++
        '_' :: decimal v.crate.length)) ++ c :: cs := by
      rw [ItemPath.front, encodeIdent, kind, crate]
      simp
    rw [split, trailingDigits_stop other, crate, ← trailingDigits_stop other []]
    rfl

theorem isIdent_of_letter (nonempty : i ≠ []) (word : i.all isWordChar = true)
    (direct : separated i = false) : isIdent i = true := by
  obtain ⟨c, cs, rfl, digit, underscore⟩ := exists_letter nonempty direct
  simp only [all_cons, and_eq_true, isWordChar] at word
  have letter : c.isAlpha = true := by simpa [Char.isAlphanum, digit, underscore] using word.1
  rw [isIdent, letter]
  exact word.2

/-- The run in front of an item that starts with a letter, and what is left by the other
runs. -/
theorem digitRuns_symbol (direct : separated v.item = false) :
    ∃ early, digitRuns [] v.symbol = early ++
      (digitsValue (trailingDigits v.crate ++ decimal v.item.length), v.item) ::
        digitRuns [] v.item ∧ ∀ r ∈ early, v.item.length < r.2.length := by
  obtain ⟨c, cs, item, other, _⟩ := exists_letter v.item_word.1 direct
  obtain ⟨d, ds, length⟩ : ∃ d ds, decimal v.item.length = d :: ds :=
    exists_cons_of_ne_nil (decimal_ne_nil _)
  have digits := decimal_digits v.item.length
  rw [length] at digits
  obtain ⟨early, runs, longer⟩ := digitRuns_split digits other cs v.front [] nofun
  have symbol : v.symbol = v.front ++ (d :: ds ++ c :: cs) := by
    rw [← length, ← item]
    simp [ItemPath.symbol, ItemPath.front, encodeIdent, direct]
  rw [nil_append, trailingDigits_front, ← symbol, ← item] at runs
  rw [← item] at longer
  rw [length]
  exact ⟨early, runs, longer⟩

theorem rustItem_symbol (scan : v.Scannable) :
    rustItem [] v.symbol = some v.item := by
  obtain ⟨early, runs, longer⟩ := digitRuns_symbol v scan.direct
  rw [digitsValue_zeros scan.zeros, digitsValue_decimal] at runs
  have passed : early.find? isSegment = none := by
    rw [List.find?_eq_none]
    intro r member segment
    have before : r ∈ digitRuns [] v.symbol := by
      rw [runs]
      exact mem_append_left _ member
    simp only [isSegment, and_eq_true, decide_eq_true_eq] at segment
    exact scan.clear r before (longer r member) segment.1
  have here : isSegment (v.item.length, v.item) = true := by
    simp [isSegment, isIdent_of_letter v.item_word.1 v.item_word.2 scan.direct]
  rw [rustItem_eq, runs, List.find?_append, passed, List.find?_cons, here]
  rfl

theorem symbol_starts : ['_', 'R'].isPrefixOf v.symbol = true := by
  simp [ItemPath.symbol]

theorem encodeIdent_undotted (word : i.all isWordChar = true) :
    ∀ c ∈ encodeIdent i, c ≠ '.' := by
  intro c member dot
  subst dot
  rcases mem_append.mp member with digit | rest
  · exact absurd (decimal_digits _ _ digit) (by decide)
  · rcases mem_append.mp rest with sep | inside
    · split at sep <;> simp at sep
    · exact absurd (all_eq_true.mp word _ inside) (by decide)

/-- The number behind the dot is cut off. -/
theorem takeWhile_symbol (t : NumberSuffix) :
    (v.symbol ++ t.text).takeWhile (· ≠ '.') = v.symbol := by
  have undotted : ∀ c ∈ v.symbol, decide (c ≠ '.') = true := by
    intro c member
    rw [decide_eq_true_eq]
    rcases mem_append.mp member with path | rest
    · rintro rfl
      simp at path
    rcases mem_append.mp rest with hash | rest
    · rintro rfl
      exact absurd (all_eq_true.mp v.base62 _ hash) (by decide)
    rcases mem_cons.mp rest with rfl | idents
    · decide
    · rcases mem_append.mp idents with crate | item
      · exact encodeIdent_undotted v.crate_word.2 c crate
      · exact encodeIdent_undotted v.item_word.2 c item
  rw [takeWhile_append_of_pos undotted, NumberSuffix.text]
  split <;> simp

theorem normalizeName_symbol (t : NumberSuffix) (scan : v.Scannable) :
    normalizeName (String.ofList (v.symbol ++ t.text)) = String.ofList v.item := by
  simp only [normalizeName, String.toList_ofList, takeWhile_symbol, symbol_starts, if_true,
    rustItem_symbol v scan]

theorem plainVarName_symbol (scan : v.Scannable) :
    plainVarName (String.ofList v.symbol) = String.ofList v.item := by
  simp only [plainVarName, String.toList_ofList, symbol_starts, if_true, rustItem_symbol v scan]

/-- The item's identifier is read back: from a symbol with or without a number behind it,
and from a BTF name, which carries none. -/
theorem item_read_back (v : ItemPath) (t : NumberSuffix) :
    (v.Scannable →
      normalizeName (String.ofList (v.symbol ++ t.text)) = String.ofList v.item ∧
      plainVarName (String.ofList v.symbol) = String.ofList v.item) ∧
    (separated v.crate = false →
      rustStaticName (String.ofList v.symbol) = some (String.ofList v.item)) :=
  ⟨fun scan => ⟨normalizeName_symbol v t scan, plainVarName_symbol v scan⟩,
    rustStaticName_symbol v⟩

/-- A static of a crate, as it is mangled in an object. -/
def garrPath : ItemPath where
  disambiguator := ['1', 'a', '2', 'B', '3', 'c']
  crate := ['p', 'r', 'o', 'g']
  item := ['g', 'a', 'r', 'r']
  base62 := by decide
  crate_word := by decide
  item_word := by decide

def dotZero : NumberSuffix := ⟨['0'], by decide⟩

theorem item_read_back_garr :
    normalizeName (String.ofList (garrPath.symbol ++ dotZero.text)) = "garr" ∧
      plainVarName (String.ofList garrPath.symbol) = "garr" ∧
      rustStaticName (String.ofList garrPath.symbol) = some "garr" := by
  have ends : trailingDigits garrPath.crate = [] := by decide
  have scan : garrPath.Scannable := ⟨by decide, by rw [ends]; exact nofun, by decide +kernel⟩
  have back := item_read_back garrPath dotZero
  exact ⟨(back.1 scan).1, (back.1 scan).2, back.2 (by decide)⟩

/-- The readers of BTF names do not take a number behind the symbol off. -/
theorem number_not_cut :
    String.ofList (garrPath.symbol ++ dotZero.text) = "_RNvCs1a2B3c_4prog4garr.0" ∧
      normalizeName (String.ofList (garrPath.symbol ++ dotZero.text)) = "garr" ∧
      plainVarName (String.ofList (garrPath.symbol ++ dotZero.text)) =
        String.ofList (garrPath.symbol ++ dotZero.text) ∧
      rustStaticName (String.ofList (garrPath.symbol ++ dotZero.text)) = none := by
  decide +kernel

/-! What is read from any name. -/

theorem not_isDigit_of_isAlpha {c : Char} (letter : c.isAlpha = true) : c.isDigit = false := by
  simp only [Char.isAlpha, Char.isUpper, Char.isLower, or_eq_true, and_eq_true,
    decide_eq_true_eq, UInt32.le_iff_toNat_le] at letter
  simp only [Char.isDigit, and_eq_false_iff, decide_eq_false_iff_not,
    UInt32.le_iff_toNat_le]
  refine .inr fun le => ?_
  rcases letter with upper | lower
  · exact absurd (upper.1.trans le) (by decide)
  · exact absurd (lower.1.trans le) (by decide)

/-- A number with no digit before it counts the characters of the identifier behind it,
which reaches to the end. -/
structure Segment (base x : List Char) : Prop where
  counted : ∃ front digits, base = front ++ (digits ++ x) ∧ digits ≠ [] ∧
    (∀ d ∈ digits, d.isDigit = true) ∧ (∀ l ∈ front.getLast?, l.isDigit = false) ∧
    digitsValue digits = x.length
  ident : isIdent x = true

structure LongestSegment (base x : List Char) : Prop where
  segment : Segment base x
  longest : ∀ y, Segment base y → y.length ≤ x.length

theorem LongestSegment.unique {base x y : List Char} (one : LongestSegment base x)
    (other : LongestSegment base y) : x = y := by
  have ends {z : List Char} (segment : Segment base z) : z <:+ base := by
    obtain ⟨front, digits, split, _⟩ := segment.counted
    exact ⟨front ++ digits, by rw [append_assoc, split]⟩
  have below := other.longest x one.segment
  have above := one.longest y other.segment
  exact (suffix_of_suffix_length_le (ends one.segment) (ends other.segment) below).eq_of_length
    (Nat.le_antisymm below above)

theorem digitRuns_counted {run cs : List Char} {r : Nat × List Char}
    (member : r ∈ digitRuns run cs) (ran : ∀ d ∈ run, d.isDigit = true) :
    ∃ front digits, run ++ cs = front ++ (digits ++ r.2) ∧ digits ≠ [] ∧
      (∀ d ∈ digits, d.isDigit = true) ∧ (∀ l ∈ front.getLast?, l.isDigit = false) ∧
      digitsValue digits = r.1 := by
  have more {c : Char} {run : List Char} (ran : ∀ d ∈ run, d.isDigit = true)
      (digit : c.isDigit = true) : ∀ d ∈ run ++ [c], d.isDigit = true := by
    intro d inside
    rcases mem_append.mp inside with old | last
    · exact ran d old
    · exact mem_singleton.mp last ▸ digit
  fun_induction digitRuns run cs with
  | case1 run => cases member
  | case2 run c digit =>
    obtain rfl := mem_singleton.mp member
    exact ⟨[], run ++ [c], by simp, by simp, more ran digit, by simp, rfl⟩
  | case3 run c digit d rest next ih =>
    have split := ih member (more ran digit)
    rwa [append_assoc] at split
  | case4 run c digit d rest next ih =>
    rcases mem_cons.mp member with rfl | later
    · exact ⟨[], run ++ [c], by simp, by simp, more ran digit, by simp, rfl⟩
    obtain ⟨front, digits, split, some', all, stop, value⟩ := ih later nofun
    refine ⟨run ++ c :: front, digits, by rw [append_assoc, cons_append, ← split]; rfl, some',
      all, ?_, value⟩
    cases front with
    | nil =>
      -- the text goes on with a character that is no digit
      cases digits with
      | nil => exact absurd rfl some'
      | cons e digits =>
        obtain rfl : d = e := (List.cons.inj split).1
        exact absurd (all d (.head _)) next
    | cons f front => simpa using stop
  | case5 run c cs digit ih =>
    obtain ⟨front, digits, split, some', all, stop, value⟩ := ih member nofun
    refine ⟨run ++ c :: front, digits, by rw [append_assoc, cons_append, ← split]; rfl, some',
      all, ?_, value⟩
    cases front with
    | nil => simpa using digit
    | cons f front => simpa using stop

theorem digitRuns_shorter {run cs : List Char} {r : Nat × List Char}
    (member : r ∈ digitRuns run cs) : r.2.length < cs.length := by
  fun_induction digitRuns run cs with
  | case1 run => cases member
  | case2 run c digit => simp [mem_singleton.mp member]
  | case3 run c digit d rest next ih => exact Nat.lt_succ_of_lt (ih member)
  | case4 run c digit d rest next ih =>
    rcases mem_cons.mp member with rfl | later
    · exact Nat.lt_succ_self _
    · exact Nat.lt_succ_of_lt (ih later)
  | case5 run c cs digit ih => exact Nat.lt_succ_of_lt (ih member)

theorem isIdent_start {x : List Char} (ident : isIdent x = true) :
    ∃ c cs, x = c :: cs ∧ c.isDigit = false := by
  cases x with
  | nil => cases ident
  | cons c cs =>
    simp only [isIdent, and_eq_true, or_eq_true, decide_eq_true_eq] at ident
    refine ⟨c, cs, rfl, ?_⟩
    rcases ident.1 with alpha | rfl
    · exact not_isDigit_of_isAlpha alpha
    · decide

theorem segment_iff {base x : List Char} :
    Segment base x ↔ ∃ r ∈ digitRuns [] base, isSegment r = true ∧ r.2 = x := by
  constructor
  · rintro ⟨⟨front, digits, rfl, some', all, stop, value⟩, ident⟩
    obtain ⟨c, cs, rfl, other⟩ := isIdent_start ident
    obtain ⟨d, ds, rfl⟩ := exists_cons_of_ne_nil some'
    obtain ⟨early, runs, _⟩ := digitRuns_split all other cs front [] nofun
    have alone : trailingDigits ([] ++ front) = [] := by
      rw [nil_append, trailingDigits, reverse_eq_nil_iff]
      cases back : front.reverse with
      | nil => rfl
      | cons l rest =>
        rw [reverse_eq_cons_iff] at back
        exact takeWhile_cons_of_neg (by simp [stop l (by simp [back])])
    rw [alone, nil_append, value] at runs
    exact ⟨_, by rw [runs]; exact mem_append_right _ (.head _), by simp [isSegment, ident], rfl⟩
  · rintro ⟨r, member, segment, rfl⟩
    simp only [isSegment, and_eq_true, decide_eq_true_eq] at segment
    obtain ⟨front, digits, split, some', all, stop, value⟩ := digitRuns_counted member nofun
    exact ⟨⟨front, digits, split, some', all, stop, by rw [value, segment.1]⟩, segment.2⟩

/-- A field between dots that is a number. -/
def IsNumber (p : List Char) : Prop := p ≠ [] ∧ p.all Char.isDigit = true

def IsMangled (name : List Char) : Prop :=
  ['_', 'R'].isPrefixOf (name.takeWhile (· ≠ '.')) = true

/-- What is read from a name. In front of the first dot of a mangled one: the longest
segment. In any other: the last field that is no number. The whole name if there is no
such part. -/
inductive Reading (name : List Char) : List Char → Prop where
  | segment {x : List Char} (mangled : IsMangled name)
      (last : LongestSegment (name.takeWhile (· ≠ '.')) x) : Reading name x
  | unsegmented (mangled : IsMangled name)
      (none : ∀ x, ¬ Segment (name.takeWhile (· ≠ '.')) x) : Reading name name
  | field {front numbers : List (List Char)} {x : List Char} (plain : ¬ IsMangled name)
      (fields : splitOn '.' name = front ++ x :: numbers) (kept : ¬ IsNumber x)
      (digits : ∀ n ∈ numbers, IsNumber n) : Reading name x
  | unfielded (plain : ¬ IsMangled name) (digits : ∀ n ∈ splitOn '.' name, IsNumber n) :
      Reading name name

theorem kept_iff {p : List Char} : (p.isEmpty || !p.all Char.isDigit) = true ↔ ¬ IsNumber p := by
  cases p with
  | nil => simp [IsNumber]
  | cons c cs =>
    rw [isEmpty_cons, Bool.false_or, not_eq_true', IsNumber, and_iff_right (cons_ne_nil c cs),
      not_eq_true]

/-- The last field that is no number. -/
theorem getLast?_kept_iff {fields : List (List Char)} {x : List Char} :
    (fields.filter fun p => p.isEmpty || !p.all Char.isDigit).getLast? = some x ↔
      ∃ front numbers, fields = front ++ x :: numbers ∧ ¬ IsNumber x ∧
        ∀ n ∈ numbers, IsNumber n := by
  rw [getLast?_eq_head?_reverse, ← filter_reverse, head?_filter, find?_eq_some_iff_append]
  simp only [kept_iff, not_eq_true', ← not_eq_true, Classical.not_not]
  constructor
  · rintro ⟨kept, back, front, split, digits⟩
    rw [reverse_eq_iff, reverse_append, reverse_cons, append_assoc] at split
    exact ⟨front.reverse, back.reverse, split, kept, fun n member =>
      digits n (mem_reverse.mp member)⟩
  · rintro ⟨front, numbers, rfl, kept, digits⟩
    exact ⟨kept, numbers.reverse, front.reverse, by simp, fun n member =>
      digits n (mem_reverse.mp member)⟩

theorem Reading.unique {name x y : List Char} (one : Reading name x) (other : Reading name y) :
    x = y := by
  cases one with
  | segment mangled last =>
    cases other with
    | segment _ last' => exact last.unique last'
    | unsegmented _ none => exact absurd last.segment (none x)
    | field plain => exact absurd mangled plain
    | unfielded plain => exact absurd mangled plain
  | unsegmented mangled none =>
    cases other with
    | segment _ last => exact absurd last.segment (none y)
    | unsegmented => rfl
    | field plain => exact absurd mangled plain
    | unfielded plain => exact absurd mangled plain
  | @field front numbers _ plain fields kept digits =>
    cases other with
    | segment mangled => exact absurd mangled plain
    | unsegmented mangled => exact absurd mangled plain
    | @field front' numbers' _ _ fields' kept' digits' =>
      have one := getLast?_kept_iff.mpr ⟨front, numbers, fields, kept, digits⟩
      have other := getLast?_kept_iff.mpr ⟨front', numbers', fields', kept', digits'⟩
      exact Option.some.inj (one.symm.trans other)
    | unfielded _ all => exact absurd (all x (by simp [fields])) kept
  | unfielded plain all =>
    cases other with
    | segment mangled => exact absurd mangled plain
    | unsegmented mangled => exact absurd mangled plain
    | field _ fields kept => exact absurd (all y (by simp [fields])) kept
    | unfielded => rfl

/-! How a variable of the source is spelled. -/

/-- The symbol of a variable: fields between dots, the identifier with functions in front
and numbers behind, or the path of an item. -/
inductive Spelling where
  | dotted (front : List (List Char)) (x : List Char) (numbers : List (List Char))
      (idents : ∀ f ∈ x :: front, isIdent f = true) (digits : ∀ n ∈ numbers, IsNumber n)
  | item (v : ItemPath) (t : NumberSuffix)

namespace Spelling

def symbol : Spelling → List Char
  | dotted front x numbers _ _ => joinWith '.' (front ++ x :: numbers)
  | item v t => v.symbol ++ t.text

def ident : Spelling → List Char
  | dotted _ x _ _ _ => x
  | item v _ => v.item

/-- When the identifier is read back. A first field that starts like a mangled path must
end in the identifier's segment, or be the whole symbol and hold no segment. An item must
start with a letter, the crate's name must not add digits to the item's length, and no
longer segment may stand before it. -/
def Legible : Spelling → Prop
  | dotted front x numbers _ _ =>
    let first := (front ++ [x]).headD []
    ['_', 'R'].isPrefixOf first = true →
      LongestSegment first x ∨ ((∀ y, ¬ Segment first y) ∧ front = [] ∧ numbers = [])
  | item v _ =>
    separated v.item = false ∧ (∀ d ∈ trailingDigits v.crate, d = '0') ∧
      ∀ y, Segment v.symbol y → y.length ≤ v.item.length

end Spelling

theorem isIdent_undotted {x : List Char} (ident : isIdent x = true) : '.' ∉ x := by
  intro dot
  cases x with
  | nil => cases dot
  | cons c cs =>
    simp only [isIdent, and_eq_true, all_eq_true] at ident
    rcases mem_cons.mp dot with rfl | inside
    · exact absurd ident.1 (by decide)
    · exact absurd (ident.2 _ inside) (by decide)

theorem isIdent_not_number {x : List Char} (ident : isIdent x = true) : ¬ IsNumber x := by
  obtain ⟨c, cs, rfl, other⟩ := isIdent_start ident
  rintro ⟨-, digits⟩
  simp [other] at digits

theorem isNumber_undotted {n : List Char} (number : IsNumber n) : '.' ∉ n := fun dot =>
  absurd (all_eq_true.mp number.2 _ dot) (by decide)

theorem takeWhile_joinWith {f : List Char} (undotted : '.' ∉ f) (fs : List (List Char)) :
    (joinWith '.' (f :: fs)).takeWhile (· ≠ '.') = f := by
  have all : ∀ c ∈ f, decide (c ≠ '.') = true := fun c member => by
    simpa using fun dot : c = '.' => undotted (dot ▸ member)
  cases fs with
  | nil => exact takeWhile_eq_self_iff.mpr all
  | cons g gs =>
    rw [joinWith, takeWhile_append_of_pos all]
    · simp
    · exact cons_ne_nil g gs

theorem reading_dotted {front numbers : List (List Char)} {x y : List Char}
    (idents : ∀ f ∈ x :: front, isIdent f = true) (digits : ∀ n ∈ numbers, IsNumber n)
    (read : Reading (joinWith '.' (front ++ x :: numbers)) y) :
    y = x ↔ (Spelling.dotted front x numbers idents digits).Legible := by
  have undotted : ∀ f ∈ front ++ x :: numbers, '.' ∉ f := by
    intro f member
    rcases mem_append.mp member with before | rest
    · exact isIdent_undotted (idents f (.tail _ before))
    rcases mem_cons.mp rest with rfl | behind
    · exact isIdent_undotted (idents f (.head _))
    · exact isNumber_undotted (digits f behind)
  have fields : splitOn '.' (joinWith '.' (front ++ x :: numbers)) = front ++ x :: numbers :=
    splitOn_joinWith (by simp) undotted
  have base : (joinWith '.' (front ++ x :: numbers)).takeWhile (· ≠ '.') =
      (front ++ [x]).headD [] := by
    cases front with
    | nil => exact takeWhile_joinWith (undotted x (.head _)) numbers
    | cons f front => exact takeWhile_joinWith (undotted f (.head _)) (front ++ x :: numbers)
  have named := isIdent_not_number (idents x (.head _))
  cases read with
  | segment mangled last =>
    rw [IsMangled, base] at mangled
    rw [base] at last
    constructor
    · rintro rfl _
      exact .inl last
    · intro legible
      rcases legible mangled with this | ⟨none, _⟩
      · exact last.unique this
      · exact absurd last.segment (none y)
  | unsegmented mangled none =>
    rw [IsMangled, base] at mangled
    rw [base] at none
    constructor
    · intro whole _
      rw [whole, splitOn_free (undotted x (by simp))] at fields
      have alone : front = [] ∧ numbers = [] := by
        have count := congrArg List.length fields
        simp only [length_append, length_cons, length_nil] at count
        exact ⟨length_eq_zero_iff.mp (by omega), length_eq_zero_iff.mp (by omega)⟩
      exact .inr ⟨none, alone⟩
    · intro legible
      rcases legible mangled with this | ⟨_, rfl, rfl⟩
      · exact absurd this.segment (none x)
      · rfl
  | @field front' numbers' _ plain fields' kept digits' =>
    have one := getLast?_kept_iff.mpr ⟨front', numbers', fields', kept, digits'⟩
    have other := getLast?_kept_iff.mpr ⟨front, numbers, fields, named, digits⟩
    rw [IsMangled, base] at plain
    exact iff_of_true (Option.some.inj (one.symm.trans other)) fun mangled =>
      absurd mangled plain
  | unfielded _ all => exact absurd (all x (by simp [fields])) named

theorem digitsValue_append (zs ds : List Char) :
    digitsValue (zs ++ ds) = digitsValue zs * 10 ^ ds.length + digitsValue ds := by
  induction ds using List.reverseRecOn with
  | nil => simp [digitsValue]
  | append_singleton ds d ih =>
    rw [← append_assoc, digitsValue_snoc, digitsValue_snoc, ih, length_append, length_singleton,
      pow_succ]
    ring

theorem zeros_of_digitsValue {zs : List Char} (digits : ∀ d ∈ zs, d.isDigit = true)
    (zero : digitsValue zs = 0) : ∀ d ∈ zs, d = '0' := by
  induction zs using List.reverseRecOn with
  | nil => nofun
  | append_singleton zs z ih =>
    rw [digitsValue_snoc] at zero
    intro d member
    rcases mem_append.mp member with before | last
    · exact ih (fun d member => digits d (mem_append_left _ member)) (by omega) d before
    obtain rfl := mem_singleton.mp last
    have digit := digits d (by simp)
    simp only [Char.isDigit, and_eq_true, decide_eq_true_eq, UInt32.le_iff_toNat_le] at digit
    have low : '0'.toNat ≤ d.toNat := digit.1
    exact Char.toNat_inj.mp (by omega)

theorem trailingDigits_isDigit (cs : List Char) : ∀ d ∈ trailingDigits cs, d.isDigit = true :=
  fun _ member => mem_takeWhile_imp (mem_reverse.mp member)

theorem segment_symbol_iff (v : ItemPath) :
    Segment v.symbol v.item ↔
      separated v.item = false ∧ ∀ d ∈ trailingDigits v.crate, d = '0' := by
  cases kind : separated v.item with
  | true =>
    refine iff_of_false ?_ fun both => Bool.noConfusion both.1
    rintro ⟨⟨front, digits, split, some', all, _⟩, _⟩
    have symbol : v.symbol = (v.front ++ decimal v.item.length ++ ['_']) ++ v.item := by
      simp [ItemPath.symbol, ItemPath.front, encodeIdent, kind]
    rw [symbol, ← append_assoc] at split
    have last := congrArg List.getLast? (append_cancel_right split)
    rw [getLast?_concat, getLast?_append_of_ne_nil _ some'] at last
    exact absurd (all '_' (mem_of_getLast? last.symm)) (by decide)
  | false =>
    obtain ⟨early, runs, longer⟩ := digitRuns_symbol v kind
    rw [segment_iff, runs]
    constructor
    · rintro ⟨r, member, hit, own⟩
      simp only [isSegment, and_eq_true, decide_eq_true_eq] at hit
      rcases mem_append.mp member with before | rest
      · exact absurd (longer r before) (by rw [own]; omega)
      rcases mem_cons.mp rest with rfl | behind
      · refine ⟨rfl, zeros_of_digitsValue (trailingDigits_isDigit _) ?_⟩
        have value : v.item.length = _ := hit.1
        rw [digitsValue_append, digitsValue_decimal] at value
        have power : 0 < 10 ^ (decimal v.item.length).length := Nat.pos_of_ne_zero (by simp)
        have none : digitsValue (trailingDigits v.crate) *
            10 ^ (decimal v.item.length).length = 0 := by omega
        exact (Nat.mul_eq_zero.mp none).resolve_right power.ne'
      · exact absurd (digitRuns_shorter behind) (by rw [own]; omega)
    · rintro ⟨-, zeros⟩
      rw [digitsValue_zeros zeros, digitsValue_decimal]
      refine ⟨_, mem_append_right _ (.head _), ?_, rfl⟩
      simp [isSegment, isIdent_of_letter v.item_word.1 v.item_word.2 kind]

theorem reading_item {v : ItemPath} {t : NumberSuffix} {y : List Char}
    (read : Reading (v.symbol ++ t.text) y) : y = v.item ↔ (Spelling.item v t).Legible := by
  have base := takeWhile_symbol v t
  have mangled : IsMangled (v.symbol ++ t.text) := by
    rw [IsMangled, base]
    exact symbol_starts v
  cases read with
  | segment _ last =>
    rw [base] at last
    constructor
    · rintro rfl
      obtain ⟨direct, zeros⟩ := (segment_symbol_iff v).mp last.segment
      exact ⟨direct, zeros, last.longest⟩
    · rintro ⟨direct, zeros, longest⟩
      exact last.unique ⟨(segment_symbol_iff v).mpr ⟨direct, zeros⟩, longest⟩
  | unsegmented _ none =>
    rw [base] at none
    refine iff_of_false (fun whole => ?_) fun legible =>
      none v.item ((segment_symbol_iff v).mpr ⟨legible.1, legible.2.1⟩)
    have count := congrArg List.length whole
    simp only [ItemPath.symbol, encodeIdent, length_append, length_cons] at count
    omega
  | field plain => exact absurd mangled plain
  | unfielded plain => exact absurd mangled plain

theorem Spelling.reading {s : Spelling} {x : List Char} (read : Reading s.symbol x) :
    x = s.ident ↔ s.Legible := by
  cases s with
  | dotted front y numbers idents digits => exact reading_dotted idents digits read
  | item v t => exact reading_item read

end BpfEquiv
