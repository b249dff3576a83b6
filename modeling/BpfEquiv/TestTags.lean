import BpfEquiv.Dict
import BpfEquiv.Subst

/-!
The lint of the test tags: every tag of the C object must be declared by the translation, and a
message may differ in tokens that depend on code generation.

The lint blanks such tokens in both texts, brackets included, and compares what is left. So two
texts pass just if they are the same around their tokens. It does not look at the tokens: a
token may be replaced by any other one and by any bracket.
-/
namespace BpfEquiv.Lint

open Subst List

/-! Messages. -/

inductive Token where
  | bracket | register | slot | off | insn | src | processed
  deriving DecidableEq

def lits (s : String) : List Item := s.toList.map .one

/-- The patterns in the order of their passes. -/
def Token.pattern : Token → Pattern Token
  | .bracket =>
    ⟨.bracket, false, [], [.one '{', .one '{', .upTo '}', .one '}', .one '}'], [], false⟩
  | .register => ⟨.register, true, [], [.one 'R', .digits], [], true⟩
  | .slot => ⟨.slot, true, [], lits "fp-" ++ [.digits], [], true⟩
  | .off => ⟨.off, true, [], lits "off=" ++ [.opt '-', .digits], [], true⟩
  | .insn => ⟨.insn, true, lits "insn ", [.digits], [], true⟩
  | .src => ⟨.src, false, lits " @ " ++ [.word, .one '.'], [.either ['c'] ['r', 's']], [], true⟩
  | .processed => ⟨.processed, false, lits "processed ", [.digits], lits " insns", false⟩

def shown : Token → List Char
  | .src => "<src>".toList
  | _ => "<X>".toList

def codegenTokens : List Token := [.bracket, .register, .slot, .off, .insn, .src, .processed]

section Messages
variable (cls : Classes)

def normalizeMsg (s : String) : String :=
  String.ofList (codegenTokens.foldl (fun s k => sub cls shown k.pattern s) s.toList)

/-- The message divided into plain characters and tokens. -/
def tokens (s : String) : List (Sym Token) :=
  codegenTokens.foldl (fun m k => refine cls k.pattern 0 none m) (chars s.toList)

end Messages

/-! The check. -/

inductive Level where
  | error | warn | note
  deriving DecidableEq

abbrev Tags := List (String × List String)

def commaList (xs : List String) : String := ", ".intercalate xs

/-- The finding about one declared tag, if it is not the tag of the C object. -/
def checkTag (cls : Classes) (repr : String → String) (fn w g : String) : Option (Level × String) :=
  if w = g then none
  else if normalizeMsg cls w = normalizeMsg cls g then
    some (.note, fn ++ ": relaxed " ++ repr w ++ " -> " ++ repr g ++
      " (codegen-dependent tokens only)")
  else
    some (.error, fn ++ ": declared tag " ++ repr g ++ " diverges from the C object's " ++ repr w ++
      " beyond register/offset relaxation")

def checkProgram (cls : Classes) (repr : String → String) (cTags declared : Tags) (fn : String) :
    List (Level × String) :=
  let want := (cTags.lookup fn).getD []
  let got := (declared.lookup fn).getD []
  if want = [] then [(.error, fn ++ ": declares tags the C object does not have")]
  else if got = [] then [(.error, fn ++ ": C object tags this program, translation does not")]
  else if want.length ≠ got.length then
    [(.error, fn ++ ": " ++ toString got.length ++ " tag(s) declared, C object has " ++
      toString want.length)]
  else (want.zip got).filterMap fun (w, g) => checkTag cls repr fn w g

/-- The tags of the C object, if it could be read, against what the translation declares or why
that does not parse. How a message quotes a text is a parameter. -/
def checkTestTags (cls : Classes) (repr : String → String) (cTags : Option Tags)
    (parsed : Except String Tags) : List (Level × String) :=
  match cTags with
  | none => []
  | some cTags =>
    match parsed with
    | .error e => [(.error, "test_tags! does not parse: " ++ e)]
    | .ok entries =>
      let declared := Dict.update [] entries
      if cTags ≠ [] ∧ declared = [] then
        let kinds := ((cTags.flatMap fun e => e.2.map fun t =>
          String.ofList (t.toList.takeWhile (· ≠ '='))).dedup).insertionSort (· ≤ ·)
        let inverts := kinds.any fun k => "test_expect_failure".toList.isPrefixOf k.toList
        [(if inverts then .error else .warn,
          "the C object carries test_loader decl tags (" ++ commaList kinds ++
            ") but this translation declares no test_tags! — " ++
            (if inverts then
              "without them the loader defaults to expect-success and the test inverts"
            else "those assertions are not being made against the translation"))]
      else if declared ≠ [] ∧ cTags = [] then
        [(.error, "test_tags! is declared but the C object carries none")]
      else
        ((Dict.keys cTags ++ Dict.keys declared).dedup.insertionSort (· ≤ ·)).flatMap
          (checkProgram cls repr cTags declared)

/-! Passes as one division. -/

theorem shown_shows : Shows shown '<' '>' where
  framed k := by
    cases k with
    | src => exact ⟨['s', 'r', 'c'], by decide, by decide⟩
    | _ => exact ⟨['X'], by decide, by decide⟩
  free k k' h := by
    cases k <;> cases k' <;> revert h <;> decide

section Division
variable {cls : Classes}

theorem word_bracket : cls.word '<' = false ∧ cls.word '>' = false ∧ cls.digit '<' = false := by
  have less := cls.ascii '<' (by decide)
  have greater := cls.ascii '>' (by decide)
  exact ⟨less.2.trans (by decide), greater.2.trans (by decide), less.1.trans (by decide)⟩

theorem starts_quiet (k : Token) :
    ∃ d, k.pattern.StartsWith d ∧ ∀ k' : Token, d ∉ shown k' := by
  have quiet (d : Char) (h : ∀ k' ∈ codegenTokens, d ∉ shown k') (k' : Token) : d ∉ shown k' := by
    cases k' <;> exact h _ (by decide)
  cases k with
  | bracket => exact ⟨'{', rfl, quiet _ (by decide)⟩
  | register => exact ⟨'R', rfl, quiet _ (by decide)⟩
  | slot => exact ⟨'f', rfl, quiet _ (by decide)⟩
  | off => exact ⟨'o', rfl, quiet _ (by decide)⟩
  | insn => exact ⟨'i', rfl, quiet _ (by decide)⟩
  | src => exact ⟨' ', rfl, quiet _ (by decide)⟩
  | processed => exact ⟨'p', rfl, quiet _ (by decide)⟩

theorem lits_avoids {s : String} (free : '<' ∉ s.toList) : ∀ it ∈ lits s, it.Avoids cls '<' := by
  intro it inside
  obtain ⟨c, member, rfl⟩ := mem_map.mp inside
  rintro rfl
  exact free member

/-- After the brackets no pass touches a shown text. -/
theorem pattern_avoids {k : Token} (other : k ≠ .bracket) : k.pattern.Avoids cls '<' := by
  obtain ⟨noWord, _, noDigit⟩ := @word_bracket cls
  have none' : ∀ it ∈ ([] : List Item), it.Avoids cls '<' := fun _ inside => nomatch inside
  have digits : ∀ it ∈ [Item.digits], it.Avoids cls '<' := by
    intro it inside
    cases mem_singleton.mp inside
    exact noDigit
  cases k with
  | bracket => exact absurd rfl other
  | register =>
    have capital : (Item.one 'R').Avoids cls '<' := show 'R' ≠ '<' by decide
    exact ⟨none', forall_mem_cons.mpr ⟨capital, digits⟩, none', noWord⟩
  | slot =>
    exact ⟨none', forall_mem_append.mpr ⟨lits_avoids (by decide), digits⟩, none', noWord⟩
  | off =>
    have minus : (Item.opt '-').Avoids cls '<' := show '-' ≠ '<' by decide
    exact ⟨none', forall_mem_append.mpr ⟨lits_avoids (by decide),
      forall_mem_cons.mpr ⟨minus, digits⟩⟩, none', noWord⟩
  | insn => exact ⟨lits_avoids (by decide), digits, none', noWord⟩
  | src =>
    have dot : (Item.one '.').Avoids cls '<' := show '.' ≠ '<' by decide
    have ending : (Item.either ['c'] ['r', 's']).Avoids cls '<' :=
      show '<' ∉ ['c'] ∧ '<' ∉ ['r', 's'] by decide
    refine ⟨forall_mem_append.mpr ⟨lits_avoids (by decide), ?_⟩, ?_, none', noWord⟩
    · exact forall_mem_cons.mpr ⟨noWord, forall_mem_cons.mpr ⟨dot, none'⟩⟩
    · exact forall_mem_cons.mpr ⟨ending, none'⟩
  | processed => exact ⟨lits_avoids (by decide), digits, lits_avoids (by decide), noWord⟩

theorem foldl_sub {ks : List Token} (others : .bracket ∉ ks) (m : List (Sym Token)) :
    ks.foldl (fun s k => sub cls shown k.pattern s) (render shown m) =
      render shown (ks.foldl (fun m k => refine cls k.pattern 0 none m) m) := by
  induction ks generalizing m with
  | nil => rfl
  | cons k ks ih =>
    obtain ⟨d, starts, quiet⟩ := starts_quiet k
    have other : k ≠ .bracket := fun same => others (same ▸ (.head _))
    rw [foldl_cons, foldl_cons, sub_render shown_shows starts (pattern_avoids other)
      word_bracket.2.1 quiet, ih fun inside => others (.tail k inside)]

theorem normalizeMsg_eq (s : String) :
    normalizeMsg cls s = String.ofList (render shown (tokens cls s)) := by
  have first : codegenTokens = .bracket :: codegenTokens.tail := rfl
  rw [normalizeMsg, tokens, first, foldl_cons, foldl_cons, sub, foldl_sub (by decide)]

theorem foldl_refine {P : List (Sym Token) → Prop}
    (step : ∀ (k : Token) m, P m → P (refine cls k.pattern 0 none m)) {ks : List Token}
    {m : List (Sym Token)} (h : P m) :
    P (ks.foldl (fun m k => refine cls k.pattern 0 none m) m) := by
  induction ks generalizing m with
  | nil => exact h
  | cons k ks ih => exact ih (step k m h)

theorem restore_tokens (s : String) : restore (tokens cls s) = s.toList := by
  refine foldl_refine (P := fun m => restore m = s.toList) (fun k m same => ?_)
    (restore_chars s.toList)
  obtain ⟨d, starts, _⟩ := starts_quiet k
  rw [restore_refine starts (Nat.zero_le _), same]
  rfl

def Token.Is (cls : Classes) (k : Token) (t : List Char) : Prop := k.pattern.IsToken cls t

theorem is_of_mem {s : String} {k : Token} {t : List Char} (h : .tok k t ∈ tokens cls s) :
    k.Is cls t := by
  have all : ∀ k t, .tok k t ∈ tokens cls s → Token.Is cls k t := by
    refine foldl_refine (P := fun m => ∀ k t, .tok k t ∈ m → Token.Is cls k t) ?_ ?_
    · intro p m was k t inside
      rcases mem_refine inside with old | ⟨kind, is⟩
      · exact was k t old
      have own : p.pattern.kind = p := by cases p <;> rfl
      rw [own] at kind
      rw [kind]
      exact is
    · intro k t inside
      obtain ⟨c, _, same⟩ := mem_map.mp inside
      cases same
  exact all k t h

/-- No shown text in the message itself. -/
def Clean (s : String) : Prop := ¬ "<X>".toList <:+: s.toList ∧ ¬ "<src>".toList <:+: s.toList

instance (s : String) : Decidable (Clean s) := inferInstanceAs (Decidable (_ ∧ _))

theorem Clean.clear {s : String} (clean : Clean s) : Clear shown (tokens cls s) := by
  refine clear_of_restore fun k => ?_
  rw [restore_tokens]
  cases k with
  | src => exact clean.2
  | _ => exact clean.1

/-- Two messages with the same normal form are the same around their tokens. -/
theorem same_of_normalizeMsg {w g : String} (cleanW : Clean w) (cleanG : Clean g)
    (alike : normalizeMsg cls w = normalizeMsg cls g) :
    List.Forall₂ (Same shown) (tokens cls w) (tokens cls g) := by
  rw [normalizeMsg_eq, normalizeMsg_eq, String.ofList_inj] at alike
  exact same_of_render_eq shown_shows cleanW.clear cleanG.clear alike

end Division

/-! Relaxations. -/

/-- What a bracket's text matches. -/
abbrev Lang := List Char → List Char → Prop

/-- A token that stays, one whose place is taken by a bracket that matches tokens of its class
only, or the source file of the translation. -/
inductive Proper (cls : Classes) (lang : Lang) : Token × List Char → Token × List Char → Prop where
  | same (k : Token) (t : List Char) : Proper cls lang (k, t) (k, t)
  | relaxed {k : Token} (t : List Char) {re : List Char} (concrete : k ≠ .bracket ∧ k ≠ .src)
      (only : ∀ x, lang re x → k.Is cls x) :
      Proper cls lang (k, t) (.bracket, '{' :: '{' :: (re ++ ['}', '}']))
  | source : Proper cls lang (.src, ['c']) (.src, ['r', 's'])

inductive Kept (cls : Classes) (lang : Lang) : Sym Token → Sym Token → Prop where
  | ch (c : Char) : Kept cls lang (.ch c) (.ch c)
  | tok {k k' : Token} {t t' : List Char} (proper : Proper cls lang (k, t) (k', t')) :
      Kept cls lang (.tok k t) (.tok k' t')

/-- The message with nothing changed but tokens, and these properly. -/
def Relaxed (cls : Classes) (lang : Lang) (w g : String) : Prop :=
  List.Forall₂ (Kept cls lang) (tokens cls w) (tokens cls g)

def slot : Sym Token → Option (Token × List Char)
  | .ch _ => none
  | .tok k t => some (k, t)

def slots (cls : Classes) (s : String) : List (Token × List Char) := (tokens cls s).filterMap slot

section Relaxation
variable {cls : Classes} {lang : Lang}

theorem Proper.shown_eq {a b : Token × List Char} (h : Proper cls lang a b) :
    shown a.1 = shown b.1 := by
  cases h with
  | same | source => rfl
  | @relaxed k t re concrete only =>
    cases k with
    | src => exact absurd rfl concrete.2
    | _ => rfl

theorem kept_same {m m' : List (Sym Token)} (kept : List.Forall₂ (Kept cls lang) m m') :
    List.Forall₂ (Same shown) m m' := by
  refine kept.imp fun a b head => ?_
  cases head with
  | ch c => exact .ch c
  | tok proper => exact .tok _ _ proper.shown_eq

theorem kept_iff {m m' : List (Sym Token)} (same : List.Forall₂ (Same shown) m m') :
    List.Forall₂ (Kept cls lang) m m' ↔
      List.Forall₂ (Proper cls lang) (m.filterMap slot) (m'.filterMap slot) := by
  induction same with
  | nil => exact iff_of_true .nil .nil
  | cons head _ ih =>
    cases head with
    | ch c =>
      rw [forall₂_cons, ih]
      exact and_iff_right (.ch c)
    | tok t t' alike =>
      simp only [filterMap_cons, slot]
      rw [forall₂_cons, ih, forall₂_cons]
      refine and_congr_left fun _ => ⟨fun kept => ?_, .tok⟩
      cases kept with
      | tok proper => exact proper

/-! Log lines. -/

/-- The text that a message matches. -/
inductive Accepts (lang : Lang) : List (Sym Token) → List Char → Prop where
  | nil : Accepts lang [] []
  | ch (c : Char) {m : List (Sym Token)} {line : List Char} (rest : Accepts lang m line) :
      Accepts lang (.ch c :: m) (c :: line)
  | tok {k : Token} (t : List Char) {m : List (Sym Token)} {line : List Char}
    (concrete : k ≠ .bracket)
      (rest : Accepts lang m line) : Accepts lang (.tok k t :: m) (t ++ line)
  | bracket {re x : List Char} {m : List (Sym Token)} {line : List Char} (matched : lang re x)
      (rest : Accepts lang m line) :
      Accepts lang (.tok .bracket ('{' :: '{' :: (re ++ ['}', '}'])) :: m) (x ++ line)

/-- Lines that differ in tokens of one class each. -/
inductive UpTo (cls : Classes) : List Char → List Char → Prop where
  | nil : UpTo cls [] []
  | same (x : List Char) {a b : List Char} (rest : UpTo cls a b) : UpTo cls (x ++ a) (x ++ b)
  | token {k : Token} {x y : List Char} {a b : List Char} (first : k.Is cls x) (second : k.Is cls y)
      (rest : UpTo cls a b) : UpTo cls (x ++ a) (y ++ b)
  | source {a b : List Char} (rest : UpTo cls a b) : UpTo cls ('r' :: 's' :: a) ('c' :: b)

/-- What a token accepts, and what is accepted behind it. -/
theorem accepts_tok {k : Token} {t : List Char} {m : List (Sym Token)} {line : List Char}
    (h : Accepts lang (.tok k t :: m) line) :
    ∃ x rest, line = x ++ rest ∧ Accepts lang m rest ∧
      ((k ≠ .bracket ∧ x = t) ∨
        (k = .bracket ∧ ∃ re, t = '{' :: '{' :: (re ++ ['}', '}']) ∧ lang re x)) := by
  cases h with
  | tok _ concrete rest => exact ⟨t, _, rfl, rest, .inl ⟨concrete, rfl⟩⟩
  | @bracket re x _ _ matched rest => exact ⟨x, _, rfl, rest, .inr ⟨rfl, re, rfl, matched⟩⟩

theorem accepts_kept {m m' : List (Sym Token)} (kept : List.Forall₂ (Kept cls lang) m m')
    (tokens : ∀ k t, .tok k t ∈ m → Token.Is cls k t) {line : List Char}
    (h : Accepts lang m' line) :
    ∃ line', Accepts lang m line' ∧ UpTo cls line line' := by
  induction kept generalizing line with
  | nil =>
    cases h
    exact ⟨[], .nil, .nil⟩
  | cons head _ ih =>
    have later {line : List Char} :=
      @ih (fun k t inside => tokens k t (.tail _ inside)) line
    cases head with
    | ch c =>
      cases h with
      | ch _ rest =>
        obtain ⟨line', accepts, upTo⟩ := later rest
        exact ⟨c :: line', .ch c accepts, .same [c] upTo⟩
    | @tok k k' t t' proper =>
      obtain ⟨x, rest, rfl, accepted, how⟩ := accepts_tok h
      obtain ⟨line', accepts, upTo⟩ := later accepted
      cases proper with
      | same =>
        rcases how with ⟨concrete, rfl⟩ | ⟨rfl, re, rfl, matched⟩
        · exact ⟨x ++ line', .tok x concrete accepts, .same x upTo⟩
        · exact ⟨x ++ line', .bracket matched accepts, .same x upTo⟩
      | relaxed _ concrete only =>
        rcases how with ⟨other, _⟩ | ⟨_, re', text, matched⟩
        · exact absurd rfl other
        have same := append_cancel_right (List.cons.inj (List.cons.inj text).2).2
        rw [← same] at matched
        exact ⟨t ++ line', .tok t concrete.1 accepts,
          .token (only x matched) (tokens _ t (.head _)) upTo⟩
      | source =>
        rcases how with ⟨concrete, rfl⟩ | ⟨other, _⟩
        · exact ⟨'c' :: line', .tok ['c'] concrete accepts, .source upTo⟩
        · cases other

theorem Relaxed.accepts {w g : String} (relaxed : Relaxed cls lang w g) {line : List Char}
    (h : Accepts lang (tokens cls g) line) :
    ∃ line', Accepts lang (tokens cls w) line' ∧ UpTo cls line line' :=
  accepts_kept relaxed (fun _ _ inside => is_of_mem inside) h

end Relaxation

/-! The findings. -/

section Findings
variable {cls : Classes} {repr : String → String}

theorem checkTag_no_error {fn w g : String}
    (h : ∀ f, checkTag cls repr fn w g = some f → f.1 ≠ .error) :
    normalizeMsg cls w = normalizeMsg cls g := by
  unfold checkTag at h
  by_cases same : w = g
  · rw [same]
  by_cases alike : normalizeMsg cls w = normalizeMsg cls g
  · exact alike
  · rw [if_neg same, if_neg alike] at h
    exact absurd rfl (h _ rfl)

theorem checkProgram_no_error {c declared : Tags} {fn : String}
    (h : ∀ f ∈ checkProgram cls repr c declared fn, f.1 ≠ .error) :
    ∃ want, c.lookup fn = some want ∧
      List.Forall₂ (fun w g => normalizeMsg cls w = normalizeMsg cls g) want
        ((declared.lookup fn).getD []) := by
  unfold checkProgram at h
  simp only at h
  split at h
  · exact absurd rfl (h _ (.head _))
  rename_i some'
  split at h
  · exact absurd rfl (h _ (.head _))
  split at h
  · exact absurd rfl (h _ (.head _))
  rename_i lengths
  cases found : c.lookup fn with
  | none =>
    rw [found] at some'
    exact absurd rfl some'
  | some want =>
    rw [found] at h lengths
    refine ⟨want, rfl, forall₂_iff_zip.mpr ⟨not_not.mp lengths, fun pair => ?_⟩⟩
    exact @checkTag_no_error cls repr fn _ _ fun f finding =>
      h f (mem_filterMap.mpr ⟨_, pair, finding⟩)

/-- Without an error every declared tag has one of the C object with the same normal form. -/
theorem checkTestTags_no_error {c entries : Tags}
    (h : ∀ f ∈ checkTestTags cls repr (some c) (.ok entries), f.1 ≠ .error) {fn : String}
    {got : List String} (declared : (Dict.update [] entries).lookup fn = some got) :
    ∃ want, c.lookup fn = some want ∧
      List.Forall₂ (fun w g => normalizeMsg cls w = normalizeMsg cls g) want got := by
  have inside : fn ∈ Dict.keys (Dict.update [] entries) := by
    rw [← Dict.lookup_isSome, declared]
    rfl
  have nonempty : Dict.update [] entries ≠ [] := by
    intro none'
    rw [none'] at inside
    cases inside
  simp only [checkTestTags, nonempty, and_false, if_false] at h
  split at h
  · exact absurd rfl (h _ (.head _))
  have listed : fn ∈ (Dict.keys c ++ Dict.keys (Dict.update [] entries)).dedup.insertionSort
      (· ≤ ·) := by
    rw [mem_insertionSort, mem_dedup]
    exact mem_append_right _ inside
  have own := @checkProgram_no_error cls repr c (Dict.update [] entries) fn fun f finding =>
    h f (mem_flatMap.mpr ⟨fn, listed, finding⟩)
  rw [declared] at own
  exact own

end Findings

/-- The messages are the same around their tokens. Where no message has a shown text of its own
this is what the lint compares. -/
def Aligned (cls : Classes) (w g : String) : Prop :=
  (Clean w ∧ Clean g) ∨ List.Forall₂ (Same shown) (tokens cls w) (tokens cls g)

/-- Where the lint reports no error, every declared program is one of the C object, and its
messages are relaxed properly just if each token of a message is the one of the C object, a
bracket for its class, or the name of the translation, at the same place. A message that is
relaxed properly accepts no line that the message of the C object does not, up to tokens. -/
theorem relaxed_iff (cls : Classes) (lang : Lang) (repr : String → String) (c entries : Tags)
    (noError : ∀ f ∈ checkTestTags cls repr (some c) (.ok entries), f.1 ≠ .error) :
    (∀ fn got, (Dict.update [] entries).lookup fn = some got → ∃ want, c.lookup fn = some want ∧
      (List.Forall₂ (Relaxed cls lang) want got ↔
        List.Forall₂ (fun w g => Aligned cls w g ∧
          List.Forall₂ (Proper cls lang) (slots cls w) (slots cls g)) want got)) ∧
    ∀ w g, Relaxed cls lang w g → ∀ line, Accepts lang (tokens cls g) line →
      ∃ line', Accepts lang (tokens cls w) line' ∧ UpTo cls line line' := by
  refine ⟨fun fn got declared => ?_, fun w g relaxed line => relaxed.accepts⟩
  obtain ⟨want, found, alike⟩ := checkTestTags_no_error noError declared
  refine ⟨want, found, ?_⟩
  obtain ⟨lengths, alike⟩ := forall₂_iff_zip.mp alike
  have each {w g : String} (pair : (w, g) ∈ want.zip got) : Relaxed cls lang w g ↔
      Aligned cls w g ∧ List.Forall₂ (Proper cls lang) (slots cls w) (slots cls g) := by
    refine ⟨fun kept => ⟨.inr (kept_same kept), (kept_iff (kept_same kept)).mp kept⟩, ?_⟩
    rintro ⟨⟨cleanW, cleanG⟩ | same, proper⟩
    · exact (kept_iff (same_of_normalizeMsg cleanW cleanG (alike pair))).mpr proper
    · exact (kept_iff same).mpr proper
  rw [forall₂_iff_zip, forall₂_iff_zip]
  exact ⟨fun all => ⟨lengths, fun pair => (each pair).mp (all.2 pair)⟩,
    fun all => ⟨lengths, fun pair => (each pair).mpr (all.2 pair)⟩⟩

/-! One message and three ways to declare it. -/

def quoted (s : String) : String := "'" ++ s ++ "'"

def cMsg : String := "test_expect_msg=R1 !read_ok"

def registerMsg : String := "test_expect_msg=\x7b\x7bR[0-9]\x7d\x7d !read_ok"

def swappedMsg : String := "test_expect_msg=R2 !read_ok"

def wildMsg : String := "test_expect_msg=\x7b\x7b.*\x7d\x7d !read_ok"

def tagsOf (msg : String) : Tags := [("prog", [msg])]

/-- The class of registers matches registers, and every other bracket matches every text. -/
def sampleLang : Lang := fun re x => re = "R[0-9]".toList → Token.register.Is .asciiOnly x

theorem relaxed_iff_register :
    ∃ want, (tagsOf cMsg).lookup "prog" = some want ∧
      List.Forall₂ (Relaxed .asciiOnly sampleLang) want [registerMsg] := by
  obtain ⟨want, found, iff⟩ := (relaxed_iff .asciiOnly sampleLang quoted (tagsOf cMsg)
    (tagsOf registerMsg) (by decide +kernel)).1 "prog" [registerMsg] rfl
  cases found
  refine ⟨_, rfl, iff.mpr (.cons ⟨.inl (by decide +kernel), ?_⟩ .nil)⟩
  have before : slots .asciiOnly cMsg = [(.register, "R1".toList)] := by decide +kernel
  have after : slots .asciiOnly registerMsg =
      [(.bracket, '{' :: '{' :: ("R[0-9]".toList ++ ['}', '}']))] := by decide +kernel
  rw [before, after]
  exact .cons (.relaxed _ (by decide) fun x matched => matched rfl) .nil

section Unchecked
variable {lang : Lang}

theorem Proper.inv {cls : Classes} {a b : Token × List Char} (h : Proper cls lang a b) :
    a = b ∨ a.1 = .src ∨ ∃ re, b = (.bracket, '{' :: '{' :: (re ++ ['}', '}'])) ∧
      ∀ x, lang re x → a.1.Is cls x := by
  cases h with
  | same k t => exact .inl rfl
  | relaxed t concrete only => exact .inr (.inr ⟨_, rfl, only⟩)
  | source => exact .inr (.inl rfl)

theorem accepts_chars {m : List (Sym Token)} {line : List Char} (s : List Char)
    (h : Accepts lang m line) : Accepts lang (chars s ++ m) (s ++ line) := by
  induction s with
  | nil => exact h
  | cons c s ih => exact .ch c ih

theorem not_relaxed {g : String} {k : Token} {t : List Char}
    (slot : slots .asciiOnly g = [(k, t)])
    (improper : ¬ Proper .asciiOnly lang (.register, "R1".toList) (k, t)) :
    ¬ Relaxed .asciiOnly lang cMsg g := by
  intro relaxed
  have before : slots .asciiOnly cMsg = [(.register, "R1".toList)] := by decide +kernel
  have proper := (kept_iff (kept_same relaxed)).mp relaxed
  change List.Forall₂ _ (slots .asciiOnly cMsg) (slots .asciiOnly g) at proper
  rw [before, slot] at proper
  cases proper with
  | cons head _ => exact improper head

end Unchecked

/-- The lint has no error to report on another register or on a bracket that swallows any
text. -/
theorem relaxation_unchecked :
    (∀ f ∈ checkTestTags .asciiOnly quoted (some (tagsOf cMsg)) (.ok (tagsOf swappedMsg)),
        f.1 ≠ .error) ∧
      (∀ lang, ¬ Relaxed .asciiOnly lang cMsg swappedMsg) ∧
      (∀ f ∈ checkTestTags .asciiOnly quoted (some (tagsOf cMsg)) (.ok (tagsOf wildMsg)),
        f.1 ≠ .error) ∧
      ∀ lang : Lang, (∀ x, lang ".*".toList x) → ¬ Relaxed .asciiOnly lang cMsg wildMsg ∧
        Accepts lang (tokens .asciiOnly wildMsg)
          "test_expect_msg=another text !read_ok".toList := by
  have swapped : slots .asciiOnly swappedMsg = [(.register, "R2".toList)] := by decide +kernel
  have wild : slots .asciiOnly wildMsg =
      [(.bracket, '{' :: '{' :: (".*".toList ++ ['}', '}']))] := by decide +kernel
  refine ⟨by decide +kernel, fun lang => ?_, by decide +kernel, fun lang any => ⟨?_, ?_⟩⟩
  · refine not_relaxed swapped fun proper => ?_
    rcases proper.inv with same | source | ⟨re, bracket, _⟩
    · exact absurd (congrArg Prod.snd same) (by decide)
    · cases source
    · cases congrArg Prod.fst bracket
  · refine not_relaxed wild fun proper => ?_
    rcases proper.inv with same | source | ⟨re, bracket, only⟩
    · cases congrArg Prod.fst same
    · cases source
    have text := congrArg Prod.snd bracket
    have same := append_cancel_right (List.cons.inj (List.cons.inj text).2).2
    -- the empty text is no register
    obtain ⟨rest, taken⟩ := only [] (same ▸ any [])
    exact eatAll_one_ne taken rfl
  · have divided : tokens .asciiOnly wildMsg = chars "test_expect_msg=".toList ++
        .tok .bracket ('{' :: '{' :: (".*".toList ++ ['}', '}'])) ::
          (chars " !read_ok".toList ++ []) := by decide +kernel
    rw [divided]
    exact accepts_chars _ (.bracket (any "another text".toList) (accepts_chars _ .nil))

end BpfEquiv.Lint
