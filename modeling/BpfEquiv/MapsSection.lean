import BpfEquiv.Canon
import BpfEquiv.DepthFirst
import BpfEquiv.Dict
import BpfEquiv.Scan
import BpfEquiv.Subst
import BpfEquiv.Text

/-!
The order of the map definitions in a module text.

A line that defines a map in the section .maps names other maps in its initialiser. When any
does, all definitions are made writable and written back into the lines they had, each map
before the maps that name it.
-/
namespace BpfEquiv.MapsSection

open List
open Relation (TransGen)
open Subst (Classes)

abbrev Chars := List Char

def global : Chars := ['g', 'l', 'o', 'b', 'a', 'l']

def keywords : List Chars := [['c', 'o', 'n', 's', 't', 'a', 'n', 't'], global]

def marker : Chars := ", section \".maps\"".toList

def isLower (c : Char) : Bool := c.isLower || c = '_'

/-- A word of lower case letters, with another one in parentheses or not. -/
def isSpecifier (w : Chars) : Bool :=
  !(w.takeWhile isLower).isEmpty &&
    match w.dropWhile isLower with
    | [] => true
    | '(' :: cs => !(cs.takeWhile isLower).isEmpty && cs.dropWhile isLower = [')']
    | _ => false

/-- The section is named somewhere, and the text ends there or goes on with a comma. -/
def inMaps (rest : Chars) : Bool :=
  rest.tails.any fun t => marker.isPrefixOf t && (t.drop marker.length).head?.all (· = ',')

/-- A definition: its name, what stands before the keyword, and what follows it. -/
structure MapDef where
  name : Chars
  specifiers : List Chars
  keyword : Chars
  rest : Chars
  deriving DecidableEq

/-- The words up to the first keyword after which the section is named. -/
def keywordAt : List Chars → Option (List Chars × Chars × Chars)
  | w :: v :: ws =>
    if w ∈ keywords ∧ inMaps (joinWith ' ' (v :: ws)) then some ([], w, joinWith ' ' (v :: ws))
    else if isSpecifier w then (keywordAt (v :: ws)).map fun r => (w :: r.1, r.2)
    else none
  | _ => none

def nonSpace (c : Char) : Bool := !Text.isSpace c

def mapDef : Chars → Option MapDef
  | '@' :: cs =>
    match cs.dropWhile nonSpace with
    | ' ' :: '=' :: ' ' :: tail =>
      if cs.takeWhile nonSpace = [] then none
      else (keywordAt (splitOn ' ' tail)).map fun r =>
        ⟨cs.takeWhile nonSpace, r.1, r.2.1, r.2.2⟩
    | _ => none
  | _ => none

def MapDef.text (d : MapDef) : Chars :=
  '@' :: d.name ++ ' ' :: '=' :: ' ' :: d.specifiers.flatMap (· ++ [' ']) ++ d.keyword ++
    ' ' :: d.rest

def MapDef.asGlobal (d : MapDef) : MapDef := { d with keyword := global }

/-- What stands before the first occurrence of a part. -/
def upTo (part : Chars) : Chars → Chars
  | [] => []
  | c :: cs => if part.isPrefixOf (c :: cs) then [] else c :: upTo part cs

section
variable (classes : Classes)

/-- A reference at a place of a text, and what follows it. -/
def ref (prev : Option Char) : Chars → Option (Chars × Chars)
  | 'p' :: 't' :: 'r' :: ' ' :: '@' :: c :: cs =>
    if prev.any classes.word || !(c.isAlpha || c = '_' || c = '$' || c = '.') then none
    else
      let isName d := classes.word d || d = '$' || d = '.'
      some (c :: cs.takeWhile isName, cs.dropWhile isName)
  | _ => none

def MapDef.refs (d : MapDef) : List Chars :=
  (Scan.finditer (ref classes) (upTo marker d.rest)).map (·.value)

/-- The texts in place of the first lines that define maps. -/
def write : List Chars → List Chars → List Chars
  | [], _ => []
  | line :: lines, texts =>
    match mapDef line, texts with
    | some _, t :: texts => t :: write lines texts
    | _, _ => line :: write lines texts

def maps (ir : Chars) : List MapDef := (splitOn '\n' ir).filterMap mapDef

abbrev Defs := List (Chars × Chars × List Chars)

def entries (ds : List MapDef) : Defs := ds.map fun d => (d.name, d.asGlobal.text, d.refs classes)

def targets (defs : Defs) (name : Chars) : List Chars :=
  ((defs.lookup name).map (·.2)).getD [] |>.filter (· ∈ Dict.keys defs)

/-- Nothing if the placement does not end. -/
def unify (ir : Chars) : Option Chars :=
  let defs := Dict.update [] (entries classes (maps ir))
  if defs.all (·.2.2.isEmpty) then some ir
  else (DepthFirst.sort (targets defs) (Dict.keys defs)).map fun order =>
    joinWith '\n' (write (splitOn '\n' ir) (order.filterMap fun n => (defs.lookup n).map (·.1)))

/-- The initialiser of one map names another one. -/
def NamesMap (ds : List MapDef) (a b : Chars) : Prop :=
  b ∈ ds.map (·.name) ∧ ∃ d ∈ ds, d.name = a ∧ b ∈ d.refs classes

/-- Every map comes before the maps that name it. -/
def Ordered (ds : List MapDef) : Prop :=
  ∀ before d after, ds = before ++ d :: after → ∀ e ∈ ds, e.name ∈ d.refs classes → e ∈ before

/-- A line that defines no map stays, and one that does gets a definition. -/
def SameSlot (line line' : Chars) : Prop :=
  mapDef line = none ∧ line' = line ∨ (mapDef line).isSome ∧ (mapDef line').isSome

end

/-! Reading a definition back. -/

theorem inMaps_suffix {rest text : Chars} (tail : rest <:+ text) (h : inMaps rest = true) :
    inMaps text = true := by
  obtain ⟨t, member, named⟩ := any_eq_true.mp h
  exact any_eq_true.mpr ⟨t, (mem_tails _ _).mpr (((mem_tails _ _).mp member).trans tail), named⟩

theorem joinWith_words (ss : List Chars) (k v : Chars) (ws : List Chars) :
    joinWith ' ' (ss ++ k :: v :: ws) = ss.flatMap (· ++ [' ']) ++ k ++
      ' ' :: joinWith ' ' (v :: ws) := by
  induction ss with
  | nil => rfl
  | cons s ss ih =>
    have step : joinWith ' ' (s :: (ss ++ k :: v :: ws)) =
        s ++ ' ' :: joinWith ' ' (ss ++ k :: v :: ws) := by
      cases ss <;> rfl
    rw [cons_append, step, ih, flatMap_cons]
    simp

/-- The words of a definition, and the same words with another keyword. -/
theorem keywordAt_global {words ss : List Chars} {k rest : Chars}
    (h : keywordAt words = some (ss, k, rest)) :
    ∃ v ws, words = ss ++ k :: v :: ws ∧ rest = joinWith ' ' (v :: ws) ∧ inMaps rest = true ∧
      keywordAt (ss ++ global :: v :: ws) = some (ss, global, rest) := by
  induction words generalizing ss with
  | nil => cases h
  | cons w words ih =>
    cases words with
    | nil => cases h
    | cons v ws =>
      rw [keywordAt] at h
      split at h
      · next found =>
        cases h
        refine ⟨v, ws, rfl, rfl, found.2, ?_⟩
        rw [nil_append, keywordAt, if_pos ⟨by decide, found.2⟩]
      rename_i missing
      split at h
      · rename_i specifier
        obtain ⟨⟨ss', k', rest'⟩, later, same⟩ := Option.map_eq_some_iff.mp h
        cases same
        obtain ⟨v', ws', shape, isRest, named, again⟩ := ih later
        refine ⟨v', ws', by rw [shape]; rfl, isRest, named, ?_⟩
        have noKeyword : w ∉ keywords := fun keyword => missing ⟨keyword, by
          rw [shape, joinWith_words, ← isRest]
          exact inMaps_suffix ((suffix_cons _ _).trans (suffix_append _ _)) named⟩
        obtain ⟨u, us, head⟩ : ∃ u us, ss' ++ global :: v' :: ws' = u :: us := by
          cases ss' <;> exact ⟨_, _, rfl⟩
        rw [cons_append, head, keywordAt, if_neg fun h => noKeyword h.1, if_pos specifier, ← head,
          again]
        rfl
      · cases h

theorem mapDef_spec {line : Chars} {d : MapDef} (h : mapDef line = some d) :
    line = d.text ∧ mapDef d.asGlobal.text = some d.asGlobal := by
  unfold mapDef at h
  split at h
  · rename_i cs
    split at h
    · rename_i tail after
      split at h
      · cases h
      rename_i nonempty
      obtain ⟨⟨ss, k, rest⟩, found, rfl⟩ := Option.map_eq_some_iff.mp h
      obtain ⟨v, ws, shape, isRest, -, again⟩ := keywordAt_global found
      have whole := takeWhile_append_dropWhile (p := nonSpace) (l := cs)
      have isTail := joinWith_splitOn ' ' tail
      rw [shape, joinWith_words, ← isRest] at isTail
      refine ⟨?_, ?_⟩
      · rw [after, ← isTail] at whole
        exact (congrArg ('@' :: ·) whole.symm).trans (by simp [MapDef.text])
      set name := cs.takeWhile nonSpace
      have plain : ∀ c ∈ name, nonSpace c = true := fun c inside => mem_takeWhile_imp inside
      have free := fun f member => @not_mem_splitOn ' ' tail f member
      rw [shape] at free
      have words : splitOn ' ' (ss.flatMap (· ++ [' ']) ++ global ++ ' ' :: rest) =
          ss ++ global :: v :: ws := by
        rw [isRest, ← joinWith_words, splitOn_joinWith (by simp)]
        intro f member
        rcases mem_append.mp member with before | later
        · exact free f (mem_append_left _ before)
        · rcases mem_cons.mp later with rfl | later
          · decide
          · exact free f (mem_append_right _ (.tail k later))
      have stop : ¬ nonSpace ' ' = true := by decide
      simp only [MapDef.text, MapDef.asGlobal, cons_append, append_assoc, mapDef]
      rw [dropWhile_append_of_pos plain, takeWhile_append_of_pos plain, dropWhile_cons_of_neg stop,
        takeWhile_cons_of_neg stop, append_nil]
      simp only [if_neg nonempty]
      rw [← append_assoc, words, again]
      rfl
    · cases h
  · cases h

theorem write_spec {lines : List Chars} {ds : List MapDef}
    (same : ds.length = (lines.filterMap mapDef).length) (each : ∀ d ∈ ds, mapDef d.text = some d) :
    (write lines (ds.map (·.text))).filterMap mapDef = ds ∧
      Forall₂ SameSlot lines (write lines (ds.map (·.text))) ∧
      ∀ line ∈ write lines (ds.map (·.text)), line ∈ lines ∨ ∃ d ∈ ds, line = d.text := by
  induction lines generalizing ds with
  | nil => exact ⟨(length_eq_zero_iff.mp same).symm, .nil, by simp [write]⟩
  | cons line lines ih =>
    cases here : mapDef line with
    | none =>
      rw [filterMap_cons_none here] at same
      obtain ⟨kept, slots, known⟩ := ih same each
      simp only [write, here, filterMap_cons_none here]
      refine ⟨kept, .cons (.inl ⟨here, rfl⟩) slots, forall_mem_cons.mpr ⟨.inl (.head _), ?_⟩⟩
      exact fun l later => (known l later).imp_left (.tail line)
    | some old =>
      rw [filterMap_cons_some here] at same
      cases ds with
      | nil => cases same
      | cons d ds =>
        have first := each d (.head ds)
        obtain ⟨kept, slots, known⟩ := ih (Nat.succ.inj same) fun e later => each e (.tail d later)
        simp only [map_cons, write, here, filterMap_cons_some first, kept]
        refine ⟨trivial, .cons (.inr ⟨by rw [here]; rfl, by rw [first]; rfl⟩) slots,
          forall_mem_cons.mpr ⟨.inr ⟨d, .head ds, rfl⟩, fun l later => ?_⟩⟩
        exact (known l later).imp (.tail line) fun ⟨e, member, isText⟩ =>
          ⟨e, .tail d member, isText⟩

theorem write_self (lines : List Chars) :
    write lines ((lines.filterMap mapDef).map (·.text)) = lines := by
  induction lines with
  | nil => rfl
  | cons line lines ih =>
    cases here : mapDef line with
    | none => simp only [filterMap_cons_none here, write, here, ih]
    | some d =>
      simp only [filterMap_cons_some here, map_cons, write, here, ih, ← (mapDef_spec here).1]

/-! Placement by name. -/

section Place
variable {classes : Classes} {ds : List MapDef}

def byName (ds : List MapDef) (n : Chars) : Option MapDef := ds.find? (·.name = n)

theorem lookup_entries (n : Chars) :
    (entries classes ds).lookup n =
      (byName ds n).map fun d => (d.asGlobal.text, d.refs classes) := by
  induction ds with
  | nil => rfl
  | cons d ds ih =>
    rw [entries, map_cons, lookup_cons, byName, find?_cons]
    by_cases same : n = d.name
    · simp [same]
    · rw [beq_false_of_ne same, decide_eq_false fun h => same h.symm]
      exact ih

theorem byName_some {n : Chars} {d : MapDef} (h : byName ds n = some d) : d ∈ ds ∧ d.name = n := by
  rw [byName] at h
  exact ⟨mem_of_find?_eq_some h, by simpa using find?_some h⟩

theorem keys_entries : Dict.keys (entries classes ds) = ds.map (·.name) := by
  simp [Dict.keys, entries]

variable (distinct : (ds.map (·.name)).Nodup)
include distinct

theorem byName_of_mem {d : MapDef} (member : d ∈ ds) : byName ds d.name = some d := by
  cases found : byName ds d.name with
  | none => exact absurd (decide_eq_true rfl) (find?_eq_none.mp found d member)
  | some e =>
    obtain ⟨inside, same⟩ := byName_some found
    rw [inj_on_of_nodup_map distinct inside member same]

theorem filterMap_byName : (ds.map (·.name)).filterMap (byName ds) = ds := by
  rw [filterMap_map]
  exact (filterMap_congr fun d member => byName_of_mem distinct member).trans filterMap_some

theorem update_entries : Dict.update [] (entries classes ds) = entries classes ds :=
  Dict.update_of_nodup (by rw [nil_append, keys_entries]; exact distinct)

theorem mem_targets {a b : Chars} :
    b ∈ targets (entries classes ds) a ↔ NamesMap classes ds a b := by
  rw [targets, mem_filter, decide_eq_true_eq, keys_entries, lookup_entries, and_comm, NamesMap]
  refine and_congr_right fun _ => ⟨fun h => ?_, fun ⟨d, member, isName, named⟩ => ?_⟩
  · cases found : byName ds a with
    | none => simp [found] at h
    | some d =>
      rw [found] at h
      exact ⟨d, (byName_some found).1, (byName_some found).2, h⟩
  · rw [← isName, byName_of_mem distinct member]
    exact named

theorem unify_eq {ir : Chars} (isMaps : maps ir = ds) (named : ∃ d ∈ ds, d.refs classes ≠ []) :
    unify classes ir = (DepthFirst.sort (targets (entries classes ds)) (ds.map (·.name))).map
      fun order => joinWith '\n' (write (splitOn '\n' ir)
        (((order.filterMap (byName ds)).map (·.asGlobal)).map (·.text))) := by
  have some' : (entries classes ds).all (·.2.2.isEmpty) = false := by
    obtain ⟨d, member, nonempty⟩ := named
    refine all_eq_false.mpr ⟨_, mem_map_of_mem member, ?_⟩
    simpa using nonempty
  simp only [unify, isMaps, update_entries distinct, some', Bool.false_eq_true, if_false,
    keys_entries]
  congr 1
  funext order
  rw [map_map, map_filterMap]
  congr 2
  refine filterMap_congr fun n _ => ?_
  rw [lookup_entries, Option.map_map]
  rfl

end Place

theorem free_of_text {d : MapDef} {c : Char} (other : c ∉ global) (h : c ∉ d.text) :
    c ∉ d.asGlobal.text := by
  simp only [MapDef.text, MapDef.asGlobal, mem_append, mem_cons, not_or] at h ⊢
  exact ⟨⟨h.1.1, other⟩, h.2⟩

theorem map_byName {ds : List MapDef} {order : List Chars} (distinct : (ds.map (·.name)).Nodup)
    (perm : order ~ ds.map (·.name)) :
    order.filterMap (byName ds) ~ ds ∧ (order.filterMap (byName ds)).map (·.name) = order := by
  constructor
  · exact (perm.filterMap (byName ds)).trans (.of_eq (filterMap_byName distinct))
  rw [map_filterMap]
  refine (filterMap_congr fun n member => ?_).trans filterMap_some
  obtain ⟨d, inside, rfl⟩ := mem_map.mp (perm.mem_iff.mp member)
  rw [byName_of_mem distinct inside]
  rfl

/-- The placement of the maps of a module whose initialisers name symbols. -/
theorem unify_spec {classes : Classes} {ir : Chars} (distinct : ((maps ir).map (·.name)).Nodup)
    (named : ∃ d ∈ maps ir, d.refs classes ≠ []) :
    ∃ out ds, unify classes ir = some out ∧ ds ~ maps ir ∧ maps out = ds.map (·.asGlobal) ∧
      Forall₂ SameSlot (splitOn '\n' ir) (splitOn '\n' out) ∧
      ((∀ n, ¬ TransGen (NamesMap classes (maps ir)) n n) →
        DepthFirst.Sorted (targets (entries classes (maps ir))) (ds.map (·.name))) := by
  have closed : ∀ a ∈ (maps ir).map (·.name), ∀ b ∈ targets (entries classes (maps ir)) a,
      b ∈ (maps ir).map (·.name) := fun a _ b edge => ((mem_targets distinct).mp edge).1
  obtain ⟨order, sorted, perm, after⟩ := DepthFirst.sort_spec closed distinct
  obtain ⟨isPerm, names⟩ := map_byName distinct perm
  set ds := order.filterMap (byName (maps ir))
  have parsed (d : MapDef) (member : d ∈ ds) :
      ∃ line ∈ splitOn '\n' ir, mapDef line = some d :=
    mem_filterMap.mp (isPerm.mem_iff.mp member)
  obtain ⟨isMaps, slots, known⟩ := @write_spec (splitOn '\n' ir) (ds.map (·.asGlobal))
    (by rw [length_map]; exact isPerm.length_eq) fun d member => by
      obtain ⟨e, inside, rfl⟩ := mem_map.mp member
      obtain ⟨line, _, found⟩ := parsed e inside
      exact (mapDef_spec found).2
  set written := write (splitOn '\n' ir) ((ds.map (·.asGlobal)).map (·.text))
  have lines : splitOn '\n' (joinWith '\n' written) = written := by
    refine splitOn_joinWith (fun none => ?_) fun line member => ?_
    · rw [none] at slots
      exact splitOn_ne_nil '\n' ir (forall₂_nil_right_iff.mp slots)
    rcases known line member with old | ⟨e, new, rfl⟩
    · exact not_mem_splitOn old
    · obtain ⟨d, inside, rfl⟩ := mem_map.mp new
      obtain ⟨line, old, found⟩ := parsed d inside
      exact free_of_text (by decide) ((mapDef_spec found).1 ▸ not_mem_splitOn old)
  refine ⟨_, ds, by rw [unify_eq distinct rfl named, sorted]; rfl, isPerm, ?_, ?_,
    fun acyclic => ?_⟩
  · exact (congrArg (filterMap mapDef) lines).trans isMaps
  · exact lines ▸ slots
  · rw [names]
    exact after fun n cycle =>
      acyclic n (TransGen.mono (fun _ _ edge => (mem_targets distinct).mp edge) _ _ cycle)

theorem sorted_of_ordered {classes : Classes} {ds : List MapDef}
    (distinct : (ds.map (·.name)).Nodup) (ordered : Ordered classes ds) :
    DepthFirst.Sorted (targets (entries classes ds)) (ds.map (·.name)) := by
  intro before x after same y edge
  obtain ⟨before, ⟨⟩ | ⟨d, after⟩, rfl, rfl, rest⟩ := map_eq_append_iff.mp same
  · cases rest
  obtain ⟨rfl, rfl⟩ := cons.inj rest
  obtain ⟨inside, d', member, isName, named⟩ := (mem_targets distinct).mp edge
  obtain ⟨e, member', rfl⟩ := mem_map.mp inside
  rw [inj_on_of_nodup_map distinct member (mem_append_right before (.head after)) isName] at named
  exact mem_map_of_mem (ordered before d after rfl e member' named)

/-- Maps with distinct names are placed: every other line stays where it is, every definition is
kept once and made writable, and a module whose maps name nothing is not changed. Without cycles
every map comes before the maps that name it, and a second pass changes nothing. -/
theorem maps_placed (classes : Classes) (ir : Chars) (distinct : ((maps ir).map (·.name)).Nodup) :
    ∃ out, unify classes ir = some out ∧
      ((∀ d ∈ maps ir, d.refs classes = []) → out = ir) ∧
      ((∃ d ∈ maps ir, d.refs classes ≠ []) → maps out ~ (maps ir).map (·.asGlobal) ∧
        Forall₂ SameSlot (splitOn '\n' ir) (splitOn '\n' out)) ∧
      ((∀ n, ¬ TransGen (NamesMap classes (maps ir)) n n) →
        Ordered classes (maps out) ∧ unify classes out = some out) := by
  by_cases named : ∃ d ∈ maps ir, d.refs classes ≠ []
  · obtain ⟨out, ds, done, perm, isMaps, slots, sorted⟩ := unify_spec distinct named
    have names : (ds.map (·.asGlobal)).map (·.name) = ds.map (·.name) := map_map
    have twice : (ds.map (·.asGlobal)).map (·.asGlobal) = ds.map (·.asGlobal) := map_map
    have distinct' : ((ds.map (·.asGlobal)).map (·.name)).Nodup :=
      names ▸ (perm.map _).nodup_iff.mpr distinct
    refine ⟨out, done, fun none => absurd named (by simpa using none), fun _ => ⟨?_, slots⟩,
      fun acyclic => ?_⟩
    · rw [isMaps]
      exact perm.map _
    have ordered : Ordered classes (ds.map (·.asGlobal)) := by
      intro before d after same e member named
      have split := congrArg (map (·.name)) same
      rw [names, map_append, map_cons] at split
      obtain ⟨d₀, inside, rfl⟩ := mem_map.mp (same ▸ mem_append_right before (.head after))
      have below := sorted acyclic _ _ _ split e.name ((mem_targets distinct).mpr
        ⟨(perm.map _).mem_iff.mp (names ▸ mem_map_of_mem member), d₀, perm.mem_iff.mp inside, rfl,
          named⟩)
      obtain ⟨e', inside', isName⟩ := mem_map.mp below
      rw [← inj_on_of_nodup_map distinct' (same ▸ mem_append_left _ inside') member isName]
      exact inside'
    refine ⟨isMaps ▸ ordered, ?_⟩
    obtain ⟨d, member, nonempty⟩ := named
    have again := unify_eq distinct' isMaps
      ⟨d.asGlobal, mem_map_of_mem (perm.mem_iff.mpr member), nonempty⟩
    rw [DepthFirst.sort_of_sorted (sorted_of_ordered distinct' ordered) distinct', Option.map_some,
      filterMap_byName distinct', twice, ← isMaps, maps, write_self, joinWith_splitOn] at again
    exact again
  · have none : ∀ d ∈ maps ir, d.refs classes = [] := by simpa using named
    have untouched : unify classes ir = some ir := by
      have empty : (entries classes (maps ir)).all (·.2.2.isEmpty) = true := by
        simpa [entries] using none
      simp only [unify, update_entries distinct, empty, if_true]
    refine ⟨ir, untouched, fun _ => rfl, fun some' => absurd some' named, fun _ => ⟨?_, untouched⟩⟩
    intro before d after same e _ inside
    rw [none d (same ▸ mem_append_right before (.head after))] at inside
    cases inside

/-- A map whose initialiser names the map defined after it. -/
def nestedIr : Chars :=
  ("@o = constant [1 x ptr] [ptr @i], section \".maps\"\n" ++
    "@i = constant i32 0, section \".maps\"").toList

theorem maps_placed_nested :
    ∃ out, unify .asciiOnly nestedIr = some out ∧ maps out ~ (maps nestedIr).map (·.asGlobal) ∧
      Ordered .asciiOnly (maps out) ∧ unify .asciiOnly out = some out := by
  obtain ⟨out, done, -, kept, placed⟩ := maps_placed .asciiOnly nestedIr (by decide +kernel)
  have edges : (maps nestedIr).map (fun d => (d.name, d.refs .asciiOnly)) =
      [(['o'], [['i']]), (['i'], [])] := by decide +kernel
  have only (a b : Chars) (h : NamesMap .asciiOnly (maps nestedIr) a b) :
      a = ['o'] ∧ b = ['i'] := by
    obtain ⟨-, d, member, rfl, named⟩ := h
    have entry := mem_map_of_mem (f := fun d : MapDef => (d.name, d.refs .asciiOnly)) member
    rw [edges] at entry
    simp only [mem_cons, not_mem_nil, or_false, Prod.mk.injEq] at entry
    rcases entry with ⟨isName, refs⟩ | ⟨-, refs⟩
    · rw [refs] at named
      exact ⟨isName, mem_singleton.mp named⟩
    · rw [refs] at named
      cases named
  refine ⟨out, done, (kept (by decide +kernel)).1, placed fun n cycle => ?_⟩
  obtain ⟨_, first, _⟩ := TransGen.head'_iff.mp cycle
  obtain ⟨_, _, last⟩ := TransGen.tail'_iff.mp cycle
  exact absurd ((only _ _ first).1.symm.trans (only _ _ last).2) (by decide)

def quotedIr : Chars :=
  ("@o = constant [1 x ptr] [ptr @\"+\"], section \".maps\"\n" ++
    "@\"+\" = constant i32 0, section \".maps\"").toList

/-- A name that needs quotes is not read as a reference, and the map stays behind the one whose
initialiser names it. -/
theorem quoted_map_unplaced :
    ∃ outer inner, maps quotedIr = [outer, inner] ∧ outer.name ≠ inner.name ∧
      ['p', 't', 'r', ' ', '@'] ++ inner.name <:+: upTo marker outer.rest ∧
      '@' ∉ upTo marker inner.rest ∧ unify .asciiOnly quotedIr = some quotedIr := by
  let outer := "[1 x ptr] [ptr @\"+\"], section \".maps\"".toList
  let inner := "i32 0, section \".maps\"".toList
  refine ⟨⟨['o'], [], "constant".toList, outer⟩, ⟨['"', '+', '"'], [], "constant".toList, inner⟩,
    by decide +kernel, by decide, Text.contains_iff.mp (by decide +kernel), by decide +kernel,
    by decide +kernel⟩

end BpfEquiv.MapsSection
