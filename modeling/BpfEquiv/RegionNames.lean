import BpfEquiv.Canon
import BpfEquiv.Names
import BpfEquiv.PtrHelper

/-!
Names of regions identify them. A name is the kind of the region, then a colon and
what tells regions of that kind apart. Symbols and sections may contain colons; the
numbers and ids beside them do not, so a name is still read in one way.
-/
namespace BpfEquiv

open List Option

variable {sep : Char} {a : List Char} {k l : MapvalKey}

/-! Fields of a text. -/

theorem splitOn_append (free : sep ∉ a) (d : List Char) :
    splitOn sep (a ++ sep :: d) = a :: splitOn sep d := by
  induction a with
  | nil => simp [splitOn]
  | cons c a ih =>
    have other : c ≠ sep := fun same => free (same ▸ (.head _))
    have rest := ih fun member => free (.tail c member)
    simp only [cons_append, splitOn, if_neg other, rest]

theorem splitOn_free (free : sep ∉ a) : splitOn sep a = [a] := by
  induction a with
  | nil => rfl
  | cons c a ih =>
    have other : c ≠ sep := fun same => free (same ▸ (.head _))
    simp only [splitOn, if_neg other, ih fun member => free (.tail c member)]

theorem splitOn_inj {b : List Char} (same : splitOn sep a = splitOn sep b) :
    a = b := by
  rw [← joinWith_splitOn sep a, same, joinWith_splitOn]

/-- What stands before and behind the last colon of a text that ends in a number. -/
theorem cut_number {a b : String} {n k : Nat} (h : a ++ ":" ++ n.repr = b ++ ":" ++ k.repr) :
    a = b ∧ n = k := by
  have colon (i : Nat) : ':' ∉ i.repr.toList := fun member =>
    absurd (isDigit_of_mem_repr member) (by decide)
  have chars := congrArg String.toList h
  simp only [String.toList_append, show (":" : String).toList = [':'] from rfl,
    append_assoc, singleton_append] at chars
  obtain ⟨front, back⟩ := cut_last chars (colon n) (colon k)
  exact ⟨String.toList_inj.mp front, Nat.repr_inj.mp (String.toList_inj.mp back)⟩

/-! Numbers. -/

theorem mem_toString_int {n : Int} {c : Char} (member : c ∈ (toString n).toList) :
    c.isDigit = true ∨ c = '-' := by
  cases n with
  | ofNat k => exact .inl (isDigit_of_mem_repr member)
  | negSucc k =>
    have shape : (toString (Int.negSucc k)).toList = '-' :: (k + 1).repr.toList := by
      change ("-" ++ (k + 1).repr).toList = _
      rw [String.toList_append]
      rfl
    rw [shape] at member
    obtain first | rest := mem_cons.mp member
    · exact .inr first
    · exact .inl (isDigit_of_mem_repr rest)

theorem colon_free_int (n : Int) : ':' ∉ (toString n).toList := by
  intro member
  obtain digit | sign := mem_toString_int member
  · exact absurd digit (by decide)
  · exact absurd sign (by decide)

/-! Memory handed back by the environment. -/

def MapvalKey.owner : MapvalKey → Option Int
  | .call hid _ _ | .sk hid _ | .percpu hid _ | .xchg hid _ => some hid
  | .cookie _ | .iter _ _ | .timer _ _ | .cb _ _ _ => none

def MapvalKey.kind : MapvalKey → String
  | .call hid _ _ | .sk hid _ | .percpu hid _ | .xchg hid _ => toString hid
  | .cookie _ | .iter _ _ => "kf"
  | .timer _ _ => "timer"
  | .cb _ _ _ => "cb"

def MapvalKey.detail : MapvalKey → String
  | .call _ mname idx => mname ++ ":" ++ idx.repr
  | .sk _ idx => "sk:" ++ idx.repr
  | .percpu _ tag => tag
  | .xchg _ idx => "old:" ++ idx.repr
  | .cookie idx => "cookie:" ++ idx.repr
  | .iter kind idx => "iter_" ++ kind ++ ":" ++ idx.repr
  | .timer mname fid => mname ++ ":" ++ fid.repr
  | .cb mname fid i => mname ++ ":" ++ fid.repr ++ ":" ++ i.repr

/-- Keys that the helpers produce: every helper has keys of one form. -/
def MapvalKey.Occurs : MapvalKey → Prop
  | .call hid _ _ => isSkLookup hid = false ∧ hid ≠ 153 ∧ hid ≠ 154 ∧ hid ≠ 194
  | .sk hid _ => isSkLookup hid = true
  | .percpu hid _ => hid = 153 ∨ hid = 154
  | .xchg hid _ => hid = 194
  | .cookie _ | .iter _ _ | .timer _ _ | .cb _ _ _ => True

theorem MapvalKey.name_eq (k : MapvalKey) : k.name = k.kind ++ ":" ++ k.detail := by
  cases k <;> simp only [MapvalKey.name, MapvalKey.kind, MapvalKey.detail, toString,
    String.append_assoc] <;> rfl

theorem MapvalKey.colon_free_kind (k : MapvalKey) : ':' ∉ k.kind.toList := by
  cases k with
  | call hid _ _ | sk hid _ | percpu hid _ | xchg hid _ => exact colon_free_int hid
  | cookie _ | iter _ _ | timer _ _ | cb _ _ _ => simp [MapvalKey.kind]

theorem MapvalKey.fields_eq (same : k.name = l.name) :
    k.kind = l.kind ∧ k.detail = l.detail := by
  rw [k.name_eq, l.name_eq] at same
  have chars := congrArg String.toList same
  simp only [String.toList_append, show (":" : String).toList = [':'] from rfl,
    append_assoc, singleton_append] at chars
  obtain ⟨kinds, details⟩ := cut_first chars k.colon_free_kind l.colon_free_kind
  exact ⟨String.toList_inj.mp kinds, String.toList_inj.mp details⟩

/-- No helper id is a word. -/
theorem MapvalKey.owner_eq_none_iff (k : MapvalKey) :
    k.owner = none ↔ k.kind = "kf" ∨ k.kind = "timer" ∨ k.kind = "cb" := by
  have word (n : Int) (w : String) (c : Char) (inside : c ∈ w.toList) (letter : c.isDigit = false)
      (sign : c ≠ '-') : toString n ≠ w := by
    rintro rfl
    obtain digit | minus := mem_toString_int inside
    · exact absurd digit (by rw [letter]; decide)
    · exact sign minus
  cases k with
  | call hid _ _ | sk hid _ | percpu hid _ | xchg hid _ =>
    refine iff_of_false (by simp [MapvalKey.owner]) ?_
    rintro (kf | timer | cb)
    · exact word hid "kf" 'k' (by decide) (by decide) (by decide) kf
    · exact word hid "timer" 't' (by decide) (by decide) (by decide) timer
    · exact word hid "cb" 'c' (by decide) (by decide) (by decide) cb
  | cookie _ | iter _ _ | timer _ _ | cb _ _ _ => simp [MapvalKey.owner, MapvalKey.kind]

theorem MapvalKey.owner_eq (kinds : k.kind = l.kind) : k.owner = l.owner := by
  have both : k.owner = none ↔ l.owner = none := by
    rw [k.owner_eq_none_iff, l.owner_eq_none_iff, kinds]
  have number {k : MapvalKey} {n : Int} (owner : k.owner = some n) : k.kind = toString n := by
    cases k <;> cases owner <;> rfl
  cases hk : k.owner with
  | none => exact (both.mp hk).symm
  | some n =>
    cases hl : l.owner with
    | none => exact absurd (both.mpr hl) (by simp [hk])
    | some m =>
      rw [number hk, number hl] at kinds
      rw [Int.repr_inj.mp kinds]

/-- The form of the keys of a helper. -/
def keyForm (hid : Int) : Nat :=
  if isSkLookup hid then 1 else if hid = 153 ∨ hid = 154 then 2 else if hid = 194 then 3 else 0

def MapvalKey.form : MapvalKey → Nat
  | .call _ _ _ => 0
  | .sk _ _ => 1
  | .percpu _ _ => 2
  | .xchg _ _ => 3
  | .cookie _ | .iter _ _ | .timer _ _ | .cb _ _ _ => 4

theorem MapvalKey.form_eq {hid : Int} (occurs : k.Occurs)
    (owner : k.owner = some hid) : k.form = keyForm hid := by
  cases k with
  | call _ _ _ =>
    cases owner
    obtain ⟨noSk, no153, no154, no194⟩ := occurs
    simp [keyForm, MapvalKey.form, noSk, no153, no154, no194]
  | sk _ _ =>
    cases owner
    simp only [MapvalKey.Occurs] at occurs
    simp [keyForm, MapvalKey.form, occurs]
  | percpu _ _ =>
    cases owner
    obtain rfl | rfl := occurs <;> rfl
  | xchg _ _ =>
    cases owner
    obtain rfl := occurs
    rfl
  | cookie _ | iter _ _ | timer _ _ | cb _ _ _ => cases owner

theorem MapvalKey.name_inj (hk : k.Occurs) (hl : l.Occurs)
    (same : k.name = l.name) : k = l := by
  obtain ⟨kinds, details⟩ := MapvalKey.fields_eq same
  have owners := MapvalKey.owner_eq kinds
  have forms (hid : Int) (owner : k.owner = some hid) : k.form = l.form := by
    rw [MapvalKey.form_eq hk owner, MapvalKey.form_eq hl (owners ▸ owner)]
  cases k <;> cases l <;> try first | (cases forms _ rfl; done) | (cases owners; done) |
    (simp [MapvalKey.kind] at kinds; done)
  case call.call | timer.timer =>
    obtain ⟨rfl, rfl⟩ := cut_number details
    cases owners
    rfl
  case sk.sk =>
    obtain ⟨_, rfl⟩ := @cut_number "sk" "sk" _ _ details
    cases owners
    rfl
  case percpu.percpu =>
    cases owners
    cases details
    rfl
  case xchg.xchg =>
    obtain ⟨_, rfl⟩ := @cut_number "old" "old" _ _ details
    cases owners
    rfl
  case cookie.cookie =>
    obtain ⟨_, rfl⟩ := @cut_number "cookie" "cookie" _ _ details
    rfl
  case cookie.iter | iter.cookie =>
    exact absurd (congrArg String.toList details) (by simp [MapvalKey.detail])
  case iter.iter =>
    obtain ⟨front, rfl⟩ := cut_number details
    rw [(String.append_right_inj _).mp front]
  case cb.cb =>
    obtain ⟨front, rfl⟩ := cut_number details
    obtain ⟨rfl, rfl⟩ := cut_number front
    rfl

/-! Regions. -/

def StackFrame.suffix : StackFrame → String
  | .main => ""
  | .sub fid => ":f" ++ fid.repr
  | .cb fid => ":cb" ++ fid.repr

def Region.kind : Region → String
  | .ctx => "ctx"
  | .kmem => "kmem"
  | .trace => "trace"
  | .sysret => "sysret"
  | .skbdata => "skbdata"
  | .g _ => "g"
  | .ro _ _ => "ro"
  | .kcfg _ _ => "kcfg"
  | .stack _ _ => "stack"
  | .map _ => "map"
  | .func _ _ => "func"
  | .mapval _ => "mapval"
  | .rbuf _ => "rbuf"
  | .arenapg _ => "arenapg"
  | .cbkey _ _ _ => "cbkey"
  | .cbarg _ => "cbarg"

/-- What stands behind the first colon. -/
def Region.detail : Region → Option String
  | .ctx | .kmem | .trace | .sysret | .skbdata => none
  | .g name => some name
  | .ro tag sec => some (tag ++ ":" ++ sec)
  | .kcfg tag name => some (tag ++ ":" ++ name)
  | .stack tag frame => some (tag ++ frame.suffix)
  | .map name => some name
  | .func sec idx => some (sec ++ ":" ++ toString idx)
  | .mapval key => some key.name
  | .rbuf idx | .arenapg idx | .cbarg idx => some idx.repr
  | .cbkey mname fid i => some (mname ++ ":" ++ fid.repr ++ ":" ++ i.repr)

theorem Region.name_eq (r : Region) :
    r.name = r.kind ++ (r.detail.map (":" ++ ·)).getD "" := by
  cases r with
  | stack tag frame =>
    cases frame <;> simp only [Region.name, Region.kind, Region.detail, StackFrame.suffix, toString,
      map_some, getD_some, String.append_assoc, String.append_empty] <;> rfl
  | _ =>
    simp only [Region.name, Region.kind, Region.detail, toString, map_some, map_none,
      getD_some, getD_none, String.append_assoc, String.append_empty] <;> rfl

theorem Region.colon_free_kind (r : Region) : ':' ∉ r.kind.toList := by
  cases r <;> simp [Region.kind]

theorem Region.fields_eq (r : Region) :
    r.fields = r.kind.toList :: (match r.detail with
      | none => []
      | some d => splitOn ':' d.toList) := by
  rw [Region.fields, r.name_eq, String.toList_append]
  cases r.detail with
  | none => simpa using splitOn_free r.colon_free_kind
  | some d =>
    rw [map_some, getD_some, String.toList_append]
    exact splitOn_append r.colon_free_kind d.toList

theorem Region.name_eq_iff_fields (r r' : Region) : r.name = r'.name ↔ r.fields = r'.fields :=
  ⟨fun same => by rw [Region.fields, Region.fields, same],
    fun same => String.toList_inj.mp (splitOn_inj same)⟩

theorem Region.kind_detail_eq {r r' : Region} (same : r.name = r'.name) :
    r.kind = r'.kind ∧ r.detail = r'.detail := by
  have fields := (r.name_eq_iff_fields r').mp same
  rw [r.fields_eq, r'.fields_eq, List.cons.injEq, String.toList_inj] at fields
  refine ⟨fields.1, ?_⟩
  cases hr : r.detail with
  | none =>
    cases hr' : r'.detail with
    | none => rfl
    | some d => exact absurd (by simpa [hr, hr'] using fields.2) (splitOn_ne_nil ':' d.toList)
  | some d =>
    cases hr' : r'.detail with
    | none => exact absurd (by simpa [hr, hr'] using fields.2) (splitOn_ne_nil ':' d.toList)
    | some d' =>
      rw [hr, hr'] at fields
      rw [String.toList_inj.mp (splitOn_inj fields.2)]

/-- Regions of the run with a tag. -/
def Region.OfRun (tag : String) : Region → Prop
  | .ro t _ | .kcfg t _ | .stack t _ => t = tag
  | .mapval key => key.Occurs
  | _ => True

theorem StackFrame.suffix_inj {f g : StackFrame} (same : f.suffix = g.suffix) : f = g := by
  have chars := congrArg String.toList same
  cases f <;> cases g <;> try first
    | rfl
    | (simp [StackFrame.suffix, String.toList_append] at chars; done)
  case sub.sub | cb.cb => rw [Nat.repr_inj.mp ((String.append_right_inj _).mp same)]

theorem Region.name_inj {tag : String} {r r' : Region} (hr : r.OfRun tag) (hr' : r'.OfRun tag)
    (same : r.name = r'.name) : r = r' := by
  obtain ⟨kinds, details⟩ := Region.kind_detail_eq same
  cases r <;> cases r' <;> try first | rfl | (simp [Region.kind] at kinds; done)
  case g.g | map.map => rw [Option.some.inj details]
  case rbuf.rbuf | arenapg.arenapg | cbarg.cbarg => rw [Nat.repr_inj.mp (Option.some.inj details)]
  case ro.ro | kcfg.kcfg =>
    cases hr
    cases hr'
    rw [(String.append_right_inj _).mp (Option.some.inj details)]
  case stack.stack =>
    cases hr
    cases hr'
    rw [StackFrame.suffix_inj ((String.append_right_inj _).mp (Option.some.inj details))]
  case func.func sec idx sec' idx' =>
    have chars := congrArg String.toList (Option.some.inj details)
    simp only [String.toList_append, show (":" : String).toList = [':'] from rfl,
      append_assoc, singleton_append] at chars
    obtain ⟨front, back⟩ := cut_last chars (colon_free_int idx) (colon_free_int idx')
    rw [String.toList_inj.mp front, Int.repr_inj.mp (String.toList_inj.mp back)]
  case mapval.mapval => rw [MapvalKey.name_inj hr hr' (Option.some.inj details)]
  case cbkey.cbkey =>
    obtain ⟨front, rfl⟩ := cut_number (Option.some.inj details)
    obtain ⟨rfl, rfl⟩ := cut_number front
    rfl

end BpfEquiv
