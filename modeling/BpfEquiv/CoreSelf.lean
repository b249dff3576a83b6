import BpfEquiv.CoreAnon
import BpfEquiv.Walk

/-!
Relocation of an object against its own types.

The checks of types are walks over them: through arrays for a field, through pointers, arrays
and prototypes for a whole type, and through members too where a type must match. Each of them
compares a type with itself and succeeds if the walk is short and meets kinds only that the
check knows. The check of a whole type does not know void. An access finds its own members
again where no other member of the same name stands in front.
-/
namespace BpfEquiv.Core

open List

/-! Types of one BTF. -/

section Types
variable {btf : Btf}

theorem resolveFrom_spec (fuel tid : Nat) : btf.resolveFrom fuel tid ∈ btf.types ∧
    (btf.resolveFrom fuel tid).kind.isModifier = false := by
  have void : BtfType.void ∈ btf.types := mem_of_getElem? btf.first
  induction fuel generalizing tid with
  | zero => exact ⟨void, rfl⟩
  | succ fuel ih =>
    rw [Btf.resolveFrom]
    split
    · exact ⟨void, rfl⟩
    rename_i t here
    split
    · exact ih t.type
    · next other => exact ⟨mem_of_getElem? here, by simpa using other⟩

theorem resolve_mem (tid : Nat) : btf.resolve tid ∈ btf.types := (resolveFrom_spec 64 tid).1

theorem resolve_plain (tid : Nat) : (btf.resolve tid).kind.isModifier = false :=
  (resolveFrom_spec 64 tid).2

theorem get_id {t : BtfType} (member : t ∈ btf.types) : btf.types[t.id]? = some t := by
  obtain ⟨i, here⟩ := mem_iff_getElem?.mp member
  rw [btf.ids i t here, here]

theorem resolve_id (tid : Nat) : btf.resolve (btf.resolve tid).id = btf.resolve tid := by
  rw [Btf.resolve, Btf.resolveFrom, get_id (resolve_mem tid)]
  simp only [resolve_plain, Bool.false_eq_true, if_false]

theorem types_nodup : btf.types.Nodup := by
  rw [nodup_iff_getElem?_ne_getElem?]
  intro i j less inside same
  have there := List.getElem?_eq_getElem inside
  have atI := btf.ids i _ (same.trans there)
  have atJ := btf.ids j _ there
  omega

end Types

/-! The checks as walks. -/

def Btf.elements (btf : Btf) (tid : Nat) : List Nat :=
  if (btf.resolve tid).kind = .array then [(btf.resolve tid).array.1] else []

def Kind.isFieldKind : Kind → Bool
  | .struct | .union | .ptr | .int | .float | .enum | .enum64 | .fwd | .array => true
  | _ => false

def Btf.referred (btf : Btf) (tid : Nat) : List Nat :=
  let t := btf.resolve tid
  match t.kind with
  | .ptr => [t.type]
  | .array => [t.array.1]
  | .funcProto => t.proto.1 :: t.proto.2
  | _ => []

def Kind.isCompatKind : Kind → Bool
  | .struct | .union | .enum | .enum64 | .fwd | .int | .float | .ptr | .array | .funcProto => true
  | _ => false

/-- Types that a match goes on to, and whether a pointer is passed. -/
def Btf.matched (btf : Btf) (at' : Nat × Bool) : List (Nat × Bool) :=
  let t := btf.resolve at'.1
  match t.kind with
  | .ptr => [(t.type, true)]
  | .array => [(t.array.1, at'.2)]
  | .funcProto => (t.proto.1 :: t.proto.2).map fun tid => (tid, at'.2)
  | .struct | .union => if at'.2 then [] else t.members.map fun m => (m.type, at'.2)
  | _ => []

def Kind.isMatchKind (k : Kind) : Bool := k = .void || k.isCompatKind

/-- Every type that the walk meets is of a kind that a field may have. -/
def FieldReach (btf : Btf) (tid : Nat) : Prop :=
  ∀ n y, Walk.Reaches btf.elements n tid y → n < 32 ∧ (btf.resolve y).kind.isFieldKind = true

def CompatReach (btf : Btf) (tid : Nat) : Prop :=
  ∀ n y, Walk.Reaches btf.referred n tid y → n < 33 ∧ (btf.resolve y).kind.isCompatKind = true

def MatchReach (btf : Btf) (tid : Nat) : Prop :=
  ∀ n y, Walk.Reaches btf.matched n (tid, false) y →
    n < 33 ∧ (btf.resolve y.1).kind.isMatchKind = true

section Reflexive
variable {btf : Btf}

theorem looselyNamed_self (t : BtfType) : looselyNamed t t = true := by
  simp [looselyNamed]

theorem namesMatch_self (n : String) : namesMatch n n = true := by
  unfold namesMatch
  split <;> simp_all

theorem fieldsCompatFrom_self (fuel tid : Nat) :
    fieldsCompatFrom btf btf fuel tid tid =
      Walk.within btf.elements (fun y => (btf.resolve y).kind.isFieldKind) fuel tid := by
  induction fuel generalizing tid with
  | zero => rfl
  | succ fuel ih =>
    rw [fieldsCompatFrom, Walk.within, Btf.elements]
    cases kind : (btf.resolve tid).kind <;>
      simp [Kind.isComposite, Kind.isFieldKind, looselyNamed_self, ih]

theorem fieldsAreCompat_self (tid : Nat) :
    fieldsAreCompat btf tid btf tid = true ↔ FieldReach btf tid := by
  rw [fieldsAreCompat, fieldsCompatFrom_self, Walk.within_iff, FieldReach]

instance (tid : Nat) : Decidable (FieldReach btf tid) :=
  decidable_of_iff _ (fieldsAreCompat_self tid)

theorem all_zip_self (f : Nat → Nat → Bool) (l : List Nat) :
    ((l.zip l).all fun (a, b) => f a b) = l.all fun a => f a a := by
  induction l with
  | nil => rfl
  | cons a l ih => simp only [zip_cons_cons, all_cons, ih]

theorem typesCompatFrom_self (fuel tid : Nat) :
    typesCompatFrom btf btf fuel tid tid =
      Walk.within btf.referred (fun y => (btf.resolve y).kind.isCompatKind) fuel tid := by
  induction fuel generalizing tid with
  | zero => rfl
  | succ fuel ih =>
    rw [typesCompatFrom, Walk.within, Btf.referred]
    simp only [all_zip_self, looselyNamed_self]
    cases kind : (btf.resolve tid).kind <;> simp [Kind.isCompatKind, ih]

theorem typesAreCompat_self (tid : Nat) :
    typesAreCompat btf tid btf tid = true ↔ CompatReach btf tid := by
  rw [typesAreCompat, typesCompatFrom_self, Walk.within_iff, CompatReach]

theorem enumsMatch_self (t : BtfType) : enumsMatch t t = true := by
  simp only [enumsMatch, ne_eq, not_true_eq_false, false_or, gt_iff_lt, lt_irrefl, if_false,
    all_eq_true, any_eq_true]
  exact fun e inside => ⟨e, inside, namesMatch_self e.1⟩

theorem typesMatchFrom_self {fuel tid : Nat} {behindPtr : Bool}
    (h : Walk.within btf.matched (fun y => (btf.resolve y.1).kind.isMatchKind) fuel (tid, behindPtr)
      = true) :
    typesMatchFrom btf btf fuel tid tid behindPtr = true := by
  induction fuel generalizing tid behindPtr with
  | zero => cases h
  | succ fuel ih =>
    obtain ⟨known, later⟩ := Walk.within_succ.mp h
    unfold Btf.matched at later
    rw [typesMatchFrom]
    simp only [namesMatch_self, Bool.not_true, Bool.false_eq_true, if_false]
    cases kind : (btf.resolve tid).kind <;> simp only [kind] at known later ⊢
    case struct | union =>
      cases behindPtr with
      | true => simp
      | false =>
        simp only [Bool.false_eq_true, if_false, ne_eq, not_true_eq_false, gt_iff_lt,
          lt_irrefl, all_eq_true, any_eq_true, Bool.and_eq_true]
        exact fun m inside => ⟨m, inside, namesMatch_self m.name,
          ih (later _ (mem_map_of_mem inside))⟩
    case enum | enum64 => simp [Kind.isEnum, enumsMatch_self]
    case ptr =>
      simpa using ih (later _ (.head _))
    case array =>
      simpa using ih (later _ (.head _))
    case funcProto =>
      have each (c : Nat) (inside : c ∈ (btf.resolve tid).proto.1 :: (btf.resolve tid).proto.2) :=
        ih (later _ (mem_map_of_mem inside))
      simp only [ne_eq, not_true_eq_false, if_false, decide_true, Bool.true_and, Bool.and_eq_true,
        all_zip_self fun a b => typesMatchFrom btf btf fuel a b behindPtr, all_eq_true]
      exact ⟨each _ (.head _), fun c inside => each c (.tail _ inside)⟩
    all_goals simp_all [Kind.isMatchKind, Kind.isCompatKind]

/-- How far a match goes depends on the local type only. -/
theorem within_of_typesMatchFrom {fuel lid tid : Nat} {behindPtr : Bool}
    (h : typesMatchFrom btf btf fuel lid tid behindPtr = true) :
    Walk.within btf.matched (fun y => (btf.resolve y.1).kind.isMatchKind) fuel (lid, behindPtr)
      = true := by
  induction fuel generalizing lid tid behindPtr with
  | zero => cases h
  | succ fuel ih =>
    rw [Walk.within_succ, Btf.matched]
    rw [typesMatchFrom] at h
    split at h
    · cases h
    cases kind : (btf.resolve lid).kind <;> simp only [kind] at h ⊢
    case struct | union =>
      refine ⟨rfl, fun y next => ?_⟩
      cases behindPtr with
      | true => cases next
      | false =>
        obtain ⟨m, inside, rfl⟩ := mem_map.mp next
        simp only [Bool.false_eq_true, if_false, Bool.if_false_left, Bool.and_eq_true,
          all_eq_true, any_eq_true] at h
        obtain ⟨m', _, _, matched⟩ := h.2.2 m inside
        exact ih matched
    case ptr =>
      simp only [Bool.if_false_left, Bool.and_eq_true] at h
      refine ⟨rfl, fun y next => ?_⟩
      cases mem_singleton.mp next
      exact ih h.2
    case array =>
      simp only [Bool.if_false_left, Bool.and_eq_true] at h
      refine ⟨rfl, fun y next => ?_⟩
      cases mem_singleton.mp next
      exact ih h.2.2
    case funcProto =>
      simp only [Bool.if_false_left, Bool.and_eq_true, decide_eq_true_eq, all_eq_true] at h
      obtain ⟨_, ⟨length, result⟩, params⟩ := h
      refine ⟨rfl, fun y next => ?_⟩
      obtain ⟨a, inside, rfl⟩ := mem_map.mp next
      cases inside with
      | head => exact ih result
      | tail _ inside =>
        rw [← map_fst_zip length.le] at inside
        obtain ⟨⟨_, b⟩, pair, rfl⟩ := mem_map.mp inside
        exact ih (params _ pair)
    all_goals first
      | exact ⟨rfl, nofun⟩
      | simp at h

theorem typesMatch_self {tid : Nat} : typesMatch btf tid btf tid = true ↔ MatchReach btf tid := by
  rw [typesMatch, MatchReach, ← Walk.within_iff]
  exact ⟨within_of_typesMatchFrom, typesMatchFrom_self⟩

end Reflexive

/-! Members that are found again. -/

def Btf.anonymous (btf : Btf) (tid : Nat) : List Nat :=
  let t := btf.resolve tid
  if t.kind.isComposite then (t.members.filter (·.name = "")).map (·.type) else []

/-- No member of the name, if it is a struct or union. -/
def Btf.lacks (btf : Btf) (name : String) (tid : Nat) : Bool :=
  let t := btf.resolve tid
  !t.kind.isComposite || t.members.all fun m => m.name ≠ name

/-- The member x does not stand in the way of a later member m: it has another name, and if it
is anonymous the name is not in it. -/
def Clears (btf : Btf) (x m : BtfMember) : Prop :=
  m.name ≠ "" → x.name ≠ m.name ∧
    (x.name = "" → Walk.within btf.anonymous (btf.lacks m.name) btf.types.length x.type = true)

instance (btf : Btf) (x m : BtfMember) : Decidable (Clears btf x m) :=
  inferInstanceAs (Decidable (m.name ≠ "" → _ ∧ _))

/-- Types with the same name are of different kinds, members of a struct or union have
different names, and their types are those of fields. -/
structure WellFormed (btf : Btf) : Prop where
  unique : ∀ s ∈ btf.types, ∀ t ∈ btf.types, s.name ≠ "" → t.name ≠ "" →
    essentialName s.name = essentialName t.name →
    s.kind = t.kind ∨ (s.kind.isEnum = true ∧ t.kind.isEnum = true) → s = t
  members : ∀ t ∈ btf.types, t.kind.isComposite = true → t.members.Pairwise (Clears btf)
  fields : ∀ t ∈ btf.types, t.kind.isComposite = true → ∀ m ∈ t.members, FieldReach btf m.type

section Members
variable {btf : Btf} {lacc : Accessor} {tspec : Spec}

theorem searchMembers_lacks {descend : Nat → Spec → R (Option Found)} {ms : List BtfMember}
    (other : ∀ m ∈ ms, m.name ≠ "" → lacc.name ≠ some m.name)
    (inner : ∀ m ∈ ms, m.name = "" → ∀ spec, descend m.type spec = .ok none) (i : Nat) :
    searchMembers descend btf lacc btf tspec i ms = .ok none := by
  induction ms generalizing i with
  | nil => rfl
  | cons m ms ih =>
    have rest := ih (fun x inside => other x (.tail m inside))
      (fun x inside => inner x (.tail m inside)) (i + 1)
    rw [searchMembers]
    split
    · rename_i anon
      rw [inner m mem_cons_self anon]
      exact rest
    · rename_i named
      rw [if_neg fun same => other m mem_cons_self named same.symm]
      exact rest

theorem matchMemberFrom_lacks {n : String} (named : lacc.name = some n) {fuel tid : Nat}
    (h : Walk.within btf.anonymous (btf.lacks n) fuel tid = true) (spec : Spec) :
    matchMemberFrom btf lacc btf fuel tid spec = .ok none := by
  induction fuel generalizing tid spec with
  | zero => cases h
  | succ fuel ih =>
    obtain ⟨lacks, later⟩ := Walk.within_succ.mp h
    rw [matchMemberFrom]
    by_cases composite : (btf.resolve tid).kind.isComposite = true
    · simp only [Btf.lacks, Btf.anonymous, composite, Bool.not_true, Bool.false_or, if_true,
        all_eq_true, decide_eq_true_eq] at lacks later
      simp only [composite, Bool.not_true, Bool.false_eq_true, if_false]
      refine searchMembers_lacks (fun m inside _ same => ?_) (fun m inside anon spec' => ?_) 0
      · exact lacks m inside (Option.some.inj (same.symm.trans named))
      · exact ih (later _ (mem_map_of_mem (mem_filter.mpr ⟨inside, by simpa using anon⟩)))
          spec'
    · simp only [composite]
      rfl

theorem searchMembers_self {ms : List BtfMember} {k : Nat} {m : BtfMember}
    (apart : ms.Pairwise (Clears btf)) (place : ms[k]? = some m) (named : m.name ≠ "")
    (asked : lacc.name = some m.name) (compat : fieldsAreCompat btf lacc.typeId btf m.type = true)
    (i : Nat) :
    searchMembers (matchMemberFrom btf lacc btf btf.types.length) btf lacc btf tspec i ms =
      .ok (some (m, tspec.push ⟨i + k, some m.name, m.type⟩ m.bitOffset)) := by
  induction ms generalizing i k with
  | nil => cases place
  | cons x ms ih =>
    obtain ⟨front, apart⟩ := pairwise_cons.mp apart
    cases k with
    | zero =>
      cases place
      rw [searchMembers, if_neg named, if_pos asked.symm, compat]
      rfl
    | succ k =>
      have later : ms[k]? = some m := place
      have rest := ih apart later (i + 1)
      rw [Nat.add_right_comm, Nat.add_assoc] at rest
      obtain ⟨differs, inner⟩ := front m (mem_of_getElem? later) named
      rw [searchMembers]
      split
      · rename_i anon
        rw [matchMemberFrom_lacks asked (inner anon)]
        exact rest
      · rw [if_neg fun same => differs (Option.some.inj (same.trans asked))]
        exact rest

/-- The steps of an access lead to the same access again. -/
theorem parseSteps_self (wf : WellFormed btf) {idxs : List Nat} {tid : Nat} {spec₀ spec : Spec}
    (h : parseSteps btf idxs (btf.resolve tid) spec₀ = .ok spec) :
    ∃ steps tid', spec.accessors = spec₀.accessors ++ steps ∧
      matchSteps btf btf steps tid spec₀ = .ok (some (tid', spec)) := by
  induction idxs generalizing tid spec₀ with
  | nil =>
    cases h
    exact ⟨[], tid, (append_nil _).symm, rfl⟩
  | cons idx idxs ih =>
    rw [parseSteps] at h
    split at h
    · rename_i composite
      split at h
      · cases h
      rename_i m place
      obtain ⟨steps, tid', accessors, matched⟩ := ih h
      have inside := mem_of_getElem? place
      have compat := (fieldsAreCompat_self m.type).mpr
        (wf.fields _ (resolve_mem tid) composite m inside)
      refine ⟨⟨idx, nameOrNone m.name, m.type⟩ :: steps, tid', ?_, ?_⟩
      · rw [accessors, Spec.push, append_assoc, singleton_append]
      have step : matchStep btf ⟨idx, nameOrNone m.name, m.type⟩ btf tid spec₀ =
          .ok (some (m.type, spec₀.push ⟨idx, nameOrNone m.name, m.type⟩ m.bitOffset)) := by
        by_cases anon : m.name = ""
        · -- the member at the same place
          have noArray : (btf.resolve tid).kind ≠ .array := by
            intro array
            rw [array] at composite
            cases composite
          simp only [matchStep, nameOrNone, anon, if_true, matchIndex, noArray, if_false,
            composite, place, compat]
          rfl
        · have found := @searchMembers_self btf ⟨idx, some m.name, m.type⟩ spec₀ _ _ _
            (wf.members _ (resolve_mem tid) composite) place anon rfl compat 0
          simp only [matchStep, nameOrNone, anon, if_false, matchMember, matchMemberFrom,
            composite, Bool.not_true, Bool.false_eq_true, found]
          rw [Nat.zero_add]
          rfl
      rw [matchSteps, step]
      exact matched
    · split at h
      · rename_i other array
        split at h
        · cases h
        rename_i inside
        obtain ⟨size, sized, h⟩ := Exc.bind_eq_ok.mp h
        cases size with
        | none => cases h
        | some es =>
          obtain ⟨steps, tid', accessors, matched⟩ := ih h
          refine ⟨⟨idx, none, (btf.resolve tid).array.1⟩ :: steps, tid', ?_, ?_⟩
          · rw [accessors, Spec.push, append_assoc, singleton_append]
          · simp only [matchSteps, matchStep, matchIndex, array, if_true, inside, if_false,
              sized]
            exact matched
      · cases h

end Members

/-! The only candidate. -/

theorem WellFormed.candidates {btf : Btf} (wf : WellFormed btf) (mods : List Btf) {tid : Nat}
    {t : BtfType} (here : btf.types[tid]? = some t) (named : t.name ≠ "") :
    (⟨btf, mods⟩ : Applier).candidates btf tid = [(btf, tid)] := by
  have inside := mem_of_getElem? here
  have own : candidatesIn (essentialName t.name) t.kind false btf = [(btf, tid)] := by
    rw [candidatesIn, Btf.byName, filter_map, filter_filter,
      filter_congr (q := (· == t)) fun s member => ?_]
    · rw [filter_beq, count_eq_one_of_mem types_nodup inside, ← btf.ids tid t here]
      rfl
    rw [Bool.eq_iff_iff]
    simp only [Function.comp, get_id member, Bool.not_false, Bool.true_or, Bool.true_and,
      Bool.and_eq_true, decide_eq_true_eq, Bool.or_eq_true, beq_iff_eq]
    constructor
    · rintro ⟨kinds, some', same⟩
      exact wf.unique s member t inside some' named same (kinds.imp_right And.symm)
    · rintro rfl
      exact ⟨.inl rfl, named, rfl⟩
  simp only [Applier.candidates, here, named, if_false, own]

/-! Records. -/

/-- What a record needs to be relocated to the value that the compiler gave it. -/
def SelfFits (btf : Btf) (spec : Spec) : ReloKind → Prop
  | .typeExists | .typeIdTarget => CompatReach btf spec.rootId
  | .typeSize =>
    -- a type that is taken to be absent has the size 0
    (CompatReach btf spec.rootId ∧ ∃ n, btf.typeSize spec.rootId = .ok (some n)) ∨
      (¬ CompatReach btf spec.rootId ∧
        (btf.typeSize spec.rootId = .ok none ∨ btf.typeSize spec.rootId = .ok (some 0)))
  | .typeMatches => MatchReach btf spec.rootId
  | .enumvalExists => True
  | .enumvalValue =>
    -- the first enumerator of the essential name has the value of the one asked for
    ∃ acc e, spec.accessors = [acc] ∧ (btf.resolve spec.rootId).enums[acc.idx]? = some e ∧
      ((btf.resolve spec.rootId).enums.find? fun x => essentialName x.1 = essentialName e.1).map
        Prod.snd = some e.2
  | .typeIdLocal | .other _ => False
  | .fieldExists => (btf.resolve spec.rootId).kind.isEnum = false
  | kind => (btf.resolve spec.rootId).kind.isEnum = false ∧ ∃ v, fieldInfo btf spec kind = .ok v

/-- The record is given its own value, which is 1 if it asks whether something is there. -/
def Keeps (kind : ReloKind) (res : R Relocated) : Prop :=
  ∃ v b, res = .ok (.value v v b) ∧ (kind.asksExists = true → v = 1)

section Records
variable {btf : Btf} {mods : List Btf} {tid : Nat} {idxs : List Nat} {kind : ReloKind} {spec : Spec}

theorem parseSpec_type (isType : kind.isType = true) (h : parseSpec btf tid idxs kind = .ok spec) :
    spec = ⟨tid, [], 0⟩ := by
  unfold parseSpec at h
  split at h
  · cases h
  rw [if_pos isType] at h
  split_ifs at h <;> cases h
  rfl

theorem parseSpec_enumval (isEnumval : kind.isEnumval = true)
    (h : parseSpec btf tid idxs kind = .ok spec) :
    (btf.resolve tid).kind.isEnum = true ∧ ∃ idx e, (btf.resolve tid).enums[idx]? = some e ∧
      spec = ⟨tid, [⟨idx, some e.1, (btf.resolve tid).id⟩], 0⟩ := by
  have noType : kind.isType = false := by
    cases kind <;> simp_all [ReloKind.isType, ReloKind.isEnumval]
  unfold parseSpec at h
  split at h
  · cases h
  rename_i idx rest
  rw [noType, if_neg Bool.false_ne_true, if_pos isEnumval] at h
  split_ifs at h with more isEnum <;> try cases h
  split at h <;> cases h
  exact ⟨isEnum, idx, _, ‹_›, rfl⟩

theorem matchSpec_field (wf : WellFormed btf) (isField : kind.isField = true)
    (noEnum : (btf.resolve spec.rootId).kind.isEnum = false)
    (h : parseSpec btf tid idxs kind = .ok spec) :
    spec.rootId = tid ∧ matchSpec btf spec btf tid = .ok (some spec) := by
  obtain ⟨idx, rest, sz, _, sized, h⟩ := parseSpec_field isField h
  have root : spec.rootId = tid := (parseSteps_path h).choose_spec.2.2
  obtain ⟨steps, tid', accessors, matched⟩ := parseSteps_self wf h
  refine ⟨root, ?_⟩
  have whole : spec.accessors = ⟨idx, none, tid⟩ :: steps := accessors
  have start : (⟨tid, [], 0⟩ : Spec).push ⟨idx, none, tid⟩ (idx * sz * 8) =
      ⟨tid, [⟨idx, none, tid⟩], idx * sz * 8⟩ := by
    rw [Spec.push, nil_append, Nat.zero_add]
  rw [start] at matched
  simp only [matchSpec, whole, noEnum, Bool.false_eq_true, if_false, sized, bind, Except.bind,
    matched]
  rfl

theorem matchEnumerator_find {want : String} {id : Nat} {es : List (String × Int)}
    {e : String × Int}
    (found : es.find? (fun x => essentialName x.1 = want) = some e) (i : Nat) :
    ∃ j, matchEnumerator want id i es = some ⟨i + j, some e.1, id⟩ ∧ es[j]? = some e := by
  induction es generalizing i with
  | nil => cases found
  | cons x es ih =>
    rw [matchEnumerator]
    by_cases same : essentialName x.1 = want
    · rw [find?_cons_of_pos (by simpa using same)] at found
      cases found
      exact ⟨0, if_pos same, rfl⟩
    rw [find?_cons_of_neg (by simpa using same)] at found
    obtain ⟨j, here, place⟩ := ih found (i + 1)
    refine ⟨j + 1, ?_, place⟩
    rw [if_neg same, here, Nat.add_right_comm, Nat.add_assoc]

/-- An enumerator is matched by the first one of its essential name. -/
theorem matchSpec_enumval (isEnumval : kind.isEnumval = true)
    (h : parseSpec btf tid idxs kind = .ok spec) :
    ∃ idx e j e', (btf.resolve tid).enums[idx]? = some e ∧ (btf.resolve tid).enums[j]? = some e' ∧
      (btf.resolve tid).enums.find? (fun x => essentialName x.1 = essentialName e.1) = some e' ∧
      spec = ⟨tid, [⟨idx, some e.1, (btf.resolve tid).id⟩], 0⟩ ∧
      matchSpec btf spec btf tid = .ok (some ⟨tid, [⟨j, some e'.1, (btf.resolve tid).id⟩], 0⟩) := by
  obtain ⟨isEnum, idx, e, place, rfl⟩ := parseSpec_enumval isEnumval h
  obtain ⟨e', first⟩ : ∃ e', (btf.resolve tid).enums.find?
      (fun x => essentialName x.1 = essentialName e.1) = some e' := by
    rw [← Option.isSome_iff_exists, find?_isSome]
    exact ⟨e, mem_of_getElem? place, by simp⟩
  obtain ⟨j, found, place'⟩ := @matchEnumerator_find _ (btf.resolve tid).id _ _ first 0
  refine ⟨idx, e, j, e', place, place', first, rfl, ?_⟩
  rw [Nat.zero_add] at found
  simp only [matchSpec, isEnum, if_true, Bool.not_true, Bool.false_eq_true, if_false, found]
  rfl

theorem relocate_only (wf : WellFormed btf) {t : BtfType} (here : btf.types[tid]? = some t)
    (named : t.name ≠ "") (parsed : parseSpec btf tid idxs kind = .ok spec)
    (notLocal : kind ≠ .typeIdLocal) {found : Option Match}
    (matched : matchCand btf spec kind (btf, tid) = .ok found) :
    (⟨btf, mods⟩ : Applier).relocate btf tid idxs kind =
      settle btf spec tid idxs kind found.toList := by
  have cands : matchCands btf spec kind [(btf, tid)] = .ok found.toList := by
    rw [matchCands, matched, matchCands]
    simp only [bind, Except.bind, pure, Except.pure, append_nil]
  unfold Applier.relocate
  rw [parsed, wf.candidates mods here named]
  simp only [bind, Except.bind, notLocal, if_false, cands]

theorem settle_exists {mt : Match} (asks : kind.asksExists = true) :
    settle btf spec tid idxs kind [mt] = .ok (.value 1 1 false) := by
  have own : localValue btf spec kind = .ok (1, false) := by
    cases kind <;> first | rfl | exact absurd asks Bool.false_ne_true
  simp only [settle, isEmpty_cons, Bool.false_eq_true, if_false, asks, if_true, own]
  rfl

theorem keeps_exists {mt : Match} (asks : kind.asksExists = true) :
    Keeps kind (settle btf spec tid idxs kind [mt]) :=
  ⟨1, false, settle_exists asks, fun _ => rfl⟩

/-- A match with a value is settled with it and the local value. -/
theorem keeps_value_iff {mt : Match} {v l : Int} {ok ok' : Bool} (plain : kind.asksExists = false)
    (value : matchValue kind mt = .ok (v, ok)) (own : localValue btf spec kind = .ok (l, ok')) :
    Keeps kind (settle btf spec tid idxs kind [mt]) ↔ v = l := by
  have values : matchValues kind [mt] = .ok ([v], ok) := by
    rw [matchValues, value, matchValues]
    simp only [bind, Except.bind, pure, Except.pure, Bool.and_true]
  have settled : settle btf spec tid idxs kind [mt] = .ok (.value v l (ok && ok')) := by
    simp only [settle, isEmpty_cons, Bool.false_eq_true, if_false, plain, values,
      dedup_cons_of_notMem not_mem_nil, dedup_nil, own]
    rfl
  rw [settled]
  constructor
  · rintro ⟨w, b, same, _⟩
    cases same
    rfl
  · rintro rfl
    exact ⟨v, _, rfl, fun asks => by rw [plain] at asks; cases asks⟩

theorem relocate_error (wf : WellFormed btf) {t : BtfType} (here : btf.types[tid]? = some t)
    (named : t.name ≠ "") (parsed : parseSpec btf tid idxs kind = .ok spec)
    (notLocal : kind ≠ .typeIdLocal) {e : Fail}
    (matched : matchCand btf spec kind (btf, tid) = .error e) :
    (⟨btf, mods⟩ : Applier).relocate btf tid idxs kind = .error e := by
  unfold Applier.relocate
  rw [parsed, wf.candidates mods here named]
  simp only [bind, Except.bind, notLocal, if_false, matchCands, matched]

/-- A match without a value leaves none. -/
theorem not_keeps_error {mt : Match} {e : Fail} (plain : kind.asksExists = false)
    (value : matchValue kind mt = .error e) :
    ¬ Keeps kind (settle btf spec tid idxs kind [mt]) := by
  rintro ⟨v, b, settled, _⟩
  have values : matchValues kind [mt] = .error e := by
    rw [matchValues, value]
    rfl
  simp only [settle, isEmpty_cons, Bool.false_eq_true, if_false, plain, values] at settled
  cases e <;> cases settled

theorem sizeFrom_ne_core (fuel tid : Nat) (msg : String) :
    btf.sizeFrom fuel tid ≠ .error (.core msg) := by
  induction fuel generalizing tid with
  | zero => simp [Btf.sizeFrom, recursionError]
  | succ fuel ih =>
    intro h
    rw [Btf.sizeFrom] at h
    split at h <;> try cases h
    cases element : btf.sizeFrom fuel (btf.resolve tid).array.1 with
    | error e =>
      rw [element] at h
      cases h
      exact ih _ element
    | ok size =>
      rw [element] at h
      cases size <;> cases h

/-- A record on a whole type is settled with the type itself or with nothing. -/
theorem relocate_type (wf : WellFormed btf) {t : BtfType} (here : btf.types[tid]? = some t)
    (named : t.name ≠ "") (parsed : parseSpec btf tid idxs kind = .ok spec)
    (isKind : kind = .typeExists ∨ kind = .typeIdTarget ∨ kind = .typeSize) :
    (⟨btf, mods⟩ : Applier).relocate btf tid idxs kind =
      settle btf ⟨tid, [], 0⟩ tid idxs kind
        (if typesAreCompat btf tid btf tid then [((btf, tid), none)] else []) := by
  have isType : kind.isType = true := by
    obtain rfl | rfl | rfl := isKind <;> rfl
  obtain rfl := parseSpec_type isType parsed
  rw [relocate_only wf here named parsed (by obtain rfl | rfl | rfl := isKind <;> simp)
    (show matchCand btf ⟨tid, [], 0⟩ kind (btf, tid) =
      .ok (if typesAreCompat btf tid btf tid then some ((btf, tid), none) else none) by
        obtain rfl | rfl | rfl := isKind <;> rfl)]
  split <;> rfl

theorem keeps_type (wf : WellFormed btf) {t : BtfType} (here : btf.types[tid]? = some t)
    (named : t.name ≠ "") (parsed : parseSpec btf tid idxs kind = .ok spec)
    (isKind : kind = .typeExists ∨ kind = .typeIdTarget) :
    Keeps kind ((⟨btf, mods⟩ : Applier).relocate btf tid idxs kind) ↔ CompatReach btf tid := by
  rw [relocate_type wf here named parsed (isKind.imp_right .inl), ← typesAreCompat_self]
  have root : tid ≠ 0 := by
    rintro rfl
    cases btf.first.symm.trans here
    exact named rfl
  cases typesAreCompat btf tid btf tid with
  | true =>
    refine iff_of_true ?_ rfl
    rw [if_pos rfl]
    obtain rfl | rfl := isKind
    · exact keeps_exists rfl
    · exact (keeps_value_iff rfl rfl rfl).mpr rfl
  | false =>
    refine iff_of_false ?_ Bool.false_ne_true
    rintro ⟨v, b, settled, _⟩
    obtain rfl | rfl := isKind
    · cases settled
    have zero : settle btf ⟨tid, [], 0⟩ tid idxs .typeIdTarget [] = .ok (.value 0 tid false) := rfl
    rw [if_neg Bool.false_ne_true, zero] at settled
    injection settled with settled
    injection settled with target own
    omega

theorem keeps_typeSize (wf : WellFormed btf) {t : BtfType} (here : btf.types[tid]? = some t)
    (named : t.name ≠ "") (parsed : parseSpec btf tid idxs .typeSize = .ok spec) :
    Keeps .typeSize ((⟨btf, mods⟩ : Applier).relocate btf tid idxs .typeSize) ↔
      (CompatReach btf tid ∧ ∃ n, btf.typeSize tid = .ok (some n)) ∨
        (¬ CompatReach btf tid ∧
          (btf.typeSize tid = .ok none ∨ btf.typeSize tid = .ok (some 0))) := by
  rw [relocate_type wf here named parsed (.inr (.inr rfl)), ← typesAreCompat_self]
  cases sized : btf.typeSize tid with
  | error e =>
    refine iff_of_false ?_ (by simp)
    have value : matchValue .typeSize (((btf, tid), none) : Match) = .error e := by
      simp only [matchValue, sized]
      rfl
    cases typesAreCompat btf tid btf tid with
    | true => exact not_keeps_error rfl value
    | false =>
      cases e with
      | core msg => exact absurd sized (sizeFrom_ne_core _ tid msg)
      | crash exn =>
        have own : localValue btf ⟨tid, [], 0⟩ .typeSize = .error (.crash exn) := by
          simp only [localValue, sized]
          rfl
        have crashed : settle btf ⟨tid, [], 0⟩ tid idxs .typeSize [] = .error (.crash exn) := by
          simp only [settle, own]
          rfl
        rintro ⟨v, b, settled, _⟩
        cases crashed.symm.trans settled
  | ok size =>
    have own : localValue btf ⟨tid, [], 0⟩ .typeSize =
        .ok (((size.getD 0 : Nat) : Int), false) := by
      simp only [localValue, sized]
      rfl
    cases typesAreCompat btf tid btf tid with
    | true =>
      simp only [if_true, true_and, not_true_eq_false, false_and, or_false]
      cases size with
      | none =>
        have value : matchValue .typeSize (((btf, tid), none) : Match) =
            coreError "target type unsizeable" := by
          simp only [matchValue, sized]
          rfl
        exact iff_of_false (not_keeps_error rfl value) (by simp)
      | some n =>
        have value : matchValue .typeSize (((btf, tid), none) : Match) =
            .ok ((n : Int), false) := by
          simp only [matchValue, sized]
          rfl
        exact iff_of_true ((keeps_value_iff rfl value own).mpr rfl) ⟨n, rfl⟩
    | false =>
      have absent : settle btf ⟨tid, [], 0⟩ tid idxs .typeSize [] =
          .ok (.value 0 ((size.getD 0 : Nat) : Int) false) := by
        simp only [settle, own]
        rfl
      have small : (size = none ∨ size = some 0) ↔ size.getD 0 = 0 := by
        cases size <;> simp
      simp only [Bool.false_eq_true, if_false, false_and, not_false_eq_true, true_and, false_or,
        absent, Except.ok.injEq, small]
      constructor
      · rintro ⟨v, b, settled, _⟩
        injection settled with settled
        injection settled with target own
        omega
      · intro zero
        rw [zero]
        exact ⟨0, false, rfl, fun asks => absurd asks Bool.false_ne_true⟩

theorem keeps_typeMatches (wf : WellFormed btf) {t : BtfType} (here : btf.types[tid]? = some t)
    (named : t.name ≠ "") (parsed : parseSpec btf tid idxs .typeMatches = .ok spec) :
    Keeps .typeMatches ((⟨btf, mods⟩ : Applier).relocate btf tid idxs .typeMatches) ↔
      MatchReach btf tid := by
  obtain rfl := parseSpec_type rfl parsed
  rw [relocate_only wf here named parsed (by simp)
    (show matchCand btf ⟨tid, [], 0⟩ .typeMatches (btf, tid) =
      .ok (if typesMatch btf tid btf tid then some ((btf, tid), none) else none) from rfl),
    ← typesMatch_self]
  cases typesMatch btf tid btf tid with
  | true => exact iff_of_true (keeps_exists rfl) rfl
  | false =>
    refine iff_of_false ?_ Bool.false_ne_true
    rintro ⟨v, b, settled, _⟩
    cases settled

theorem keeps_enumval (wf : WellFormed btf) {t : BtfType} (here : btf.types[tid]? = some t)
    (named : t.name ≠ "") (parsed : parseSpec btf tid idxs kind = .ok spec)
    (isEnumval : kind.isEnumval = true) :
    Keeps kind ((⟨btf, mods⟩ : Applier).relocate btf tid idxs kind) ↔ SelfFits btf spec kind := by
  obtain ⟨idx, e, j, e', place, place', first, rfl, matched⟩ := matchSpec_enumval isEnumval parsed
  have noType : kind.isType = false ∧ kind ≠ .typeMatches ∧ kind ≠ .typeIdLocal := by
    cases kind <;> simp_all [ReloKind.isType, ReloKind.isEnumval]
  have found : matchCand btf ⟨tid, [⟨idx, some e.1, (btf.resolve tid).id⟩], 0⟩ kind (btf, tid) =
      .ok (some ((btf, tid), some ⟨tid, [⟨j, some e'.1, (btf.resolve tid).id⟩], 0⟩)) := by
    simp only [matchCand, noType.1, noType.2.1, Bool.false_eq_true, if_false, matched]
    rfl
  rw [relocate_only wf here named parsed noType.2.2 found]
  cases kind with
  | enumvalExists => exact iff_of_true (keeps_exists rfl) trivial
  | enumvalValue =>
    have value : matchValue .enumvalValue (((btf, tid),
        some ⟨tid, [⟨j, some e'.1, (btf.resolve tid).id⟩], 0⟩) : Match) = .ok (e'.2, false) := by
      simp only [matchValue, List.head?_cons, resolve_id, place']
      rfl
    have own : localValue btf ⟨tid, [⟨idx, some e.1, (btf.resolve tid).id⟩], 0⟩ .enumvalValue =
        .ok (e.2, false) := by
      simp only [localValue, List.head?_cons, resolve_id, place]
      rfl
    rw [Option.toList_some, keeps_value_iff rfl value own]
    constructor
    · intro same
      refine ⟨_, e, rfl, place, ?_⟩
      rw [first, Option.map_some, same]
    · rintro ⟨acc, x, ⟨⟩, place'', same⟩
      cases place.symm.trans place''
      rw [first] at same
      exact Option.some.inj same
  | _ => exact absurd isEnumval Bool.false_ne_true

theorem keeps_field (wf : WellFormed btf) {t : BtfType} (here : btf.types[tid]? = some t)
    (named : t.name ≠ "") (parsed : parseSpec btf tid idxs kind = .ok spec)
    (isField : kind.isField = true) :
    Keeps kind ((⟨btf, mods⟩ : Applier).relocate btf tid idxs kind) ↔ SelfFits btf spec kind := by
  obtain ⟨noType, _, notLocal, noMatches⟩ := ReloKind.isField_excludes isField
  cases isEnum : (btf.resolve spec.rootId).kind.isEnum with
  | true =>
    -- the first step of a field has no name to look for among the enumerators
    obtain ⟨idx, rest, sz, _, _, steps⟩ := parseSpec_field isField parsed
    obtain ⟨later, _, whole, _⟩ := parseSteps_self wf steps
    have root : spec.rootId = tid := (parseSteps_path steps).choose_spec.2.2
    have stopped : ∃ e, matchCand btf spec kind (btf, tid) = .error e := by
      refine ⟨.crash "AttributeError: 'NoneType' object has no attribute 'find'", ?_⟩
      have shape : spec.accessors = ⟨idx, none, tid⟩ :: later := whole
      rw [root] at isEnum
      simp only [matchCand, noType, noMatches, Bool.false_eq_true, if_false, matchSpec, shape, root,
        isEnum, if_true, Bool.not_true]
      rfl
    obtain ⟨e, stopped⟩ := stopped
    refine iff_of_false ?_ ?_
    · rintro ⟨v, b, done, _⟩
      rw [relocate_error wf here named parsed notLocal stopped] at done
      cases done
    · intro fits
      have noEnum : (btf.resolve spec.rootId).kind.isEnum = false := by
        cases kind <;> first | exact fits.1 | exact fits | exact absurd isField Bool.false_ne_true
      rw [isEnum] at noEnum
      cases noEnum
  | false =>
    obtain ⟨_, matched⟩ := matchSpec_field wf isField isEnum parsed
    have found : matchCand btf spec kind (btf, tid) = .ok (some ((btf, tid), some spec)) := by
      simp only [matchCand, noType, noMatches, Bool.false_eq_true, if_false, matched]
      rfl
    rw [relocate_only wf here named parsed notLocal found, Option.toList_some]
    cases asks : kind.asksExists with
    | true =>
      refine iff_of_true (keeps_exists asks) ?_
      cases kind <;> first
        | exact isEnum
        | exact absurd isField Bool.false_ne_true
        | exact absurd asks Bool.false_ne_true
    | false =>
      have fits : SelfFits btf spec kind ↔ ∃ v, fieldInfo btf spec kind = .ok v := by
        cases kind <;> first
          | exact and_iff_right isEnum
          | exact absurd isField Bool.false_ne_true
          | exact absurd asks.symm Bool.false_ne_true
      have value : matchValue kind (((btf, tid), some spec) : Match) = fieldInfo btf spec kind := by
        cases kind <;> first | rfl | exact absurd isField Bool.false_ne_true
      rw [fits]
      cases info : fieldInfo btf spec kind with
      | error e => exact iff_of_false (not_keeps_error asks (value.trans info)) (by simp)
      | ok out =>
        have own : localValue btf spec kind = .ok (out.1, out.2) := by
          cases kind <;> first
            | exact absurd isField Bool.false_ne_true
            | exact absurd asks.symm Bool.false_ne_true
            | simp only [localValue, info]
        exact iff_of_true ((keeps_value_iff asks (value.trans info) own).mpr rfl) ⟨out, rfl⟩

theorem keeps_other (wf : WellFormed btf) {t : BtfType} (here : btf.types[tid]? = some t)
    (named : t.name ≠ "") {n : Nat} (parsed : parseSpec btf tid idxs (.other n) = .ok spec) :
    ¬ Keeps (.other n) ((⟨btf, mods⟩ : Applier).relocate btf tid idxs (.other n)) := by
  cases found : matchCand btf spec (.other n) (btf, tid) with
  | error e =>
    rintro ⟨v, b, done, _⟩
    rw [relocate_error wf here named parsed (by simp) found] at done
    cases done
  | ok mt =>
    rw [relocate_only wf here named parsed (by simp) found]
    cases mt with
    | none =>
      rintro ⟨v, b, settled, _⟩
      cases settled
    | some mt =>
      obtain ⟨cand, tspec⟩ := mt
      cases tspec <;> exact not_keeps_error rfl rfl

/-- A record is given its own value just if it fits. -/
theorem keeps_iff (wf : WellFormed btf) {t : BtfType} (here : btf.types[tid]? = some t)
    (named : t.name ≠ "") (parsed : parseSpec btf tid idxs kind = .ok spec) :
    Keeps kind ((⟨btf, mods⟩ : Applier).relocate btf tid idxs kind) ↔ SelfFits btf spec kind := by
  cases kind with
  | typeExists =>
    obtain rfl := parseSpec_type rfl parsed
    exact keeps_type wf here named parsed (.inl rfl)
  | typeIdTarget =>
    obtain rfl := parseSpec_type rfl parsed
    exact keeps_type wf here named parsed (.inr rfl)
  | typeSize =>
    obtain rfl := parseSpec_type rfl parsed
    exact keeps_typeSize wf here named parsed
  | typeMatches =>
    obtain rfl := parseSpec_type rfl parsed
    exact keeps_typeMatches wf here named parsed
  | typeIdLocal =>
    refine iff_of_false ?_ id
    rintro ⟨v, b, done, _⟩
    rw [Applier.relocate, parsed] at done
    cases done
  | other n => exact iff_of_false (keeps_other wf here named parsed) id
  | enumvalExists | enumvalValue => exact keeps_enumval wf here named parsed rfl
  | _ => exact keeps_field wf here named parsed rfl

end Records

/-- Relocation against the own types. The three checks compare a type with itself just as far
as their walks go, and a record is given its local value just if it fits. -/
theorem self_relocation (btf : Btf) (wf : WellFormed btf) :
    (∀ tid, fieldsAreCompat btf tid btf tid = true ↔ FieldReach btf tid) ∧
    (∀ tid, typesAreCompat btf tid btf tid = true ↔ CompatReach btf tid) ∧
    (∀ tid, typesMatch btf tid btf tid = true ↔ MatchReach btf tid) ∧
    ∀ mods tid t idxs kind spec, btf.types[tid]? = some t → t.name ≠ "" →
      parseSpec btf tid idxs kind = .ok spec →
      ((∃ v b, (⟨btf, mods⟩ : Applier).relocate btf tid idxs kind = .ok (.value v v b) ∧
        (kind.asksExists = true → v = 1)) ↔ SelfFits btf spec kind) := by
  refine ⟨fieldsAreCompat_self, typesAreCompat_self, fun _ => typesMatch_self, ?_⟩
  intro mods tid t idxs kind spec here named parsed
  exact keeps_iff wf here named parsed

/-- The typedef handle of a pointer to void, the typedef callback of a pointer to a function
that takes and returns nothing, the struct s, and an enum with two enumerators that differ in
their flavors. -/
def voidTypes : Btf :=
  .ofTypes [intType, { kind := .ptr }, { kind := .typedef, name := "handle", type := 2 },
    { kind := .funcProto }, { kind := .ptr, type := 4 },
    { kind := .typedef, name := "callback", type := 5 },
    { kind := .struct, name := "s", size := 16, members := [⟨"a", 1, 0, 0⟩, ⟨"p", 2, 64, 0⟩] },
    { kind := .enum, name := "e", size := 4, enums := [("A", 1), ("A___x", 2)] }]

theorem voidTypes_wellFormed : WellFormed voidTypes where
  unique := by decide +kernel
  members := by decide +kernel
  fields := by decide +kernel

/-- A field and the first of the two enumerators get their own values, the second one and the
typedef do not. -/
theorem self_relocation_void :
    WellFormed voidTypes ∧
      (∃ v b, (⟨voidTypes, []⟩ : Applier).relocate voidTypes 7 [0, 1] .fieldByteOffset =
        .ok (.value v v b)) ∧
      (∃ v b, (⟨voidTypes, []⟩ : Applier).relocate voidTypes 8 [0] .enumvalValue =
        .ok (.value v v b)) ∧
      (¬ ∃ v b, (⟨voidTypes, []⟩ : Applier).relocate voidTypes 8 [1] .enumvalValue =
        .ok (.value v v b)) ∧
      ¬ ∃ v b, (⟨voidTypes, []⟩ : Applier).relocate voidTypes 3 [0] .typeSize =
        .ok (.value v v b) := by
  obtain ⟨_, compat, _, records⟩ := self_relocation voidTypes voidTypes_wellFormed
  refine ⟨voidTypes_wellFormed, ?_, ?_, ?_, ?_⟩
  · obtain ⟨v, b, relocated, _⟩ :=
      (records [] 7 _ [0, 1] .fieldByteOffset _ rfl (by decide) rfl).mpr ⟨rfl, (8, true), rfl⟩
    exact ⟨v, b, relocated⟩
  · obtain ⟨v, b, relocated, _⟩ := (records [] 8 _ [0] .enumvalValue _ rfl (by decide) rfl).mpr
      ⟨_, ("A", 1), rfl, rfl, by decide +kernel⟩
    exact ⟨v, b, relocated⟩
  · rintro ⟨v, b, relocated⟩
    obtain ⟨acc, e, shape, place, first⟩ :=
      (records [] 8 _ [1] .enumvalValue _ rfl (by decide) rfl).mp ⟨v, b, relocated, nofun⟩
    cases shape
    cases place
    revert first
    decide +kernel
  · rintro ⟨v, b, relocated⟩
    have incompat : typesAreCompat voidTypes 3 voidTypes 3 = false := by decide +kernel
    have fits := (records [] 3 _ [0] .typeSize _ rfl (by decide) rfl).mp ⟨v, b, relocated, nofun⟩
    obtain ⟨reach, _⟩ | ⟨_, none' | zero⟩ := fits
    · rw [(compat 3).mpr reach] at incompat
      cases incompat
    · cases none'
    · cases zero

/-- The typedefs are there and yet reported absent, without a size and without a number. -/
theorem void_typedef_absent :
    WellFormed voidTypes ∧
      (⟨voidTypes, []⟩ : Applier).relocate voidTypes 3 [0] .typeExists = .ok (.value 0 1 false) ∧
      (⟨voidTypes, []⟩ : Applier).relocate voidTypes 3 [0] .typeSize = .ok (.value 0 8 false) ∧
      (⟨voidTypes, []⟩ : Applier).relocate voidTypes 3 [0] .typeIdTarget = .ok (.value 0 3 false) ∧
      (⟨voidTypes, []⟩ : Applier).relocate voidTypes 6 [0] .typeExists =
        .ok (.value 0 1 false) := by
  refine ⟨voidTypes_wellFormed, ?_, ?_, ?_, ?_⟩
  · decide +kernel
  · decide +kernel
  · decide +kernel
  · decide +kernel

end BpfEquiv.Core
