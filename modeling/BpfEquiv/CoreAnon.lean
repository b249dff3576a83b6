import BpfEquiv.CoreField

/-!
Anonymous members of the object's own types.

A step through an anonymous member has no name, and the target's member at the same place is
taken for it. The rest of an access is found by names and array indices alone. So two accesses
with the same names and indices are relocated alike if neither goes through an anonymous
member, and otherwise a target with other members in front tells them apart.
-/
namespace BpfEquiv.Core

open List

/-! Accesses in the object's own types. -/

/-- The steps follow the types. -/
inductive LocalPath (btf : Btf) : Nat → List Accessor → Prop where
  | nil (tid : Nat) : LocalPath btf tid []
  | member {tid idx : Nat} {m : BtfMember} {rest : List Accessor}
      (composite : (btf.resolve tid).kind.isComposite = true)
      (place : (btf.resolve tid).members[idx]? = some m) (later : LocalPath btf m.type rest) :
      LocalPath btf tid (⟨idx, nameOrNone m.name, m.type⟩ :: rest)
  | element {tid idx : Nat} {rest : List Accessor} (array : (btf.resolve tid).kind = .array)
      (later : LocalPath btf (btf.resolve tid).array.1 rest) :
      LocalPath btf tid (⟨idx, none, (btf.resolve tid).array.1⟩ :: rest)

variable {btf : Btf} {tid lid : Nat} {descend : Nat → Spec → R (Option Found)} {lacc : Accessor}
  {tspec tspec' : Spec} {cands : List Cand} {c : Cand}

theorem parseSteps_path {idxs : List Nat} {spec spec' : Spec}
    (h : parseSteps btf idxs (btf.resolve tid) spec = .ok spec') :
    ∃ steps, spec'.accessors = spec.accessors ++ steps ∧ LocalPath btf tid steps ∧
      spec'.rootId = spec.rootId := by
  induction idxs generalizing tid spec with
  | nil =>
    cases h
    exact ⟨[], (append_nil _).symm, .nil tid, rfl⟩
  | cons idx idxs ih =>
    rw [parseSteps] at h
    split at h
    · rename_i composite
      split at h
      · cases h
      rename_i m place
      obtain ⟨steps, accessors, path, root⟩ := ih h
      refine ⟨⟨idx, nameOrNone m.name, m.type⟩ :: steps, ?_, .member composite place path,
        root⟩
      rw [accessors, Spec.push, append_assoc, singleton_append]
    · split at h
      · rename_i array
        split at h
        · cases h
        obtain ⟨size, _, h⟩ := Exc.bind_eq_ok.mp h
        cases size with
        | none => cases h
        | some es =>
          obtain ⟨steps, accessors, path, root⟩ := ih h
          refine ⟨⟨idx, none, (btf.resolve tid).array.1⟩ :: steps, ?_, .element array path,
            root⟩
          rw [accessors, Spec.push, append_assoc, singleton_append]
      · cases h

def NoAnon (btf : Btf) : Nat → List Accessor → Prop
  | _, [] => True
  | tid, a :: rest =>
    (a.name = none → (btf.resolve tid).kind.isComposite = false) ∧ NoAnon btf a.typeId rest

/-- The steps with a name or an array index. -/
def namedSteps (btf : Btf) : Nat → List Accessor → List Accessor
  | _, [] => []
  | tid, a :: rest =>
    if a.name = none ∧ (btf.resolve tid).kind.isComposite = true then namedSteps btf a.typeId rest
    else a :: namedSteps btf a.typeId rest

def endOf : Nat → List Accessor → Nat
  | tid, [] => tid
  | _, a :: rest => endOf a.typeId rest

theorem namedSteps_noAnon {steps : List Accessor} (h : NoAnon btf tid steps) :
    namedSteps btf tid steps = steps := by
  induction steps generalizing tid with
  | nil => rfl
  | cons a rest ih =>
    rw [namedSteps, if_neg, ih h.2]
    rintro ⟨unnamed, composite⟩
    rw [h.1 unnamed] at composite
    cases composite

theorem first_anon {steps : List Accessor} (path : LocalPath btf tid steps)
    (h : ¬ NoAnon btf tid steps) :
    ∃ pre anon post, steps = pre ++ anon :: post ∧ NoAnon btf tid pre ∧ LocalPath btf tid pre ∧
      anon.name = none ∧ (btf.resolve (endOf tid pre)).kind.isComposite = true ∧
      ∃ rest, namedSteps btf tid steps = pre ++ rest := by
  induction path with
  | nil tid => exact absurd trivial h
  | @member tid idx m rest composite place later ih =>
    by_cases unnamed : m.name = ""
    · refine ⟨[], _, rest, rfl, trivial, .nil tid, ?_, composite, _, (nil_append _).symm⟩
      rw [nameOrNone, if_pos unnamed]
    have named : nameOrNone m.name ≠ none := by
      rw [nameOrNone, if_neg unnamed]
      exact Option.some_ne_none _
    obtain ⟨pre, anon, post, rfl, plain, before, noname, inside, more, kept⟩ :=
      ih fun all => h ⟨fun none' => absurd none' named, all⟩
    refine ⟨_ :: pre, anon, post, rfl, ⟨fun none' => absurd none' named, plain⟩,
      .member composite place before, noname, inside, more, ?_⟩
    rw [namedSteps, if_neg fun both => named both.1, kept]
    rfl
  | @element tid idx rest array later ih =>
    have whole : (btf.resolve tid).kind.isComposite = false := by
      rw [array]
      rfl
    obtain ⟨pre, anon, post, rfl, plain, before, noname, inside, more, kept⟩ :=
      ih fun all => h ⟨fun _ => whole, all⟩
    refine ⟨_ :: pre, anon, post, rfl, ⟨fun _ => whole, plain⟩, .element array before, noname,
      inside, more, ?_⟩
    rw [namedSteps, if_neg fun both => Bool.false_ne_true (whole.symm.trans both.2), kept]
    rfl

/-! Steps that are matched alike. -/

/-- Two local steps that no target tells apart. -/
structure SameStep (lbtf₁ lbtf₂ : Btf) (a b : Accessor) : Prop where
  name : a.name = b.name
  idx : a.name = none → a.idx = b.idx
  compat : ∀ tbtf tid,
    fieldsAreCompat lbtf₁ a.typeId tbtf tid = fieldsAreCompat lbtf₂ b.typeId tbtf tid

section Same
variable {lbtf₁ lbtf₂ tbtf : Btf} {a b : Accessor}

theorem searchMembers_same (same : SameStep lbtf₁ lbtf₂ a b)
    {descend' : Nat → Spec → R (Option Found)} (inner : descend = descend') (tspec : Spec)
    (i : Nat) (ms : List BtfMember) :
    searchMembers descend lbtf₁ a tbtf tspec i ms =
      searchMembers descend' lbtf₂ b tbtf tspec i ms := by
  subst inner
  induction ms generalizing i with
  | nil => rfl
  | cons m ms ih => simp only [searchMembers, ih, same.name, same.compat]

theorem matchMemberFrom_same (same : SameStep lbtf₁ lbtf₂ a b) (fuel tid : Nat) (tspec : Spec) :
    matchMemberFrom lbtf₁ a tbtf fuel tid tspec = matchMemberFrom lbtf₂ b tbtf fuel tid tspec := by
  induction fuel generalizing tid tspec with
  | zero => rfl
  | succ fuel ih =>
    have inner : matchMemberFrom lbtf₁ a tbtf fuel = matchMemberFrom lbtf₂ b tbtf fuel := by
      funext tid tspec
      exact ih tid tspec
    simp only [matchMemberFrom, searchMembers_same same inner]

theorem matchStep_same (same : SameStep lbtf₁ lbtf₂ a b) (tid : Nat) (tspec : Spec) :
    matchStep lbtf₁ a tbtf tid tspec = matchStep lbtf₂ b tbtf tid tspec := by
  unfold matchStep
  rw [← same.name]
  cases unnamed : a.name with
  | some n => simp only [matchMember, matchMemberFrom_same same]
  | none => simp only [matchIndex, same.idx unnamed, same.compat]

theorem matchSteps_same {as bs : List Accessor} (same : List.Forall₂ (SameStep lbtf₁ lbtf₂) as bs)
    (tid : Nat) (tspec : Spec) :
    matchSteps lbtf₁ tbtf as tid tspec = matchSteps lbtf₂ tbtf bs tid tspec := by
  induction same generalizing tid tspec with
  | nil => rfl
  | cons first _ ih => simp only [matchSteps, matchStep_same first, ih]

end Same

/-! Types that the steps have reached on both sides. -/

variable {lbtf tbtf : Btf}

/-- Both are structs or unions, or they passed the check of a step. -/
def Agree (lbtf : Btf) (lid : Nat) (tbtf : Btf) (tid : Nat) : Prop :=
  ((lbtf.resolve lid).kind.isComposite = true ∧ (tbtf.resolve tid).kind.isComposite = true) ∨
    ∃ fuel, fieldsCompatFrom lbtf tbtf fuel lid tid = true

theorem Agree.composite (h : Agree lbtf lid tbtf tid)
    (here : (lbtf.resolve lid).kind.isComposite = true) :
    (tbtf.resolve tid).kind.isComposite = true := by
  obtain ⟨_, there⟩ | ⟨fuel, compat⟩ := h
  · exact there
  by_contra other
  cases fuel with
  | zero => cases compat
  | succ fuel =>
    have differs : (lbtf.resolve lid).kind ≠ (tbtf.resolve tid).kind := by
      intro same
      rw [same] at here
      exact other here
    have noEnum : (lbtf.resolve lid).kind.isEnum = false := by
      cases kind : (lbtf.resolve lid).kind <;> simp_all [Kind.isComposite, Kind.isEnum]
    simp [fieldsCompatFrom, other, differs, noEnum] at compat

theorem Agree.array {lid tid : Nat} (h : Agree lbtf lid tbtf tid)
    (here : (lbtf.resolve lid).kind = .array) :
    (tbtf.resolve tid).kind = .array ∧
      Agree lbtf (lbtf.resolve lid).array.1 tbtf (tbtf.resolve tid).array.1 := by
  obtain ⟨composite, _⟩ | ⟨fuel, compat⟩ := h
  · rw [here] at composite
    cases composite
  cases fuel with
  | zero => cases compat
  | succ fuel =>
    by_cases same : (tbtf.resolve tid).kind = .array
    · refine ⟨same, .inr ⟨fuel, ?_⟩⟩
      simpa [fieldsCompatFrom, here, same, Kind.isComposite] using compat
    · have differs : Kind.array ≠ (tbtf.resolve tid).kind := fun eq => same eq.symm
      simp [fieldsCompatFrom, here, differs, Kind.isComposite, Kind.isEnum] at compat

theorem matchStep_named {lacc : Accessor} {n : String} (named : lacc.name = some n)
    {tid tid' : Nat} {tspec tspec' : Spec}
    (h : matchStep lbtf lacc tbtf tid tspec = .ok (some (tid', tspec'))) :
    Agree lbtf lacc.typeId tbtf tid' := by
  rw [matchStep, named] at h
  obtain ⟨found, went, rest⟩ := Exc.bind_eq_ok.mp h
  cases found with
  | none => cases rest
  | some hit =>
    cases rest
    exact .inr ⟨32, (matchMember_found went).2⟩

theorem matchStep_element {tid' idx : Nat}
    (agree : Agree lbtf lid tbtf tid) (array : (lbtf.resolve lid).kind = .array)
    (h : matchStep lbtf ⟨idx, none, (lbtf.resolve lid).array.1⟩ tbtf tid tspec =
      .ok (some (tid', tspec'))) :
    Agree lbtf (lbtf.resolve lid).array.1 tbtf tid' := by
  obtain ⟨there, elements⟩ := agree.array array
  simp only [matchStep, matchIndex, there, if_true] at h
  split at h
  · cases h
  obtain ⟨size, _, rest⟩ := Exc.bind_eq_ok.mp h
  cases size with
  | none => cases rest
  | some es =>
    cases rest
    exact elements

theorem matchSteps_agree {steps : List Accessor}
    (path : LocalPath lbtf lid steps) (plain : NoAnon lbtf lid steps) {tid' : Nat}
    (agree : Agree lbtf lid tbtf tid)
    (h : matchSteps lbtf tbtf steps tid tspec = .ok (some (tid', tspec'))) :
    Agree lbtf (endOf lid steps) tbtf tid' := by
  induction path generalizing tid tspec with
  | nil lid =>
    cases h
    exact agree
  | @member lid idx m rest composite place later ih =>
    obtain ⟨next, step, h⟩ := Exc.bind_eq_ok.mp h
    cases next with
    | none => cases h
    | some hit =>
      refine ih plain.2 ?_ h
      cases named : nameOrNone m.name with
      | none =>
        have whole := plain.1 named
        rw [composite] at whole
        cases whole
      | some n => exact @matchStep_named lbtf tbtf ⟨idx, _, m.type⟩ n named _ _ _ _ step
  | @element lid idx rest array later ih =>
    obtain ⟨next, step, h⟩ := Exc.bind_eq_ok.mp h
    cases next with
    | none => cases h
    | some hit => exact ih plain.2 (matchStep_element agree array step) h

/-! Targets with more members in front. -/

section Pad
variable (k : Nat) (filler : String)

/-- A struct or union with k more members in front, which have no type. -/
def padType (t : BtfType) : BtfType :=
  { t with
    members := if t.kind.isComposite then List.replicate k ⟨filler, 0, 0, 0⟩ ++ t.members
      else t.members }

def Btf.pad (btf : Btf) : Btf where
  types := btf.types.map (padType k filler)
  startId := btf.startId
  first := by
    rw [List.getElem?_map, btf.first]
    rfl
  ids i t h := by
    rw [List.getElem?_map] at h
    obtain ⟨t', here, rfl⟩ := Option.map_eq_some_iff.mp h
    exact btf.ids i t' here

variable {k filler} {lbtf tbtf : Btf}

theorem pad_get (tid : Nat) :
    (tbtf.pad k filler).types[tid]? = (tbtf.types[tid]?).map (padType k filler) :=
  List.getElem?_map ..

theorem pad_resolveFrom (fuel tid : Nat) :
    (tbtf.pad k filler).resolveFrom fuel tid = padType k filler (tbtf.resolveFrom fuel tid) := by
  induction fuel generalizing tid with
  | zero => rfl
  | succ fuel ih =>
    rw [Btf.resolveFrom, Btf.resolveFrom, pad_get]
    cases tbtf.types[tid]? with
    | none => rfl
    | some t =>
      simp only [Option.map_some, padType, ih]
      split <;> rfl

theorem pad_resolve (tid : Nat) :
    (tbtf.pad k filler).resolve tid = padType k filler (tbtf.resolve tid) :=
  pad_resolveFrom 64 tid

theorem pad_typeSize (tid : Nat) : (tbtf.pad k filler).typeSize tid = tbtf.typeSize tid := by
  have sizes (fuel tid : Nat) : (tbtf.pad k filler).sizeFrom fuel tid = tbtf.sizeFrom fuel tid := by
    induction fuel generalizing tid with
    | zero => rfl
    | succ fuel ih =>
      simp only [Btf.sizeFrom, pad_resolve, padType, ih]
  rw [Btf.typeSize, Btf.typeSize, sizes]
  simp only [Btf.pad, length_map]

theorem pad_fieldsAreCompat (lid tid : Nat) :
    fieldsAreCompat lbtf lid (tbtf.pad k filler) tid = fieldsAreCompat lbtf lid tbtf tid := by
  have compat (fuel lid tid : Nat) :
      fieldsCompatFrom lbtf (tbtf.pad k filler) fuel lid tid =
        fieldsCompatFrom lbtf tbtf fuel lid tid := by
    induction fuel generalizing lid tid with
    | zero => rfl
    | succ fuel ih =>
      simp only [fieldsCompatFrom, pad_resolve, padType, looselyNamed, ih]
  exact compat 32 lid tid

/-- A member without a type is compatible with nothing. -/
theorem void_incompat (lid : Nat) : fieldsAreCompat lbtf lid tbtf 0 = false := by
  have void : tbtf.resolve 0 = .void := by
    simp [Btf.resolve, Btf.resolveFrom, tbtf.first, BtfType.void, Kind.isModifier]
  rw [fieldsAreCompat, fieldsCompatFrom, void]
  cases kind : (lbtf.resolve lid).kind <;> simp [BtfType.void, Kind.isComposite, Kind.isEnum]

/-- The access with the places of named members moved. -/
def Accessor.shift (k : Nat) (a : Accessor) : Accessor :=
  match a.name with
  | some _ => { a with idx := a.idx + k }
  | none => a

def Spec.shift (k : Nat) (spec : Spec) : Spec :=
  { spec with accessors := spec.accessors.map (Accessor.shift k) }

def Found.shift (k : Nat) (found : Found) : Found := (found.1, Spec.shift k found.2)

theorem shift_push_none (spec : Spec) (idx tid bits : Nat) :
    (spec.push ⟨idx, none, tid⟩ bits).shift k = (spec.shift k).push ⟨idx, none, tid⟩ bits := by
  simp [Spec.shift, Spec.push, Accessor.shift]

theorem shift_push_some (spec : Spec) (idx tid bits : Nat) (n : String) :
    (spec.push ⟨idx, some n, tid⟩ bits).shift k =
      (spec.shift k).push ⟨idx + k, some n, tid⟩ bits := by
  simp [Spec.shift, Spec.push, Accessor.shift]

theorem searchMembers_replicate
    (named : filler ≠ "") (other : lacc.name ≠ some filler) (tspec : Spec) (i j : Nat)
    (ms : List BtfMember) :
    searchMembers descend lbtf lacc tbtf tspec i (List.replicate j ⟨filler, 0, 0, 0⟩ ++ ms) =
      searchMembers descend lbtf lacc tbtf tspec (i + j) ms := by
  induction j generalizing i with
  | zero => rfl
  | succ j ih =>
    rw [replicate_succ, cons_append, searchMembers, if_neg named,
      if_neg fun same => other same.symm, ih, Nat.add_right_comm, Nat.add_assoc]

theorem searchMembers_pad {descend' : Nat → Spec → R (Option Found)}
    (inner : ∀ tid spec, descend' tid (spec.shift k) =
      (descend tid spec).map (Option.map (Found.shift k)))
    (tspec : Spec) (i : Nat) (ms : List BtfMember) :
    searchMembers descend' lbtf lacc (tbtf.pad k filler) (tspec.shift k) (i + k) ms =
      (searchMembers descend lbtf lacc tbtf tspec i ms).map (Option.map (Found.shift k)) := by
  induction ms generalizing i with
  | nil => rfl
  | cons m ms ih =>
    have next := ih (i + 1)
    rw [Nat.add_right_comm] at next
    simp only [searchMembers, pad_fieldsAreCompat]
    split
    · have into := inner m.type { tspec with bitOffset := tspec.bitOffset + m.bitOffset }
      rw [show (tspec.shift k).bitOffset = tspec.bitOffset from rfl]
      have same : ({ tspec.shift k with bitOffset := tspec.bitOffset + m.bitOffset } : Spec) =
          Spec.shift k { tspec with bitOffset := tspec.bitOffset + m.bitOffset } := rfl
      rw [same, into]
      cases descend m.type { tspec with bitOffset := tspec.bitOffset + m.bitOffset } with
      | error e => rfl
      | ok found =>
        cases found with
        | none => exact next
        | some hit => rfl
    · split
      · split
        · rfl
        · rw [← shift_push_some]
          rfl
      · exact next

theorem matchMemberFrom_pad (named : filler ≠ "") (other : lacc.name ≠ some filler)
    (fuel tid : Nat) (tspec : Spec) :
    matchMemberFrom lbtf lacc (tbtf.pad k filler) fuel tid (tspec.shift k) =
      (matchMemberFrom lbtf lacc tbtf fuel tid tspec).map (Option.map (Found.shift k)) := by
  induction fuel generalizing tid tspec with
  | zero => rfl
  | succ fuel ih =>
    rw [matchMemberFrom, matchMemberFrom]
    simp only [pad_resolve, padType]
    split
    · rfl
    · rename_i composite
      rw [if_pos (by simpa using composite), searchMembers_replicate named other]
      exact searchMembers_pad ih tspec 0 _

def stepShift (k : Nat) (out : Nat × Spec) : Nat × Spec := (out.1, out.2.shift k)

theorem matchStep_pad_named {n : String} (isNamed : lacc.name = some n)
    (named : filler ≠ "") (other : n ≠ filler) (tid : Nat) (tspec : Spec) :
    matchStep lbtf lacc (tbtf.pad k filler) tid (tspec.shift k) =
      (matchStep lbtf lacc tbtf tid tspec).map (Option.map (stepShift k)) := by
  have length : (tbtf.pad k filler).types.length = tbtf.types.length := length_map ..
  simp only [matchStep, isNamed, matchMember, length]
  rw [matchMemberFrom_pad named (by rw [isNamed]; exact fun same => other (Option.some.inj same))]
  cases matchMemberFrom lbtf lacc tbtf (tbtf.types.length + 1) tid tspec with
  | error e => rfl
  | ok found => cases found <;> rfl

theorem matchStep_pad_element {lacc : Accessor} (unnamed : lacc.name = none) {tid : Nat}
    (array : (tbtf.resolve tid).kind = .array) (tspec : Spec) :
    matchStep lbtf lacc (tbtf.pad k filler) tid (tspec.shift k) =
      (matchStep lbtf lacc tbtf tid tspec).map (Option.map (stepShift k)) := by
  simp only [matchStep, unnamed, matchIndex, pad_resolve, padType, pad_typeSize,
    array, if_true, ← shift_push_none]
  split
  · rfl
  · cases tbtf.typeSize (tbtf.resolve tid).array.1 with
    | error e => rfl
    | ok size => cases size <;> rfl

theorem matchSteps_pad {steps : List Accessor} (path : LocalPath lbtf lid steps)
    (plain : NoAnon lbtf lid steps) (named : filler ≠ "")
    (other : ∀ a ∈ steps, a.name ≠ some filler) (agree : Agree lbtf lid tbtf tid) (tspec : Spec) :
    matchSteps lbtf (tbtf.pad k filler) steps tid (tspec.shift k) =
      (matchSteps lbtf tbtf steps tid tspec).map (Option.map (stepShift k)) := by
  induction path generalizing tid tspec with
  | nil lid => rfl
  | @member lid idx m rest composite place later ih =>
    cases isNamed : nameOrNone m.name with
    | none =>
      have whole := plain.1 isNamed
      rw [composite] at whole
      cases whole
    | some n =>
      have differs : n ≠ filler := by
        rintro rfl
        exact other _ (.head _) isNamed
      simp only [matchSteps]
      rw [← isNamed, matchStep_pad_named isNamed named differs]
      cases step : matchStep lbtf ⟨idx, nameOrNone m.name, m.type⟩ tbtf tid tspec with
      | error e => rfl
      | ok next =>
        cases next with
        | none => rfl
        | some hit =>
          exact ih plain.2 (fun a inside => other a (.tail _ inside))
            (@matchStep_named lbtf tbtf ⟨idx, _, m.type⟩ n isNamed _ _ _ _ step) hit.2
  | @element lid idx rest array later ih =>
    simp only [matchSteps]
    rw [@matchStep_pad_element _ _ _ _ ⟨idx, none, _⟩ rfl _ (agree.array array).1]
    cases step : matchStep lbtf ⟨idx, none, (lbtf.resolve lid).array.1⟩ tbtf tid tspec with
    | error e => rfl
    | ok next =>
      cases next with
      | none => rfl
      | some hit =>
        exact ih plain.2 (fun a inside => other a (.tail _ inside))
          (matchStep_element agree array step) hit.2

/-- A step through an anonymous member meets one of the added members. -/
theorem matchStep_pad_anon {lacc : Accessor} (unnamed : lacc.name = none) (low : lacc.idx < k)
    {tid : Nat} (composite : (tbtf.resolve tid).kind.isComposite = true) (tspec : Spec) :
    matchStep lbtf lacc (tbtf.pad k filler) tid tspec = .ok none := by
  have place : (List.replicate k (⟨filler, 0, 0, 0⟩ : BtfMember) ++
      (tbtf.resolve tid).members)[lacc.idx]? = some ⟨filler, 0, 0, 0⟩ := by
    rw [List.getElem?_append_left (by simpa using low)]
    simp [low]
  have noArray : (tbtf.resolve tid).kind ≠ .array := by
    intro array
    rw [array] at composite
    cases composite
  simp only [matchStep, unnamed, matchIndex, pad_resolve, padType, noArray, if_false, composite,
    if_true, place, void_incompat]
  rfl

theorem fieldInfo_pad (spec : Spec) (kind : ReloKind) :
    fieldInfo (tbtf.pad k filler) (spec.shift k) kind = fieldInfo tbtf spec kind := by
  have last : (spec.shift k).accessors.getLast? = spec.accessors.getLast?.map (Accessor.shift k) :=
    List.getLast?_map ..
  have signed (tid : Nat) : signedOf (tbtf.pad k filler) tid = signedOf tbtf tid := by
    simp only [signedOf, pad_resolve, padType]
  unfold fieldInfo
  rw [last]
  cases spec.accessors.getLast? with
  | none => rfl
  | some acc =>
    obtain ⟨idx, name, typeId⟩ := acc
    cases name with
    | none =>
      simp only [Option.map_some, Accessor.shift, pad_typeSize, signed]
      rfl
    | some n =>
      have recorded (before : Accessor) :
          recordedBitfield (tbtf.pad k filler) (before.shift k) ⟨idx + k, some n, typeId⟩ =
            recordedBitfield tbtf before ⟨idx, some n, typeId⟩ := by
        have leads : (before.shift k).typeId = before.typeId := by
          unfold Accessor.shift
          split <;> rfl
        simp only [recordedBitfield, leads, pad_resolve, padType]
        split
        · rename_i composite
          rw [List.getElem?_append_right (by simp)]
          simp
        · rfl
      have window : fieldWindow (tbtf.pad k filler) (spec.shift k) ⟨idx + k, some n, typeId⟩ =
          fieldWindow tbtf spec ⟨idx, some n, typeId⟩ := by
        have before : (spec.shift k).accessors.dropLast.getLast? =
            spec.accessors.dropLast.getLast?.map (Accessor.shift k) := by
          rw [Spec.shift, ← map_dropLast, List.getLast?_map]
        unfold fieldWindow
        rw [before]
        cases spec.accessors.dropLast.getLast? with
        | none => rfl
        | some b =>
          simp only [Option.map_some, recorded, pad_typeSize, pad_resolve, padType]
          rfl
      simp only [Option.map_some, Accessor.shift, window, windowInfo, signed]
      rfl

end Pad

/-! Relocations. -/

/-- An access to a field of a struct or union of an object, with a value of its own. -/
structure LocalAccess (kind : ReloKind) where
  btf : Btf
  root : Nat
  idxs : List Nat
  type : BtfType
  spec : Spec
  isField : kind.isField = true
  isRoot : btf.types[root]? = some type
  isStruct : type.kind.isComposite = true
  parsed : parseSpec btf root idxs kind = .ok spec
  hasValue : ∃ v, localValue btf spec kind = .ok v

theorem resolve_composite {t : BtfType} (here : btf.types[tid]? = some t)
    (composite : t.kind.isComposite = true) : btf.resolve tid = t := by
  have plain : t.kind.isModifier = false := by
    cases kind : t.kind <;> simp_all [Kind.isComposite, Kind.isModifier]
  rw [Btf.resolve, Btf.resolveFrom, here]
  simp only [plain, Bool.false_eq_true, if_false]

section Access
variable {kind : ReloKind}

def LocalAccess.steps (l : LocalAccess kind) : List Accessor := l.spec.accessors.tail

def LocalAccess.firstIdx (l : LocalAccess kind) : Nat := l.idxs.headD 0

theorem ReloKind.isField_excludes (isField : kind.isField = true) :
    kind.isType = false ∧ kind.isEnumval = false ∧ kind ≠ .typeIdLocal ∧ kind ≠ .typeMatches := by
  cases kind <;> simp_all [ReloKind.isField, ReloKind.isType, ReloKind.isEnumval]

theorem parseSpec_field {btf : Btf} {tid : Nat} {idxs : List Nat} {spec : Spec}
    (isField : kind.isField = true) (h : parseSpec btf tid idxs kind = .ok spec) :
    ∃ idx rest sz, idxs = idx :: rest ∧ btf.typeSize tid = .ok (some sz) ∧
      parseSteps btf rest (btf.resolve tid)
        (Spec.push ⟨tid, [], 0⟩ ⟨idx, none, tid⟩ (idx * sz * 8)) =
        .ok spec := by
  obtain ⟨noType, noEnumval, _⟩ := ReloKind.isField_excludes isField
  unfold parseSpec at h
  split at h
  · cases h
  rw [noType, noEnumval, if_neg Bool.false_ne_true, if_neg Bool.false_ne_true] at h
  obtain ⟨_ | sz, sized, h⟩ := Exc.bind_eq_ok.mp h
  · cases h
  · exact ⟨_, _, sz, rfl, sized, h⟩

theorem LocalAccess.shape (l : LocalAccess kind) :
    l.spec.rootId = l.root ∧ l.spec.accessors = ⟨l.firstIdx, none, l.root⟩ :: l.steps ∧
      LocalPath l.btf l.root l.steps := by
  obtain ⟨idx, rest, sz, list, _, parsed⟩ := parseSpec_field l.isField l.parsed
  obtain ⟨steps, accessors, path, root⟩ := parseSteps_path parsed
  have whole : l.spec.accessors = ⟨idx, none, l.root⟩ :: steps := accessors
  refine ⟨root, ?_, ?_⟩
  · rw [LocalAccess.steps, LocalAccess.firstIdx, whole, list]
    rfl
  · rw [LocalAccess.steps, whole]
    exact path

theorem LocalAccess.rootComposite (l : LocalAccess kind) :
    (l.btf.resolve l.root).kind.isComposite = true := by
  rw [resolve_composite l.isRoot l.isStruct]
  exact l.isStruct

theorem LocalAccess.matchSpec_eq (l : LocalAccess kind) (tbtf : Btf) (tRoot : Nat) :
    matchSpec l.btf l.spec tbtf tRoot = (do
      match ← tbtf.typeSize tRoot with
      | none => pure none
      | some tsz => do
        match ← matchSteps l.btf tbtf l.steps tRoot (startSpec tRoot l.firstIdx tsz) with
        | none => pure none
        | some (_, tspec) => pure (some tspec)) := by
  obtain ⟨root, accessors, _⟩ := l.shape
  have noEnum : (l.btf.resolve l.root).kind.isEnum = false := by
    have composite := l.rootComposite
    cases kind : (l.btf.resolve l.root).kind <;> simp_all [Kind.isComposite, Kind.isEnum]
  simp only [matchSpec, root, accessors, noEnum, Bool.false_eq_true, if_false]
  rfl

theorem matchCand_field (l : LocalAccess kind) (c : Cand) :
    matchCand l.btf l.spec kind c = (do
      match ← matchSpec l.btf l.spec c.1 c.2 with
      | none => pure none
      | some tspec => pure (some (c, some tspec))) := by
  obtain ⟨noType, _, _, noMatches⟩ := ReloKind.isField_excludes l.isField
  exact (if_neg noMatches).trans (if_neg (Bool.eq_false_iff.mp noType))

/-- The value a relocation gives an instruction, or nothing where it is poisoned. -/
def targetOf : R Relocated → R (Option Int)
  | .ok (.value v _ _) => .ok (some v)
  | .ok (.poison _) => .ok none
  | .ok (.localId id) => .ok (some id)
  | .error e => .error e

def LocalAccess.outcome (l : LocalAccess kind) (ap : Applier) : R (Option Int) :=
  targetOf (ap.relocate l.btf l.root l.idxs kind)

/-- What the matches alone decide. -/
def settleTarget (kind : ReloKind) (matched : List Match) : R (Option Int) :=
  if matched.isEmpty then if kind.asksExists then .ok (some 0) else .ok none
  else if kind.asksExists then .ok (some 1)
  else
    match matchValues kind matched with
    | .error (.core _) => .ok none
    | .error (.crash exn) => .error (.crash exn)
    | .ok (vals, _) =>
      match vals.dedup with
      | [v] => .ok (some v)
      | _ => .ok none

theorem LocalAccess.outcome_eq (l : LocalAccess kind) (ap : Applier) :
    l.outcome ap =
      matchCands l.btf l.spec kind (ap.candidates l.btf l.root) >>= settleTarget kind := by
  obtain ⟨noType, _, noLocal, _⟩ := ReloKind.isField_excludes l.isField
  obtain ⟨⟨v, ok⟩, value⟩ := l.hasValue
  unfold LocalAccess.outcome Applier.relocate
  simp only [l.parsed, noLocal, if_false, bind, Except.bind]
  cases matchCands l.btf l.spec kind (ap.candidates l.btf l.root) with
  | error e => rfl
  | ok matched =>
    simp only [settle, settleTarget, noType, value, bind, Except.bind, pure, Except.pure]
    split
    · split
      · rename_i asks
        rw [if_pos (by simpa using asks)]
        rfl
      · rename_i asks
        rw [if_neg (by simpa using asks)]
        rfl
    · split
      · rfl
      cases matchValues kind matched with
      | error e => cases e <;> rfl
      | ok out =>
        simp only
        cases out.1.dedup with
        | nil => rfl
        | cons v vs => cases vs <;> rfl

/-! Accesses with the same names and indices. -/

/-- The second access has the named members and array indices of the first. -/
structure Regrouped (l₁ l₂ : LocalAccess kind) : Prop where
  name : l₁.type.name = l₂.type.name
  kind : l₁.type.kind = l₂.type.kind
  first : l₁.firstIdx = l₂.firstIdx
  steps : List.Forall₂ (SameStep l₁.btf l₂.btf) (namedSteps l₁.btf l₁.root l₁.steps)
    (namedSteps l₂.btf l₂.root l₂.steps)

def LocalAccess.Plain (l : LocalAccess kind) : Prop := NoAnon l.btf l.root l.steps

variable {l₁ l₂ : LocalAccess kind}

theorem Regrouped.candidates (same : Regrouped l₁ l₂) (ap : Applier) :
    ap.candidates l₁.btf l₁.root = ap.candidates l₂.btf l₂.root := by
  simp only [Applier.candidates, l₁.isRoot, l₂.isRoot, same.name, same.kind]

theorem matchCands_congr {lbtf₁ lbtf₂ : Btf} {spec₁ spec₂ : Spec}
    (same : ∀ c ∈ cands, matchCand lbtf₁ spec₁ kind c = matchCand lbtf₂ spec₂ kind c) :
    matchCands lbtf₁ spec₁ kind cands = matchCands lbtf₂ spec₂ kind cands := by
  induction cands with
  | nil => rfl
  | cons c cs ih =>
    rw [matchCands, matchCands, same c (.head _),
      ih fun d inside => same d (.tail c inside)]

theorem Regrouped.outcome (same : Regrouped l₁ l₂) (plain₁ : l₁.Plain) (plain₂ : l₂.Plain)
    (ap : Applier) : l₁.outcome ap = l₂.outcome ap := by
  have steps := same.steps
  rw [namedSteps_noAnon plain₁, namedSteps_noAnon plain₂] at steps
  rw [l₁.outcome_eq, l₂.outcome_eq, same.candidates ap]
  congr 1
  refine matchCands_congr fun c _ => ?_
  simp only [matchCand_field, l₁.matchSpec_eq, l₂.matchSpec_eq, same.first, matchSteps_same steps]

/-! Telling accesses apart. -/

def Applier.pad (ap : Applier) (k : Nat) (filler : String) : Applier :=
  ⟨ap.target.pad k filler, ap.modules.map (Btf.pad k filler)⟩

def Cand.pad (k : Nat) (filler : String) (c : Cand) : Cand := (c.1.pad k filler, c.2)

section Padded
variable {k : Nat} {filler : String}

theorem pad_candidatesIn (essential : String) (rootKind : Kind) (isModule : Bool) (tbtf : Btf) :
    candidatesIn essential rootKind isModule (tbtf.pad k filler) =
      (candidatesIn essential rootKind isModule tbtf).map (Cand.pad k filler) := by
  have byName : (tbtf.pad k filler).byName essential = tbtf.byName essential := by
    simp only [Btf.byName, Btf.pad, filter_map, map_map]
    rfl
  simp only [candidatesIn, byName, map_map, pad_get]
  congr 1
  refine filter_congr fun c _ => ?_
  cases tbtf.types[c]? <;> rfl

theorem pad_firstModule (essential : String) (rootKind : Kind) (ms : List Btf) :
    firstModule essential rootKind (ms.map (Btf.pad k filler)) =
      (firstModule essential rootKind ms).map (Cand.pad k filler) := by
  induction ms with
  | nil => rfl
  | cons m ms ih =>
    rw [map_cons, firstModule, firstModule, pad_candidatesIn]
    cases candidatesIn essential rootKind true m with
    | nil => exact ih
    | cons c cs => rfl

theorem pad_candidates (ap : Applier) (lbtf : Btf) (root : Nat) :
    (ap.pad k filler).candidates lbtf root =
      (ap.candidates lbtf root).map (Cand.pad k filler) := by
  unfold Applier.candidates
  cases lbtf.types[root]? with
  | none => rfl
  | some lt =>
    dsimp only
    split
    · rfl
    · rw [Applier.pad, pad_candidatesIn, pad_firstModule]
      cases candidatesIn (essentialName lt.name) lt.kind false ap.target <;> rfl

theorem mem_candidatesIn {essential : String} {rootKind : Kind} {isModule : Bool}
    (member : c ∈ candidatesIn essential rootKind isModule tbtf)
    (composite : rootKind.isComposite = true) : (c.1.resolve c.2).kind.isComposite = true := by
  obtain ⟨tid, listed, rfl⟩ := mem_map.mp member
  have passed := (mem_filter.mp listed).2
  have noEnum : rootKind.isEnum = false := by
    cases kind : rootKind <;> simp_all [Kind.isComposite, Kind.isEnum]
  cases here : tbtf.types[tid]? with
  | none => simp [here] at passed
  | some t =>
    simp only [here, noEnum, Bool.false_and, Bool.or_false, Bool.and_eq_true,
      decide_eq_true_eq] at passed
    have inside : t.kind.isComposite = true := by
      rw [passed.2]
      exact composite
    rw [resolve_composite here inside]
    exact inside

theorem mem_firstModule {essential : String} {rootKind : Kind} {ms : List Btf}
    (member : c ∈ firstModule essential rootKind ms) (composite : rootKind.isComposite = true) :
    (c.1.resolve c.2).kind.isComposite = true := by
  induction ms with
  | nil => cases member
  | cons m ms ih =>
    rw [firstModule] at member
    split at member
    · exact ih member
    · exact mem_candidatesIn member composite

theorem LocalAccess.candidate_composite (l : LocalAccess kind) {ap : Applier}
    (member : c ∈ ap.candidates l.btf l.root) : (c.1.resolve c.2).kind.isComposite = true := by
  simp only [Applier.candidates, l.isRoot] at member
  split at member
  · cases member
  · split at member
    · exact mem_firstModule member l.isStruct
    · exact mem_candidatesIn member l.isStruct

/-- A match against the target with more members. -/
def Match.pad (k : Nat) (filler : String) (mt : Match) : Match :=
  (mt.1.pad k filler, mt.2.map (Spec.shift k))

theorem matchCand_pad (plain : l₁.Plain) (named : filler ≠ "")
    (other : ∀ a ∈ l₁.steps, a.name ≠ some filler)
    (composite : (c.1.resolve c.2).kind.isComposite = true) :
    matchCand l₁.btf l₁.spec kind (c.pad k filler) =
      (matchCand l₁.btf l₁.spec kind c).map (Option.map (Match.pad k filler)) := by
  obtain ⟨_, _, path⟩ := l₁.shape
  have steps (tsz : Nat) := matchSteps_pad (k := k) path plain named other
    (.inl ⟨l₁.rootComposite, composite⟩) (startSpec c.2 l₁.firstIdx tsz)
  rw [matchCand_field, matchCand_field]
  simp only [Cand.pad, l₁.matchSpec_eq, pad_typeSize]
  cases c.1.typeSize c.2 with
  | error e => rfl
  | ok size =>
    cases size with
    | none => rfl
    | some tsz =>
      have shifted := steps tsz
      rw [show (startSpec c.2 l₁.firstIdx tsz).shift k = startSpec c.2 l₁.firstIdx tsz from rfl]
        at shifted
      simp only [bind, Except.bind, shifted]
      cases matchSteps l₁.btf c.1 l₁.steps c.2 (startSpec c.2 l₁.firstIdx tsz) with
      | error e => rfl
      | ok out => cases out <;> rfl

theorem matchCands_pad (plain : l₁.Plain) (named : filler ≠ "")
    (other : ∀ a ∈ l₁.steps, a.name ≠ some filler)
    (composite : ∀ c ∈ cands, (c.1.resolve c.2).kind.isComposite = true) :
    matchCands l₁.btf l₁.spec kind (cands.map (Cand.pad k filler)) =
      (matchCands l₁.btf l₁.spec kind cands).map (List.map (Match.pad k filler)) := by
  induction cands with
  | nil => rfl
  | cons c cs ih =>
    rw [map_cons, matchCands, matchCands,
      matchCand_pad plain named other (composite c (.head _)),
      ih fun d inside => composite d (.tail c inside)]
    cases matchCand l₁.btf l₁.spec kind c with
    | error e => rfl
    | ok found =>
      cases matchCands l₁.btf l₁.spec kind cs with
      | error e => rfl
      | ok rest => cases found <;> rfl

theorem matchValues_pad (isField : kind.isField = true) (matched : List Match) :
    matchValues kind (matched.map (Match.pad k filler)) = matchValues kind matched := by
  have one (mt : Match) : matchValue kind (mt.pad k filler) = matchValue kind mt := by
    obtain ⟨cand, tspec⟩ := mt
    cases tspec with
    | none => cases kind <;> first | rfl | cases isField
    | some tspec =>
      have value := @fieldInfo_pad k filler cand.1 tspec kind
      cases kind <;> first | exact value | cases isField
  induction matched with
  | nil => rfl
  | cons mt mts ih => rw [map_cons, matchValues, matchValues, one, ih]

theorem outcome_pad (plain : l₁.Plain) (named : filler ≠ "")
    (other : ∀ a ∈ l₁.steps, a.name ≠ some filler) (ap : Applier) :
    l₁.outcome (ap.pad k filler) = l₁.outcome ap := by
  rw [l₁.outcome_eq, l₁.outcome_eq, pad_candidates,
    matchCands_pad plain named other fun c inside => l₁.candidate_composite inside]
  cases matchCands l₁.btf l₁.spec kind (ap.candidates l₁.btf l₁.root) with
  | error e => rfl
  | ok matched =>
    change settleTarget kind (matched.map (Match.pad k filler)) = settleTarget kind matched
    simp only [settleTarget, matchValues_pad l₁.isField, isEmpty_map]

theorem matchSteps_append (as bs : List Accessor) (tid : Nat) (tspec : Spec) :
    matchSteps lbtf tbtf (as ++ bs) tid tspec = (do
      match ← matchSteps lbtf tbtf as tid tspec with
      | none => pure none
      | some mid => matchSteps lbtf tbtf bs mid.1 mid.2) := by
  induction as generalizing tid tspec with
  | nil => rfl
  | cons a as ih =>
    simp only [cons_append, matchSteps, ih]
    cases matchStep lbtf a tbtf tid tspec with
    | error e => rfl
    | ok next => cases next <;> rfl

/-- Where the first access does not fail, the second one meets an added member. -/
theorem matchCand_anon (same : Regrouped l₁ l₂) (plain : l₁.Plain) (anon : ¬ l₂.Plain)
    (low : ∀ a ∈ l₂.steps, a.idx < k)
    (composite : (c.1.resolve c.2).kind.isComposite = true) {found : Option Match}
    (ran : matchCand l₁.btf l₁.spec kind (c.pad k filler) = .ok found) :
    matchCand l₂.btf l₂.spec kind (c.pad k filler) = .ok none := by
  obtain ⟨_, _, path⟩ := l₂.shape
  obtain ⟨pre, step, post, whole, noAnon, before, unnamed, inside, more, kept⟩ :=
    first_anon path anon
  -- the steps before are steps of the first access too
  have steps := same.steps
  rw [namedSteps_noAnon plain, kept] at steps
  have alike := forall₂_take_append _ _ _ steps
  have split₁ := (take_append_drop pre.length l₁.steps).symm
  rw [matchCand_field] at ran ⊢
  simp only [Cand.pad, l₁.matchSpec_eq, l₂.matchSpec_eq, pad_typeSize] at ran ⊢
  cases size : c.1.typeSize c.2 with
  | error e =>
    rw [size] at ran
    cases ran
  | ok size' =>
    cases size' with
    | none => rfl
    | some tsz =>
      rw [size] at ran
      rw [split₁, same.first] at ran
      rw [whole]
      simp only [bind, Except.bind, matchSteps_append, matchSteps_same alike] at ran ⊢
      cases went : matchSteps l₂.btf (c.1.pad k filler) pre c.2
          (startSpec c.2 l₂.firstIdx tsz) with
      | error e =>
        rw [went] at ran
        cases ran
      | ok mid =>
        cases mid with
        | none => rfl
        | some hit =>
          have agree := matchSteps_agree before noAnon
            (.inl ⟨l₂.rootComposite, by rw [pad_resolve]; exact composite⟩) went
          have there := agree.composite inside
          rw [pad_resolve] at there
          have member : step ∈ l₂.steps := by
            rw [whole]
            exact mem_append_right _ (.head _)
          have missed := @matchStep_pad_anon k filler l₂.btf c.1 step unnamed
            (low step member) hit.1 there hit.2
          simp only [matchSteps, bind, Except.bind, missed]
          rfl

theorem matchCands_anon (same : Regrouped l₁ l₂) (plain : l₁.Plain) (anon : ¬ l₂.Plain)
    (low : ∀ a ∈ l₂.steps, a.idx < k)
    (composite : ∀ c ∈ cands, (c.1.resolve c.2).kind.isComposite = true) {matched : List Match}
    (ran : matchCands l₁.btf l₁.spec kind (cands.map (Cand.pad k filler)) = .ok matched) :
    matchCands l₂.btf l₂.spec kind (cands.map (Cand.pad k filler)) = .ok [] := by
  induction cands generalizing matched with
  | nil => rfl
  | cons c cs ih =>
    obtain ⟨found, first, ran⟩ := Exc.bind_eq_ok.mp ran
    obtain ⟨rest, others, _⟩ := Exc.bind_eq_ok.mp ran
    rw [map_cons, matchCands,
      matchCand_anon same plain anon low (composite c (.head _)) first,
      ih (fun d inside => composite d (.tail c inside)) others]
    rfl

end Padded

def LocalAccess.Resolves (l : LocalAccess kind) (ap : Applier) : Prop :=
  ∃ v, l.outcome ap = .ok (some v) ∧ (kind.asksExists = true → v ≠ 0)

theorem exists_filler (steps : List Accessor) :
    ∃ filler : String, filler ≠ "" ∧ ∀ a ∈ steps, a.name ≠ some filler := by
  obtain ⟨filler, fresh⟩ :=
    Infinite.exists_notMem_finset (insert "" (steps.filterMap (·.name)).toFinset)
  rw [Finset.mem_insert, not_or, mem_toFinset] at fresh
  exact ⟨filler, fresh.1, fun a inside named =>
    fresh.2 (mem_filterMap.mpr ⟨a, inside, named⟩)⟩

theorem idx_lt_sum {steps : List Accessor} {a : Accessor} (inside : a ∈ steps) :
    a.idx < (steps.map (·.idx)).sum + 1 :=
  Nat.lt_succ_of_le (single_le_sum (by simp) _ (mem_map_of_mem inside))

/-- The target with more members tells the accesses apart. -/
theorem Regrouped.told_apart (same : Regrouped l₁ l₂) (plain : l₁.Plain) (anon : ¬ l₂.Plain)
    {ap : Applier} (resolves : l₁.Resolves ap) : ∃ ap', l₁.outcome ap' ≠ l₂.outcome ap' := by
  obtain ⟨filler, named, other⟩ := exists_filler l₁.steps
  obtain ⟨v, value, counted⟩ := resolves
  refine ⟨ap.pad ((l₂.steps.map (·.idx)).sum + 1) filler, fun alike => ?_⟩
  rw [outcome_pad plain named other, value, l₂.outcome_eq, ← same.candidates] at alike
  rw [← outcome_pad plain named other, l₁.outcome_eq, pad_candidates] at value
  obtain ⟨matched, ran, _⟩ := Exc.bind_eq_ok.mp value
  rw [pad_candidates, matchCands_anon same plain anon (fun a inside => idx_lt_sum inside)
    (fun c inside => l₁.candidate_composite inside) ran] at alike
  change Except.ok (some v) = settleTarget kind [] at alike
  simp only [settleTarget, isEmpty_nil, if_true] at alike
  split at alike
  · rename_i asks
    cases alike
    exact counted asks rfl
  · cases alike

/-- A regrouping of fields into anonymous members is ignored just where the access does not
go through the new members. -/
theorem regrouped_alike_iff (same : Regrouped l₁ l₂) (plain : l₁.Plain)
    (resolves : ∃ ap, l₁.Resolves ap) :
    (∀ ap, l₁.outcome ap = l₂.outcome ap) ↔ l₂.Plain := by
  constructor
  · intro alike
    by_contra anon
    obtain ⟨ap, found⟩ := resolves
    obtain ⟨ap', apart⟩ := same.told_apart plain anon found
    exact apart (alike ap')
  · intro plain₂ ap
    exact same.outcome plain plain₂ ap

/-! A field directly in the struct, and the same field in an anonymous struct. -/

def flatStruct : Btf :=
  .ofTypes [intType, { kind := .struct, name := "s", size := 4, members := [⟨"a", 1, 0, 0⟩] }]

def groupedStruct : Btf :=
  .ofTypes [intType, { kind := .struct, size := 4, members := [⟨"a", 1, 0, 0⟩] },
    { kind := .struct, name := "s", size := 4, members := [⟨"", 2, 0, 0⟩] }]

def flatAccess : LocalAccess .fieldByteOffset where
  btf := flatStruct
  root := 2
  idxs := [0, 0]
  type := flatStruct.resolve 2
  spec := ⟨2, [⟨0, none, 2⟩, ⟨0, some "a", 1⟩], 0⟩
  isField := rfl
  isRoot := rfl
  isStruct := rfl
  parsed := rfl
  hasValue := ⟨(0, true), rfl⟩

def groupedAccess : LocalAccess .fieldByteOffset where
  btf := groupedStruct
  root := 3
  idxs := [0, 0, 0]
  type := groupedStruct.resolve 3
  spec := ⟨3, [⟨0, none, 3⟩, ⟨0, none, 2⟩, ⟨0, some "a", 1⟩], 0⟩
  isField := rfl
  isRoot := rfl
  isStruct := rfl
  parsed := rfl
  hasValue := ⟨(0, true), rfl⟩

theorem flat_grouped : Regrouped flatAccess groupedAccess where
  name := rfl
  kind := rfl
  first := rfl
  steps := by
    have step : SameStep flatStruct groupedStruct ⟨0, some "a", 1⟩ ⟨0, some "a", 1⟩ := by
      refine ⟨rfl, fun _ => rfl, fun tbtf tid => ?_⟩
      have local₁ : (flatStruct.resolve 1).kind = .int := rfl
      have local₂ : (groupedStruct.resolve 1).kind = .int := rfl
      simp [fieldsAreCompat, fieldsCompatFrom, local₁, local₂, Kind.isComposite, Kind.isEnum]
    exact .cons step .nil

theorem flat_plain : flatAccess.Plain :=
  ⟨fun unnamed => (nomatch unnamed), trivial⟩

/-- The struct s of the target, with another field in front. -/
def paddedTarget : Btf :=
  .ofTypes [intType,
    { kind := .struct, name := "s", size := 8, members := [⟨"pad", 1, 0, 0⟩, ⟨"a", 1, 32, 0⟩] }]

/-- The struct s of the target, with a struct of another name in front that has a field a too. -/
def twoFields : Btf :=
  .ofTypes [intType, { kind := .struct, name := "t", size := 4, members := [⟨"a", 1, 0, 0⟩] },
    { kind := .struct, name := "s", size := 8, members := [⟨"u", 2, 0, 0⟩, ⟨"a", 1, 32, 0⟩] }]

theorem flat_grouped_apart : ¬ ∀ ap, flatAccess.outcome ap = groupedAccess.outcome ap := by
  have found : flatAccess.Resolves ⟨paddedTarget, []⟩ :=
    ⟨4, by decide +kernel, fun asks => nomatch asks⟩
  rw [regrouped_alike_iff flat_grouped flat_plain ⟨_, found⟩]
  intro plain
  have whole := plain.1 rfl
  cases whole

/-- The field is found by its name only where the access is flat. Through the anonymous struct it
is missed, or the field of the same name in the wrong struct is read. -/
theorem regrouping_seen :
    Regrouped flatAccess groupedAccess ∧
      flatAccess.outcome ⟨paddedTarget, []⟩ = .ok (some 4) ∧
      groupedAccess.outcome ⟨paddedTarget, []⟩ = .ok none ∧
      flatAccess.outcome ⟨twoFields, []⟩ = .ok (some 4) ∧
      groupedAccess.outcome ⟨twoFields, []⟩ = .ok (some 0) := by
  refine ⟨flat_grouped, ?_, ?_, ?_, ?_⟩
  · decide +kernel
  · decide +kernel
  · decide +kernel
  · decide +kernel
end Access

end BpfEquiv.Core
