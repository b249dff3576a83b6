import BpfEquiv.CoreField

/-!
The kernel's modules in the search for candidates.

The candidates of a record are those of the first BTF that has any: the kernel itself, then
its modules in their order. What a record comes to depends on the order of the modules
exactly where two of them, each taken alone, lead to different results. The modules are
listed by their file names, so the order in which a directory lists the files has no part
in it.
-/
namespace BpfEquiv.Core

open List

variable {matched : List Match} {vals : List Int} {validate : Bool}

variable {target lbtf m : Btf} {ms ms' : List Btf} {typeId : Nat} {idxs : List Nat}
  {kind : ReloKind} {ap : Applier}

/-! The search. -/

def rootCandidates (lbtf : Btf) (rootId : Nat) (isModule : Bool) (tbtf : Btf) : List Cand :=
  match lbtf.types[rootId]? with
  | none => []
  | some lt =>
    if lt.name = "" then [] else candidatesIn (essentialName lt.name) lt.kind isModule tbtf

def firstNonempty {α : Type} : List (List α) → List α
  | [] => []
  | l :: ls => if l = [] then firstNonempty ls else l

theorem firstNonempty_cases {α : Type} (ls : List (List α)) :
    (∃ l ∈ ls, l ≠ [] ∧ firstNonempty ls = l) ∨ ((∀ l ∈ ls, l = []) ∧ firstNonempty ls = []) := by
  induction ls with
  | nil => exact .inr ⟨nofun, rfl⟩
  | cons l ls ih =>
    by_cases none' : l = []
    · rw [firstNonempty, if_pos none']
      refine ih.imp (fun ⟨l', member, found⟩ => ⟨l', .tail l member, found⟩) ?_
      exact fun ⟨rest, found⟩ => ⟨forall_mem_cons.mpr ⟨none', rest⟩, found⟩
    · exact .inl ⟨l, (.head _), none', if_neg none'⟩

theorem firstModule_eq (essential : String) (k : Kind) (ms : List Btf) :
    firstModule essential k ms = firstNonempty (ms.map (candidatesIn essential k true)) := by
  induction ms with
  | nil => rfl
  | cons m ms ih =>
    rw [firstModule, map_cons, firstNonempty, ← ih]
    cases candidatesIn essential k true m with
    | nil => rfl
    | cons c cs => rfl

theorem firstNonempty_of_nil {α : Type} {ls : List (List α)} (none' : ∀ l ∈ ls, l = []) :
    firstNonempty ls = [] := by
  obtain ⟨l, member, some', _⟩ | ⟨_, found⟩ := firstNonempty_cases ls
  · exact absurd (none' l member) some'
  · exact found

/-- The candidates are those of the first BTF that has any. -/
theorem candidates_eq (target lbtf : Btf) (ms : List Btf) (typeId : Nat) :
    Applier.candidates ⟨target, ms⟩ lbtf typeId =
      firstNonempty (rootCandidates lbtf typeId false target ::
        ms.map (rootCandidates lbtf typeId true)) := by
  unfold Applier.candidates
  cases found : lbtf.types[typeId]? with
  | none =>
    refine (firstNonempty_of_nil ?_).symm
    simp [rootCandidates, found]
  | some lt =>
    by_cases named : lt.name = ""
    · rw [firstNonempty_of_nil]
      · exact if_pos named
      · simp [rootCandidates, found, named]
    have root : rootCandidates lbtf typeId = candidatesIn (essentialName lt.name) lt.kind := by
      funext isModule tbtf
      simp only [rootCandidates, found, if_neg named]
    rw [root, firstNonempty, ← firstModule_eq]
    simp only [if_neg named]
    cases candidatesIn (essentialName lt.name) lt.kind false target with
    | nil => rfl
    | cons c cs => rfl

theorem candidates_of_target (has : rootCandidates lbtf typeId false target ≠ []) :
    Applier.candidates ⟨target, ms⟩ lbtf typeId = rootCandidates lbtf typeId false target := by
  rw [candidates_eq]
  exact if_neg has

theorem candidates_of_no_target (none' : rootCandidates lbtf typeId false target = []) :
    Applier.candidates ⟨target, ms⟩ lbtf typeId =
      firstNonempty (ms.map (rootCandidates lbtf typeId true)) := by
  rw [candidates_eq]
  exact if_pos none'

theorem candidates_of_modules (none' : rootCandidates lbtf typeId false target = [])
    (ms : List Btf) :
    (∃ m ∈ ms, rootCandidates lbtf typeId true m ≠ [] ∧
      Applier.candidates ⟨target, ms⟩ lbtf typeId = rootCandidates lbtf typeId true m) ∨
    ((∀ m ∈ ms, rootCandidates lbtf typeId true m = []) ∧
      Applier.candidates ⟨target, ms⟩ lbtf typeId = []) := by
  rw [candidates_of_no_target none']
  obtain ⟨_, member, some', found⟩ | ⟨each, found⟩ :=
    firstNonempty_cases (ms.map (rootCandidates lbtf typeId true))
  · obtain ⟨m, inside, rfl⟩ := mem_map.mp member
    exact .inl ⟨m, inside, some', found⟩
  · exact .inr ⟨fun m inside => each _ (mem_map_of_mem inside), found⟩

/-! The cache of candidates. -/

/-- What a search for a name and a kind finds. -/
def Applier.find (ap : Applier) (key : String × Kind) : List Cand :=
  match candidatesIn key.1 key.2 false ap.target with
  | [] => firstModule key.1 key.2 ap.modules
  | cands => cands

/-- Searches made before, by essential name and kind. -/
structure CandCache (ap : Applier) where
  entries : List ((String × Kind) × List Cand)
  sound : ∀ key cands, entries.lookup key = some cands → cands = ap.find key

def CandCache.empty (ap : Applier) : CandCache ap := ⟨[], nofun⟩

variable (cache : CandCache ap)

def CandCache.add (key : String × Kind) : CandCache ap where
  entries := (key, ap.find key) :: cache.entries
  sound key' cands found := by
    rw [lookup_cons] at found
    split at found
    · rename_i same
      cases found
      rw [eq_of_beq same]
    · exact cache.sound key' cands found

def CandCache.candidates (lbtf : Btf) (rootId : Nat) :
    List Cand × CandCache ap :=
  match lbtf.types[rootId]? with
  | none => ([], cache)
  | some lt =>
    if lt.name = "" then ([], cache)
    else
      let key := (essentialName lt.name, lt.kind)
      match cache.entries.lookup key with
      | some cands => (cands, cache)
      | none => (ap.find key, cache.add key)

theorem CandCache.candidates_fst :
    (cache.candidates lbtf typeId).1 = ap.candidates lbtf typeId := by
  unfold CandCache.candidates Applier.candidates
  cases lbtf.types[typeId]? with
  | none => rfl
  | some lt =>
    by_cases named : lt.name = ""
    · simp only [if_pos named]
    simp only [if_neg named]
    split
    · next cands found => exact cache.sound _ cands found
    · rfl

/-- What a record comes to with given candidates. -/
def relocateFrom (lbtf : Btf) (typeId : Nat) (idxs : List Nat) (kind : ReloKind)
    (cands : List Cand) : R Relocated := do
  let spec ← parseSpec lbtf typeId idxs kind
  if kind = .typeIdLocal then pure (.localId spec.rootId)
  else do
    let matched ← matchCands lbtf spec kind cands
    settle lbtf spec typeId idxs kind matched

theorem relocate_eq : ap.relocate lbtf typeId idxs kind =
    relocateFrom lbtf typeId idxs kind (ap.candidates lbtf typeId) :=
  rfl

/-- A record with the searches of earlier records at hand. No search is made for a record
that cannot be read or asks for the number of its own type. -/
def CandCache.relocate (lbtf : Btf) (typeId : Nat) (idxs : List Nat)
    (kind : ReloKind) : R Relocated × CandCache ap :=
  match parseSpec lbtf typeId idxs kind with
  | .error e => (.error e, cache)
  | .ok spec =>
    if kind = .typeIdLocal then (.ok (.localId spec.rootId), cache)
    else
      let (cands, cache') := cache.candidates lbtf typeId
      (relocateFrom lbtf typeId idxs kind cands, cache')

/-- Earlier records have no influence. -/
theorem CandCache.relocate_fst :
    (cache.relocate lbtf typeId idxs kind).1 = ap.relocate lbtf typeId idxs kind := by
  rw [relocate_eq]
  unfold CandCache.relocate
  cases parsed : parseSpec lbtf typeId idxs kind with
  | error e =>
    rw [relocateFrom, parsed]
    rfl
  | ok spec =>
    by_cases own : kind = .typeIdLocal
    · simp only [if_pos own]
      rw [relocateFrom, parsed]
      exact (if_pos own).symm
    · simp only [if_neg own]
      rw [cache.candidates_fst]

/-! The order of the modules. -/

/-- The record comes to the same with any module alone that has candidates. -/
def ModulesAgree (lbtf : Btf) (typeId : Nat) (idxs : List Nat) (kind : ReloKind) (ms : List Btf) :
    Prop :=
  ∀ m ∈ ms, ∀ m' ∈ ms, rootCandidates lbtf typeId true m ≠ [] →
    rootCandidates lbtf typeId true m' ≠ [] →
    relocateFrom lbtf typeId idxs kind (rootCandidates lbtf typeId true m) =
      relocateFrom lbtf typeId idxs kind (rootCandidates lbtf typeId true m')

/-- The kernel has candidates, or its modules do not contradict each other. -/
def OrderFree (target lbtf : Btf) (typeId : Nat) (idxs : List Nat) (kind : ReloKind)
    (ms : List Btf) : Prop :=
  rootCandidates lbtf typeId false target ≠ [] ∨ ModulesAgree lbtf typeId idxs kind ms

theorem relocate_perm (free : OrderFree target lbtf typeId idxs kind ms) (perm : ms'.Perm ms) :
    Applier.relocate ⟨target, ms'⟩ lbtf typeId idxs kind =
      Applier.relocate ⟨target, ms⟩ lbtf typeId idxs kind := by
  rw [relocate_eq, relocate_eq]
  by_cases has : rootCandidates lbtf typeId false target = []
  · have agree := free.resolve_left (not_not_intro has)
    obtain ⟨m, member, some', found⟩ | ⟨none', found⟩ := candidates_of_modules has ms
    · obtain ⟨m', member', some'', found'⟩ | ⟨none', _⟩ := candidates_of_modules has ms'
      · rw [found, found']
        exact agree m' (perm.mem_iff.mp member') m member some'' some'
      · exact absurd (none' m (perm.mem_iff.mpr member)) some'
    · obtain ⟨m', member', some'', _⟩ | ⟨_, found'⟩ := candidates_of_modules has ms'
      · exact absurd (none' m' (perm.mem_iff.mp member')) some''
      · rw [found, found']
  · rw [candidates_of_target has, candidates_of_target has]

theorem front_perm (member : m ∈ ms) : ∃ rest, (m :: rest).Perm ms := by
  obtain ⟨before, after, rfl⟩ := append_of_mem member
  exact ⟨before ++ after, perm_middle.symm⟩

theorem orderFree_of_perm (same : ∀ ms', ms'.Perm ms →
      Applier.relocate ⟨target, ms'⟩ lbtf typeId idxs kind =
        Applier.relocate ⟨target, ms⟩ lbtf typeId idxs kind) :
    OrderFree target lbtf typeId idxs kind ms := by
  by_cases has : rootCandidates lbtf typeId false target = []
  · have alone : ∀ m ∈ ms, rootCandidates lbtf typeId true m ≠ [] →
        relocateFrom lbtf typeId idxs kind (rootCandidates lbtf typeId true m) =
          Applier.relocate ⟨target, ms⟩ lbtf typeId idxs kind := by
      intro m member some'
      obtain ⟨rest, perm⟩ := front_perm member
      rw [← same _ perm, relocate_eq, candidates_of_no_target has, map_cons, firstNonempty,
        if_neg some']
    exact .inr fun m member m' member' some' some'' =>
      (alone m member some').trans (alone m' member' some'').symm
  · exact .inl has

/-! Candidates that disagree. -/

theorem matchValues_cons {mt : Match} :
    matchValues kind (mt :: matched) = .ok (vals, validate) ↔
      ∃ v ok vs oks, matchValue kind mt = .ok (v, ok) ∧ matchValues kind matched = .ok (vs, oks) ∧
        vals = v :: vs ∧ validate = (ok && oks) := by
  constructor
  · intro values
    obtain ⟨⟨v, ok⟩, here, rest⟩ := Exc.bind_eq_ok.mp values
    obtain ⟨⟨vs, oks⟩, more, done⟩ := Exc.bind_eq_ok.mp rest
    cases done
    exact ⟨v, ok, vs, oks, here, more, rfl, rfl⟩
  · rintro ⟨v, ok, vs, oks, here, more, rfl, rfl⟩
    exact Exc.bind_eq_ok.mpr ⟨(v, ok), here, Exc.bind_eq_ok.mpr ⟨(vs, oks), more, rfl⟩⟩

theorem matchValues_perm {matched' : List Match} (perm : matched.Perm matched')
    (values : matchValues kind matched = .ok (vals, validate)) :
    ∃ vals', matchValues kind matched' = .ok (vals', validate) ∧ vals.Perm vals' := by
  induction perm generalizing vals validate with
  | nil => exact ⟨vals, values, .refl _⟩
  | cons mt _ ih =>
    obtain ⟨v, ok, vs, oks, here, more, rfl, rfl⟩ := matchValues_cons.mp values
    obtain ⟨vs', found, same⟩ := ih more
    exact ⟨v :: vs', matchValues_cons.mpr ⟨v, ok, vs', oks, here, found, rfl, rfl⟩, same.cons v⟩
  | swap mt mt' l =>
    obtain ⟨v', ok', _, _, here', more', rfl, rfl⟩ := matchValues_cons.mp values
    obtain ⟨v, ok, vs, oks, here, more, rfl, rfl⟩ := matchValues_cons.mp more'
    have inner := matchValues_cons.mpr ⟨v', ok', vs, oks, here', more, rfl, rfl⟩
    exact ⟨v :: v' :: vs, matchValues_cons.mpr ⟨v, ok, v' :: vs, _, here, inner, rfl,
      Bool.and_left_comm ok' ok oks⟩, .swap ..⟩
  | trans _ _ ih ih' =>
    obtain ⟨mid, found, same⟩ := ih values
    obtain ⟨last, found', same'⟩ := ih' found
    exact ⟨last, found', same.trans same'⟩

theorem sorted_perm {α : Type} [LinearOrder α] {l l' : List α} (perm : l.Perm l') :
    l.insertionSort (· ≤ ·) = l'.insertionSort (· ≤ ·) := by
  refine List.Perm.eq_of_sortedLE sortedLE_insertionSort sortedLE_insertionSort ?_
  exact (perm_insertionSort _ l).trans (perm.trans (perm_insertionSort _ l').symm)

theorem listText_perm {vals' : List Int} (perm : vals.Perm vals') :
    listText vals = listText vals' := by
  rw [listText, listText, sorted_perm perm.dedup]

/-- Two matches of different values are ambiguous, in whatever order the matches are found. -/
theorem settle_ambiguous {spec : Spec} {matched' : List Match} (asks : kind.asksExists = false)
    (values : matchValues kind matched = .ok (vals, validate)) {v v' : Int} (mem : v ∈ vals)
    (mem' : v' ∈ vals) (differ : v ≠ v') (perm : matched.Perm matched') :
    settle lbtf spec typeId idxs kind matched' =
      .ok (.poison ("ambiguous candidates: values " ++ listText vals)) := by
  obtain ⟨vals', found, same⟩ := matchValues_perm perm values
  have nonempty : matched'.isEmpty = false := by
    cases matched' with
    | nil =>
      cases found
      cases same.mem_iff.mp mem
    | cons => rfl
  have several : ∀ w, vals'.dedup ≠ [w] := by
    intro w only
    have inside : ∀ x ∈ vals, x = w := fun x member =>
      mem_singleton.mp (only ▸ mem_dedup.mpr (same.mem_iff.mp member))
    exact differ ((inside v mem).trans (inside v' mem').symm)
  rw [settle, nonempty, asks, found, listText_perm same]
  simp only [Bool.false_eq_true, if_false]
  rfl

/-! The list of modules. -/

inductive LoadError where
  | value (msg : String)
  | other (exn : String)

/-- Module files that are no BTF are passed over; other errors end the check. -/
def loadModules (load : String → Except LoadError Btf) : List String → Except String (List Btf)
  | [] => pure []
  | path :: paths =>
    match load path with
    | .ok btf => do
      let rest ← loadModules load paths
      pure (btf :: rest)
    | .error (.value _) => loadModules load paths
    | .error (.other exn) => .error exn

/-- The modules of a check, from the paths that the directory lists. -/
def moduleBtfs (load : String → Except LoadError Btf) (paths : List String) :
    Except String (List Btf) :=
  loadModules load (paths.insertionSort (· ≤ ·))

theorem moduleBtfs_perm (load : String → Except LoadError Btf) {paths paths' : List String}
    (perm : paths.Perm paths') : moduleBtfs load paths = moduleBtfs load paths' := by
  rw [moduleBtfs, moduleBtfs, sorted_perm perm]

/-- What a record comes to is the same in every order of the modules exactly where the kernel
has candidates or no two modules contradict each other. Candidates of one BTF that disagree
are ambiguous in every order. The modules of a check do not depend on the order in which the
directory lists them. -/
theorem module_order (target lbtf : Btf) (typeId : Nat) (idxs : List Nat) (kind : ReloKind)
    (ms : List Btf) :
    ((∀ ms', ms'.Perm ms → ∀ (cache : CandCache ⟨target, ms⟩) (cache' : CandCache ⟨target, ms'⟩),
        (cache'.relocate lbtf typeId idxs kind).1 = (cache.relocate lbtf typeId idxs kind).1) ↔
      OrderFree target lbtf typeId idxs kind ms) ∧
    Applier.candidates ⟨target, ms⟩ lbtf typeId =
      firstNonempty (rootCandidates lbtf typeId false target ::
        ms.map (rootCandidates lbtf typeId true)) ∧
    (∀ (spec : Spec) (matched : List Match) (vals : List Int) (validate : Bool) (v v' : Int),
      kind.asksExists = false → matchValues kind matched = .ok (vals, validate) → v ∈ vals →
      v' ∈ vals → v ≠ v' → ∀ matched', matched.Perm matched' →
        settle lbtf spec typeId idxs kind matched' =
          .ok (.poison ("ambiguous candidates: values " ++ listText vals))) ∧
    ∀ (load : String → Except LoadError Btf) (paths paths' : List String), paths.Perm paths' →
      moduleBtfs load paths = moduleBtfs load paths' := by
  refine ⟨⟨fun same => ?_, fun free ms' perm cache cache' => ?_⟩, candidates_eq .., ?_, ?_⟩
  · refine orderFree_of_perm fun ms' perm => ?_
    have alike := same ms' perm (.empty _) (.empty _)
    rwa [CandCache.relocate_fst, CandCache.relocate_fst] at alike
  · rw [CandCache.relocate_fst, CandCache.relocate_fst]
    exact relocate_perm free perm
  · intro spec matched vals validate v v' asks values mem mem' differ matched' perm
    exact settle_ambiguous asks values mem mem' differ perm
  · exact fun load _ _ perm => moduleBtfs_perm load perm

/-! Two modules with a struct of one name. -/

def bareKernel : Btf := .ofTypes [intType]

def structModule (bits : Nat) : Btf :=
  .split bareKernel
    [{ kind := .struct, name := "s", size := 8, members := [⟨"a", 1, bits, 0⟩] }]

def emptyModule : Btf := .split bareKernel []

def structObject : Btf :=
  .ofTypes [intType, { kind := .struct, name := "s", size := 4, members := [⟨"a", 1, 0, 0⟩] }]

theorem module_order_single :
    Applier.relocate ⟨bareKernel, [emptyModule, structModule 32]⟩ structObject 2 [0, 0]
        .fieldByteOffset =
      Applier.relocate ⟨bareKernel, [structModule 32, emptyModule]⟩ structObject 2 [0, 0]
        .fieldByteOffset := by
  have none' : rootCandidates structObject 2 true emptyModule = [] := by decide +kernel
  have agree : ModulesAgree structObject 2 [0, 0] .fieldByteOffset
      [structModule 32, emptyModule] := by
    intro m member m' member' some' some''
    simp only [mem_cons, not_mem_nil, or_false] at member member'
    obtain rfl := member.resolve_right fun same => some' (same ▸ none')
    obtain rfl := member'.resolve_right fun same => some'' (same ▸ none')
    rfl
  have free := (module_order bareKernel structObject 2 [0, 0] .fieldByteOffset _).1.mpr (.inr agree)
  have same := free _ (.swap _ _ _) (.empty _) (.empty _)
  rwa [CandCache.relocate_fst, CandCache.relocate_fst] at same

/-- The first module alone decides; the two that disagree are not ambiguous. -/
theorem module_order_seen :
    (Applier.relocate ⟨bareKernel, [structModule 0, structModule 32]⟩ structObject 2 [0, 0]
      .fieldByteOffset = .ok (.value 0 0 true)) ∧
    Applier.relocate ⟨bareKernel, [structModule 32, structModule 0]⟩ structObject 2 [0, 0]
      .fieldByteOffset = .ok (.value 4 0 true) := by
  decide +kernel

end BpfEquiv.Core
