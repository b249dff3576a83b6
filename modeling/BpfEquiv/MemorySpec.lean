import BpfEquiv.Hoare
import BpfEquiv.Memory

/-!
What loads and stores do to the contents of the regions.

The contents of a region are the array of the path or else the array the region
starts with. Caching an initial array does not change them, so every operation is
specified on contents and shadows alone.
-/
namespace BpfEquiv
open Smt Hoare List Bool Option Function

variable {r region : Region} {a : Term .arr} {addr : Term (.bv 64)} {size : Size} {n : Nat}
  {u : Unit}

/-! Contents. -/

/-- The array a region starts with, if the executor models the region. -/
def initTerm (cfg : Config) (exec : Exec) (region : Region) : Option (Term .arr) :=
  match exec.sharedArr region with
  | some a => some a
  | none =>
    match region with
    | .stack _ _ => some (.arrVar "stack_init")
    | .ro _ sec => (cfg.elf.sectionByName sec).map fun s => storeConsts false 0 s.data zeroArr
    | .kcfg _ _ =>
      (exec.kcfgBytes.lookup region).map fun bs => storeConsts true 0 bs zeroArr
    | .mapval _ | .rbuf _ => some (.arrVar (initName region))
    | .arenapg _ => some zeroArr
    | _ => none

def curArr (cfg : Config) (s : St) (region : Region) : Option (Term .arr) :=
  match s.mem.arrs region with
  | some a => some a
  | none => initTerm cfg s.exec region

/-- A region that the driver compares is in the shared table once a path has used it. -/
def Backed (s : St) : Prop :=
  ∀ r, r.isObservable = true → s.mem.arrs r ≠ none → s.exec.sharedArr r ≠ none

/-- Two states that differ only in which initial arrays are cached. -/
structure Cached (cfg : Config) (s s' : St) : Prop where
  arrs : ∀ r, curArr cfg s' r = curArr cfg s r
  shadow : s'.mem.shadow = s.mem.shadow
  wrote : s'.mem.wrote = s.mem.wrote
  counters : s'.counters = s.counters
  nclobber : s'.exec.nclobber = s.exec.nclobber
  dynamicMaps : s'.exec.dynamicMaps = s.exec.dynamicMaps
  init : ∀ r, initTerm cfg s'.exec r = initTerm cfg s.exec r
  backed : Backed s → Backed s'
  grows : ∀ r, s.exec.sharedArr r ≠ none → s'.exec.sharedArr r ≠ none

variable {cfg : Config} {s s' : St}

theorem Cached.refl (s : St) : Cached cfg s s :=
  ⟨fun _ => rfl, rfl, rfl, rfl, rfl, rfl, fun _ => rfl, id, fun _ => id⟩

theorem Cached.trans {s'' : St} (h : Cached cfg s s') (h' : Cached cfg s' s'') :
    Cached cfg s s'' where
  arrs r := (h'.arrs r).trans (h.arrs r)
  shadow := h'.shadow.trans h.shadow
  wrote := h'.wrote.trans h.wrote
  counters := h'.counters.trans h.counters
  nclobber := h'.nclobber.trans h.nclobber
  dynamicMaps := h'.dynamicMaps.trans h.dynamicMaps
  init r := (h'.init r).trans (h.init r)
  backed := h'.backed ∘ h.backed
  grows r := h'.grows r ∘ h.grows r

theorem curArr_of_mem (h : s.mem.arrs r = some a) :
    curArr cfg s r = some a := by
  simp only [curArr, h]

theorem sharedArr_snoc (e : Exec) (r r' : Region) (a : Term .arr) :
    ({ e with shared := e.shared ++ [(r, a)] } : Exec).sharedArr r' =
      match e.sharedArr r' with
      | some b => some b
      | none => if r' = r then some a else none := by
  simp only [Exec.sharedArr, lookup_append]
  cases e.shared.lookup r' with
  | some b => rfl
  | none =>
    by_cases same : r' = r
    · simp [same]
    · simp [same, List.lookup, beq_false_of_ne same]

theorem sharedArr_grows {e : Exec} {r' : Region} (h : e.sharedArr r' ≠ none) :
    ({ e with shared := e.shared ++ [(r, a)] } : Exec).sharedArr r' ≠ none := by
  rw [sharedArr_snoc]
  cases found : e.sharedArr r' with
  | some b => exact some_ne_none b
  | none => exact absurd found h

/-- Adding a region's own initial array to the shared table changes nothing. -/
theorem initTerm_snoc (e : Exec) (r r' : Region)
    (h : initTerm cfg e r = some a) :
    initTerm cfg { e with shared := e.shared ++ [(r, a)] } r' = initTerm cfg e r' := by
  unfold initTerm
  rw [sharedArr_snoc]
  cases found : e.sharedArr r' with
  | some b => rfl
  | none =>
    by_cases same : r' = r
    · subst same
      simp only [initTerm, found] at h
      simp only [if_true, h]
    · simp only [if_neg same]

theorem setdefaultShared_cached {r : Region} {a b : Term .arr}
    (fits : initTerm cfg s.exec r = some a) (h : Returns (setdefaultShared r a) s b s') :
    b = a ∧ s'.mem = s.mem ∧ s'.exec.sharedArr r ≠ none ∧ Cached cfg s s' := by
  simp only [setdefaultShared, returns_get_bind] at h
  cases found : s.exec.sharedArr r with
  | some c =>
    simp only [found, returns_pure] at h
    obtain ⟨rfl, rfl⟩ := h
    simp only [initTerm, found, Option.some.injEq] at fits
    exact ⟨fits, rfl, by simp [found], .refl _⟩
  | none =>
    simp only [found, modifyExec, returns_modify_bind, returns_pure] at h
    obtain ⟨rfl, rfl⟩ := h
    refine ⟨rfl, rfl, by simp [sharedArr_snoc, found], fun r' => ?_, rfl, rfl, rfl, rfl, rfl,
      fun r' => ?_, fun backed r' observed used => sharedArr_grows (backed r' observed used),
      fun _ => sharedArr_grows⟩
    · simp only [curArr, initTerm_snoc s.exec r r' fits]
    · exact initTerm_snoc s.exec r r' fits

theorem initArray_cached (h : Returns (initArray cfg r) s a s') :
    initTerm cfg s.exec r = some a ∧ s'.mem = s.mem ∧
      (r.isObservable = true → s'.exec.sharedArr r ≠ none) ∧ Cached cfg s s' := by
  simp only [initArray, returns_get_bind] at h
  cases found : s.exec.sharedArr r with
  | some c =>
    simp only [found, returns_pure] at h
    obtain ⟨rfl, rfl⟩ := h
    exact ⟨by simp only [initTerm, found], rfl, fun _ => by simp [found], .refl _⟩
  | none =>
    simp only [found] at h
    cases r with
    | stack _ _ =>
      obtain ⟨rfl, rfl⟩ := h.pure
      exact ⟨by simp only [initTerm, found], rfl, (by simp [Region.isObservable]), .refl _⟩
    | ro _ sec =>
      simp only [concreteArray] at h
      cases hsec : cfg.elf.sectionByName sec with
      | none =>
        rw [hsec] at h
        exact h.throw
      | some section' =>
        rw [hsec] at h
        obtain ⟨rfl, rfl⟩ := h.pure
        exact ⟨by simp only [initTerm, found, hsec, map_some], rfl,
          (by simp [Region.isObservable]), .refl _⟩
    | kcfg _ _ =>
      rw [returns_get_bind] at h
      split at h
      · rename_i bs hbs
        obtain ⟨rfl, rfl⟩ := h.pure
        exact ⟨by simp only [initTerm, found, hbs, map_some], rfl,
          (by simp [Region.isObservable]), .refl _⟩
      · exact h.throw
    | mapval _ | rbuf _ | arenapg _ =>
      obtain ⟨rfl, same, shared, cached⟩ :=
        @setdefaultShared_cached cfg s s' _ _ _ (by simp only [initTerm, found]) h
      exact ⟨by simp only [initTerm, found], same, fun _ => shared, cached⟩
    | _ => exact h.throw

theorem Backed.setArr {r : Region} {a : Term .arr} (h : Backed s)
    (shared : r.isObservable = true → s.exec.sharedArr r ≠ none) :
    Backed { s with mem := s.mem.setArr r a } := by
  intro r' observed used
  by_cases same : r' = r
  · exact same ▸ shared (same ▸ observed)
  · refine h r' observed ?_
    simpa [Mem.setArr, update_of_ne same] using used

theorem setArr_cached (h : curArr cfg s r = some a)
    (shared : r.isObservable = true → s.exec.sharedArr r ≠ none) :
    Cached cfg s { s with mem := s.mem.setArr r a } := by
  refine ⟨fun r' => ?_, rfl, rfl, rfl, rfl, rfl, fun _ => rfl, fun backed => backed.setArr shared,
    fun _ => id⟩
  by_cases same : r' = r
  · subst same
    rw [h]
    simp [curArr, Mem.setArr]
  · simp [curArr, Mem.setArr, update_of_ne same]

theorem regionArray_cached
    (h : Returns (regionArray cfg r) s a s') :
    curArr cfg s r = some a ∧ s'.mem.arrs r = some a ∧ Cached cfg s s' := by
  simp only [regionArray, returns_get_bind] at h
  cases found : s.mem.arrs r with
  | some b =>
    simp only [found, returns_pure] at h
    obtain ⟨rfl, rfl⟩ := h
    exact ⟨curArr_of_mem found, found, .refl _⟩
  | none =>
    simp only [found] at h
    obtain ⟨b, t, init, h⟩ := h.bind
    simp only [modifyMem, returns_modify_bind, returns_pure] at h
    obtain ⟨rfl, rfl⟩ := h
    obtain ⟨fits, same, shared, cached⟩ := initArray_cached init
    have here : curArr cfg s r = some a := by simp only [curArr, found, fits]
    refine ⟨here, by simp [Mem.setArr], cached.trans (setArr_cached ?_ shared)⟩
    rw [cached.arrs, here]

/-! Loads. -/

/-- Entries of a shadow that keep clear of a window. -/
def Shadow.clear (sh : Shadow) (a : BitVec 64) (n : Nat) : List (BitVec 64 × Ptr) :=
  sh.entries.filter fun e => !decide (Overlaps e.1 a n)

theorem concreteAddr_const {what : String} {a : BitVec 64}
    (h : Returns (concreteAddr cfg addr what) s a s') :
    cfg.z3.constOf addr = some a ∧ s = s' := by
  unfold concreteAddr at h
  split at h
  · rename_i found
    obtain ⟨rfl, rfl⟩ := h.pure
    exact ⟨found, rfl⟩
  · exact h.throw

/-- The pointer a load gives back was spilled at exactly this address. -/
def Reloads (cfg : Config) (s : St) (region : Region) (addr : Term (.bv 64)) (p : Ptr) : Prop :=
  ∃ a, cfg.z3.constOf addr = some a ∧ (a, p) ∈ (s.mem.shadow region).entries

theorem Shadow.mem_of_lookup {sh : Shadow} {a : BitVec 64} {p : Ptr}
    (h : sh.lookup a = some p) : (a, p) ∈ sh.entries := by
  obtain ⟨e, found, rfl⟩ := map_eq_some_iff.mp h
  have here : e.1 = a := by simpa using List.find?_some found
  rw [← here]
  exact mem_of_find?_eq_some found

def WindowClear (s : St) (region : Region) (addr : Term (.bv 64)) (n : Nat) : Prop :=
  ∀ σ, ∀ e ∈ (s.mem.shadow region).entries, ¬ Overlaps e.1 (addr.eval σ) n

theorem shadowRead_cases
    {found : Option Ptr} (h : Returns (shadowRead cfg region addr size) s found s') :
    s = s' ∧ (∀ p, found = some p → size = .dw ∧ Reloads cfg s region addr p) ∧
      (found = none → WindowClear s region addr size.bytes) := by
  simp only [shadowRead, returns_get_bind] at h
  split at h
  · rename_i empty
    obtain ⟨rfl, rfl⟩ := h.pure
    refine ⟨rfl, nofun, fun _ σ e member => ?_⟩
    rw [isEmpty_iff.mp empty] at member
    cases member
  · obtain ⟨a, t, concrete, h⟩ := h.bind
    obtain ⟨const, rfl⟩ := concreteAddr_const concrete
    split at h
    · rename_i p hit
      obtain ⟨rfl, rfl⟩ := h.pure
      have wide : size = .dw := by
        by_contra narrow
        simp [narrow] at hit
      rw [if_pos wide] at hit
      refine ⟨rfl, fun q same => ?_, nofun⟩
      cases same
      exact ⟨wide, a, const, Shadow.mem_of_lookup hit⟩
    · split at h
      · exact h.throw
      rename_i apart
      obtain ⟨rfl, rfl⟩ := h.pure
      refine ⟨rfl, nofun, fun _ σ e member overlap => apart ?_⟩
      rw [cfg.z3.constOf_eval const σ] at overlap
      exact any_eq_true.mpr ⟨e, member, decide_eq_true overlap⟩

/-- What a load may give: a pointer spilled at this address, or bytes clear of the
shadow. -/
def LoadResult (cfg : Config) (s : St) (region : Region) (addr : Term (.bv 64)) (size : Size) :
    Val → Prop
  | .ptr p => size = .dw ∧ Reloads cfg s region addr p
  | .data t => ∃ arr, curArr cfg s region = some arr ∧ t = loadTerm arr addr size ∧
      WindowClear s region addr size.bytes

theorem load_cases {ptr v : Val} (h : Returns (load cfg ptr size) s v s') :
    Cached cfg s s' ∧ ptr.target.1.isMap = false ∧
      LoadResult cfg s ptr.target.1 ptr.target.2 size v := by
  simp only [load] at h
  split at h
  · exact h.throw
  rename_i noMap
  simp only [not_eq_true] at noMap
  obtain ⟨found, t, shadow, h⟩ := h.bind
  obtain ⟨rfl, hit, clear⟩ := shadowRead_cases shadow
  cases found with
  | some p =>
    obtain ⟨rfl, rfl⟩ := h.pure
    exact ⟨.refl _, noMap, hit p rfl⟩
  | none =>
    obtain ⟨arr, t', first, h⟩ := h.bind
    obtain ⟨rfl, rfl⟩ := h.pure
    obtain ⟨here, _, cached⟩ := regionArray_cached first
    exact ⟨cached, noMap, arr, here, rfl, clear rfl⟩

/-! Stores. -/

/-- The effect of a store into one region on contents and shadows. -/
structure Stored (cfg : Config) (region : Region) (s s' : St) : Prop where
  arrs : ∀ r, r ≠ region → curArr cfg s' r = curArr cfg s r
  shadow : ∀ r, r ≠ region → s'.mem.shadow r = s.mem.shadow r
  counters : s'.counters = s.counters
  nclobber : s'.exec.nclobber = s.exec.nclobber
  dynamicMaps : s'.exec.dynamicMaps = s.exec.dynamicMaps
  init : ∀ r, initTerm cfg s'.exec r = initTerm cfg s.exec r
  backed : Backed s → Backed s'
  grows : ∀ r, s.exec.sharedArr r ≠ none → s'.exec.sharedArr r ≠ none

theorem Stored.refl (s : St) : Stored cfg region s s :=
  ⟨fun _ _ => rfl, fun _ _ => rfl, rfl, rfl, rfl, fun _ => rfl, id, fun _ => id⟩

theorem Stored.trans {region : Region} {s'' : St} (h : Stored cfg region s s')
    (h' : Stored cfg region s' s'') : Stored cfg region s s'' where
  arrs r other := (h'.arrs r other).trans (h.arrs r other)
  shadow r other := (h'.shadow r other).trans (h.shadow r other)
  counters := h'.counters.trans h.counters
  nclobber := h'.nclobber.trans h.nclobber
  dynamicMaps := h'.dynamicMaps.trans h.dynamicMaps
  init r := (h'.init r).trans (h.init r)
  backed := h'.backed ∘ h.backed
  grows r := h'.grows r ∘ h.grows r

theorem Backed.setArr_used {b : Term .arr} (h : Backed s)
    (used : s.mem.arrs r = some b) : Backed { s with mem := s.mem.setArr r a } :=
  h.setArr fun observed => h r observed (by simp [used])

theorem Backed.of_eq (h : Backed s) (arrs : s'.mem.arrs = s.mem.arrs) (exec : s'.exec = s.exec) :
    Backed s' := by
  simpa only [Backed, arrs, exec] using h

/-- A step that touches the shadow of one region only. -/
theorem Stored.of_shadow (arrs : s'.mem.arrs = s.mem.arrs) (counters : s'.counters = s.counters)
    (exec : s'.exec = s.exec) (shadow : ∀ r, r ≠ region → s'.mem.shadow r = s.mem.shadow r) :
    Stored cfg region s s' := by
  refine ⟨fun r _ => ?_, shadow, counters, ?_, ?_, fun r => ?_,
    fun backed => backed.of_eq arrs exec, fun r => ?_⟩
  · simp only [curArr, arrs, exec]
  all_goals rw [exec]
  exact id

theorem Stored.setArr {arr : Term .arr} (h : Returns (regionArray cfg region) s arr s')
    (a : Term .arr) :
    Stored cfg region s { s' with mem := s'.mem.setArr region a } ∧
      curArr cfg s region = some arr ∧ s'.mem.shadow = s.mem.shadow := by
  obtain ⟨here, used, cached⟩ := regionArray_cached h
  refine ⟨⟨fun r other => ?_, fun r _ => congrFun cached.shadow r, cached.counters, cached.nclobber,
    cached.dynamicMaps, cached.init, fun backed => (cached.backed backed).setArr_used used,
    cached.grows⟩, here, cached.shadow⟩
  simp only [curArr, Mem.setArr, update_of_ne other]
  exact cached.arrs r

theorem noteWrite_cached
    (h : Returns (noteWrite cfg region addr n) s u s') :
    s'.mem.arrs = s.mem.arrs ∧ s'.mem.shadow = s.mem.shadow ∧ s'.counters = s.counters ∧
      s'.exec = s.exec := by
  unfold noteWrite at h
  split at h
  · split at h
    · rw [modifyMem, returns_modify] at h
      subst h
      exact ⟨rfl, rfl, rfl, rfl⟩
    · rw [modifyMem, returns_modify] at h
      subst h
      split <;> exact ⟨rfl, rfl, rfl, rfl⟩
  · obtain ⟨_, rfl⟩ := h.pure
    exact ⟨rfl, rfl, rfl, rfl⟩

theorem clear_of_apart {sh : Shadow} {a : BitVec 64}
    (apart : ¬ (sh.entries.any fun e => decide (Overlaps e.1 a n)) = true) :
    sh.clear a n = sh.entries := by
  refine filter_eq_self.mpr fun e member => ?_
  simp only [not_eq_true', decide_eq_false_iff_not]
  exact fun overlap => apart (any_eq_true.mpr ⟨e, member, decide_eq_true overlap⟩)

/-- A scalar store writes the bytes and forgets the spilled pointers it touches. -/
theorem storeData_stored
    {byte : Nat → Term (.bv 8)} (h : Returns (storeData cfg region addr n byte) s u s') :
    Stored cfg region s s' ∧
      (∃ arr, curArr cfg s region = some arr ∧
        curArr cfg s' region = some (storeBytes arr addr byte n)) ∧
      ∀ σ, (s'.mem.shadow region).entries = (s.mem.shadow region).clear (addr.eval σ) n := by
  simp only [storeData, returns_get_bind] at h
  -- the shadow is pruned first, and not at all when it is empty
  obtain ⟨t, pruned, view, entries, h⟩ : ∃ t : St, Stored cfg region s t ∧
      curArr cfg t region = curArr cfg s region ∧
      (∀ σ, (t.mem.shadow region).entries = (s.mem.shadow region).clear (addr.eval σ) n) ∧
      Returns (do
        let arr ← regionArray cfg region
        modifyMem (·.setArr region (storeBytes arr addr byte n))
        noteWrite cfg region addr n) t u s' := by
    split at h
    · obtain ⟨a, t, concrete, h⟩ := h.bind
      obtain ⟨const, rfl⟩ := concreteAddr_const concrete
      split at h
      · rw [modifyMem, returns_modify_bind] at h
        refine ⟨_, ?_, ?_, fun σ => ?_, h⟩
        · exact .of_shadow rfl rfl rfl fun r other => update_of_ne other ..
        · rfl
        · simp [Mem.setShadow, Shadow.evict, Shadow.clear, cfg.z3.constOf_eval const σ]
      · rename_i apart
        refine ⟨s, .refl s, rfl, fun σ => ?_, h⟩
        rw [cfg.z3.constOf_eval const σ, clear_of_apart apart]
    · rename_i empty
      simp only [not_eq_true', not_eq_false, List.isEmpty_iff] at empty
      exact ⟨s, .refl s, rfl, fun σ => by simp [Shadow.clear, empty], h⟩
  obtain ⟨arr, t', first, h⟩ := h.bind
  rw [modifyMem, returns_modify_bind] at h
  obtain ⟨stored, here, same⟩ := Stored.setArr first (storeBytes arr addr byte n)
  obtain ⟨arrs, shadow, counters, exec⟩ := noteWrite_cached h
  have noted := stored.trans (.of_shadow arrs counters exec fun r _ => congrFun shadow r)
  refine ⟨pruned.trans noted, ⟨arr, view ▸ here, ?_⟩, fun σ => ?_⟩
  · simp [curArr, arrs, Mem.setArr]
  · rw [shadow, ← entries σ, ← same]
    rfl

/-- A whole-pointer store enters the pointer into the shadow; outside the stack its
canonical encoding goes to the bytes. -/
theorem spill_stored {p : Ptr}
    (h : Returns (spill cfg region addr p) s u s') :
    Stored cfg region s s' ∧ region.takesSpill = true ∧
      ∃ a, cfg.z3.constOf addr = some a ∧
        (s'.mem.shadow region).entries = (a, p) :: (s.mem.shadow region).clear a 8 ∧
        (region.isStack = true → curArr cfg s' region = curArr cfg s region) ∧
        (region.isStack = false → ∃ arr, curArr cfg s region = some arr ∧
          curArr cfg s' region =
            some (storeBytes arr addr (byteOf (canonPtrBits cfg p)) 8)) := by
  simp only [spill] at h
  split at h
  · obtain ⟨_, _, stopped, _⟩ := h.bind
    exact stopped.throw
  rename_i allowed
  simp only [not_eq_true', not_eq_false] at allowed
  obtain ⟨a, t, concrete, h⟩ := h.bind
  obtain ⟨const, rfl⟩ := concreteAddr_const concrete
  rw [modifyMem, returns_modify_bind] at h
  obtain ⟨_, t, noted, h⟩ := h.bind
  obtain ⟨arrs, shadow, counters, exec⟩ := noteWrite_cached noted
  have put : Stored cfg region s t := .of_shadow arrs counters exec fun r other => by
    simp [shadow, Mem.setShadow, update_of_ne other]
  have view : curArr cfg t region = curArr cfg s region := by
    simp only [curArr, arrs, exec, Mem.setShadow]
  have entries : (t.mem.shadow region).entries =
      (a, p) :: (s.mem.shadow region).clear a 8 := by
    simp [shadow, Mem.setShadow, Shadow.put, Shadow.evict, Shadow.clear]
  split at h
  · rename_i private'
    simp only [not_eq_true'] at private'
    obtain ⟨arr, t', first, h⟩ := h.bind
    rw [modifyMem, returns_modify] at h
    subst h
    obtain ⟨stored, here, same⟩ := Stored.setArr first _
    refine ⟨put.trans stored, allowed, a, const, ?_, fun stack => ?_, fun _ =>
      ⟨arr, view ▸ here, ?_⟩⟩
    · rw [← entries, ← same]
      rfl
    · rw [private'] at stack
      cases stack
    · simp [curArr, Mem.setArr]
  · rename_i stack
    simp only [not_eq_true', not_eq_false] at stack
    obtain ⟨_, rfl⟩ := h.pure
    refine ⟨put, allowed, a, const, entries, fun _ => view, fun private' => ?_⟩
    rw [stack] at private'
    cases private'

theorem store_stored {ptr val : Val}
    (h : Returns (store cfg ptr size val) s u s') : Stored cfg ptr.target.1 s s' := by
  simp only [store] at h
  split at h
  · obtain ⟨_, _, stopped, _⟩ := h.bind
    exact stopped.throw
  cases val with
  | data t => exact (storeData_stored h).1
  | ptr p =>
    dsimp only at h
    split at h
    · exact (spill_stored h).1
    · exact (storeData_stored h).1

end BpfEquiv
