import BpfEquiv.StepData
import BpfEquiv.MemoryModel

/-!
Instructions on pointers, for every placement of the regions.

A pointer is a region and an offset; what an instruction makes of it should be what the
machine makes of the address. Addition and subtraction commute with the base of a region,
equality within a region does as well, and most other operators bail. Four neither commute
nor bail: the sign-extending move, the order of two pointers into one region, the equality
of a pointer and a scalar, and the compare-and-exchange that finds a pointer in r0.
-/
namespace BpfEquiv
open Smt Hoare

variable {code : Nat} {what : String} {c : Isa.Cond}

variable {L : Layout} {σ : Assignment} {s s' : St}

/-- No region contains the address NULL or wraps around. -/
structure Layout.Proper (L : Layout) : Prop where
  nonnull : ∀ r ≠ Region.kmem, ∀ o ∈ L.dom r, L.base r + o ≠ 0
  straight : ∀ r, ∀ o ∈ L.dom r, (L.base r).toNat + o.toNat < 2 ^ 64

/-! Bails. -/

def IsBail (e : Err) : Prop := ∃ msg, e = .bail msg

/-- The executor refuses to go on, and says so. -/
def Bails {α : Type} (c : M α) (s : St) : Prop := ∃ msg, Raises c s (.bail msg)

theorem onlyRaises_bail {α : Type} (msg : String) : OnlyRaises IsBail (bail msg : M α) s :=
  .throw ⟨msg, rfl⟩

theorem OnlyBails.cases {α : Type} {c : M α} (h : OnlyRaises IsBail c s) :
    Bails c s ∨ ∃ a s', Returns c s a s' := by
  rcases h.returns_or with ⟨_, ⟨msg, rfl⟩, raised⟩ | returned
  · exact .inl ⟨msg, raised⟩
  · exact .inr returned

theorem needData_bails (v : Val) : OnlyRaises IsBail (needData v what) s := by
  cases v with
  | data t => exact .pure t
  | ptr p => exact onlyRaises_bail _

theorem needData_ptr (p : Ptr) : Bails (needData (.ptr p) what) s := ⟨_, rfl⟩

theorem Bails.bind {α β : Type} {c : M α} {f : α → M β} (h : Bails c s) : Bails (c >>= f) s := by
  obtain ⟨msg, raised⟩ := h
  exact ⟨msg, raised.bind⟩

/-! Arithmetic. -/

/-- The machine's result of an arithmetic instruction, by code, width and offset field. -/
def aluResult (code : Nat) (wide : Bool) (off : Int) (a b : BitVec 64) : Option (BitVec 64) :=
  if code = 11 then
    if off = 0 then some (Isa.onWidth wide (fun _ b => b) 0 b)
    else if off = 8 ∨ off = 16 ∨ (off = 32 ∧ wide = true) then
      some (Isa.onWidth wide (fun _ b => b) 0 (Isa.extendSign off.toNat b))
    else if off = 1 ∧ wide = true then some b
    else none
  else if code = 8 then if off = 0 then some (Isa.onWidth wide (fun a _ => -a) a 0) else none
  else (Isa.aluOp code off).map fun op => Isa.onWidth wide (fun a b => op.eval a b) a b

/-- The instruction bails on pointers or treats them as their addresses. -/
def AluSound (code : Nat) (wide : Bool) (off : Int) : Prop :=
  ∀ (L : Layout) (σ : Assignment) (dst src : Val) (what : String) (s : St),
    L.Proper → dst.isPtr = true ∨ src.isPtr = true →
    Bails (alu code wide dst src off what) s ∨
      ∃ v s', Returns (alu code wide dst src off what) s v s' ∧
        ∀ x, aluResult code wide off (dst.conc L σ) (src.conc L σ) = some x → v.conc L σ = x

/-- A move into a 64-bit register that extends the sign of fewer bits. -/
def SignExtends (code : Nat) (wide : Bool) (off : Int) : Prop :=
  code = 11 ∧ wide = true ∧ (off = 8 ∨ off = 16 ∨ off = 32)

theorem aluScalar_bails (wide : Bool) (dst src : Val) (off : Int) :
    OnlyRaises IsBail (aluScalar code wide dst src off what) s := by
  refine (needData_bails dst).bind fun a _ _ => (needData_bails src).bind fun b _ _ => ?_
  split
  · exact .pure _
  · exact onlyRaises_bail _

theorem aluMov_bails (wide : Bool) (src : Val) (off : Int) :
    OnlyRaises IsBail (aluMov wide src off what) s := by
  refine .ite (fun _ => .pure _) fun _ => ?_
  cases src with
  | data t =>
    refine .ite (fun _ => .pure _) fun _ => ?_
    exact .ite (fun _ => .pure _) fun _ => .pure _
  | ptr p =>
    exact .ite (fun _ => .pure _) fun _ => (needData_bails _).bind fun _ _ _ => .pure _

/-- No operand makes arithmetic end otherwise than with a value or a bail. -/
theorem alu_bails (wide : Bool) (dst src : Val) (off : Int) :
    OnlyRaises IsBail (alu code wide dst src off what) s := by
  refine .ite (fun _ => aluMov_bails wide src off) fun _ => ?_
  have scalar : OnlyRaises IsBail (aluScalar code wide dst src off what) s :=
    aluScalar_bails wide dst src off
  cases dst with
  | data a =>
    cases src with
    | data b => exact scalar
    | ptr p => exact .ite (fun _ => .pure _) fun _ => scalar
  | ptr d =>
    cases src with
    | data b =>
      refine .ite (fun _ => .pure _) fun _ => ?_
      exact .ite (fun _ => .pure _) fun _ => scalar
    | ptr p =>
      refine .ite (fun _ => ?_) fun _ => scalar
      exact .ite (fun _ => onlyRaises_bail _) fun _ => .pure _

theorem aluScalar_ptr {wide : Bool} {dst src v : Val} {off : Int}
    (h : dst.isPtr = true ∨ src.isPtr = true) :
    ¬ Returns (aluScalar code wide dst src off what) s v s' := by
  intro returned
  obtain ⟨a, _, first, rest⟩ := returned.bind
  obtain ⟨rfl, _⟩ := needData_returns first
  obtain ⟨b, _, second, _⟩ := rest.bind
  obtain ⟨rfl, _⟩ := needData_returns second
  rcases h with ptr | ptr <;> cases ptr

theorem aluMov_sound {wide : Bool} {off : Int} {dst src v : Val} {x : BitVec 64}
    (plain : ¬ SignExtends 11 wide off) (h : Returns (aluMov wide src off what) s v s')
    (result : aluResult 11 wide off (dst.conc L σ) (src.conc L σ) = some x) : v.conc L σ = x := by
  simp only [aluResult, if_true] at result
  split at result
  · rename_i zero
    subst zero
    cases result
    exact (mov_sound h).1
  split at result
  · rename_i width
    cases result
    have narrow : wide = false := by
      refine Bool.eq_false_iff.mpr fun isWide => plain ⟨rfl, isWide, ?_⟩
      omega
    subst narrow
    have width' : off = 8 ∨ off = 16 ∨ off = 32 := by omega
    cases src with
    | data b => exact (movsx_sound width' h).1
    | ptr p =>
      have refused : ¬ Returns (aluMov false (.ptr p) off what) s v s' := by
        intro returned
        simp only [aluMov, Bool.false_eq_true, false_and, if_false] at returned
        obtain ⟨_, _, data, _⟩ := returned.bind
        cases (needData_returns data).1
      exact absurd h refused
  · split at result
    · rename_i cast
      cases result
      simp only [aluMov, cast, and_self, if_true, returns_pure] at h
      rw [h.1]
    · cases result

/-- An address above 32 bits, with bits in its low half as well. -/
def farBase : BitVec 64 := 0x10000010000#64

/-- The context lies far up, with one byte; all other regions are empty. -/
def farLayout : Layout where
  base r := if r = .ctx then farBase else 0
  dom r := if r = .ctx then {0} else ∅
  kmem := rfl
  apart := by
    intro r r' o o' inside inside' _
    by_cases here : r = .ctx
    · by_cases there : r' = .ctx
      · rw [here, there]
      · simp [there] at inside'
    · simp [here] at inside

theorem farLayout_proper : farLayout.Proper := by
  refine ⟨fun r _ o inside => ?_, fun r o inside => ?_⟩
  all_goals
    by_cases here : r = .ctx
    · subst here
      obtain rfl : o = 0 := inside
      decide
    · simp [farLayout, here] at inside

def emptySt : St := ⟨.empty, .zero, ⟨[], 0, [], [], 0⟩⟩

/-- What is right about every returned value is so unless the computation bails. -/
theorem OnlyBails.sound {α : Type} {c : M α} {P : α → Prop} (h : OnlyRaises IsBail c s)
    (right : ∀ a s', Returns c s a s' → P a) :
    Bails c s ∨ ∃ a s', Returns c s a s' ∧ P a :=
  (OnlyBails.cases h).imp_right fun ⟨a, s', returned⟩ => ⟨a, s', returned, right a s' returned⟩

/-- A sound computation that returns returns what is right. -/
theorem of_bails_or {α : Type} {c : M α} {P : α → Prop} {a : α}
    (h : Bails c s ∨ ∃ a s', Returns c s a s' ∧ P a) (returned : Returns c s a s') : P a := by
  rcases h with ⟨_, raised⟩ | ⟨b, _, returned', right⟩
  · exact absurd returned raised.not_returns
  · cases returned'.symm.trans returned
    exact right

theorem aluSound_iff (code : Nat) (wide : Bool) (off : Int) :
    AluSound code wide off ↔ ¬ SignExtends code wide off := by
  constructor
  · rintro sound ⟨rfl, rfl, width⟩
    -- the pointer is passed through, its sign-extended address is not its address
    have moved : Returns (alu 11 true (.data (bv64 0)) (.ptr ⟨.ctx, bv64 0⟩) off "") emptySt
        (.ptr ⟨.ctx, bv64 0⟩) emptySt := by
      simp [alu, aluMov]
    have claimed := of_bails_or (sound farLayout default _ _ _ _ farLayout_proper (.inr rfl)) moved
    rcases width with rfl | rfl | rfl
    all_goals exact absurd (claimed _ rfl) (by decide)
  · intro plain L σ dst src what s _ ptr
    refine OnlyBails.sound (alu_bails wide dst src off) fun v s' returned x result => ?_
    by_cases mov : code = 11
    · subst mov
      exact aluMov_sound plain returned result
    by_cases neg : code = 8
    · subst neg
      have scalar : Returns (aluScalar 8 wide dst src off what) s v s' := by
        cases dst <;> cases src <;> exact returned
      exact absurd scalar (aluScalar_ptr ptr)
    · simp only [aluResult, if_neg mov, if_neg neg] at result
      obtain ⟨op, found, rfl⟩ := Option.map_eq_some_iff.mp result
      exact (alu_sound found mov returned).1

/-! Conditions. -/

/-- The comparison bails, or it decides as the machine does on the addresses. -/
def CondSound (L : Layout) (σ : Assignment) (code : Nat) (wide : Bool) (c : Isa.Cond)
    (dst src : Val) (what : String) (s : St) : Prop :=
  Bails (cond code (!wide) dst src what) s ∨
    ∃ r s', Returns (cond code (!wide) dst src what) s r s' ∧
      r.eval σ = Isa.condOn wide c (dst.conc L σ) (src.conc L σ)

def PtrPtrSound (code : Nat) (wide : Bool) (c : Isa.Cond) : Prop :=
  ∀ (L : Layout) (σ : Assignment) (d p : Ptr) (what : String) (s : St),
    L.Proper → CondSound L σ code wide c (.ptr d) (.ptr p) what s

def PtrDataSound (code : Nat) (wide : Bool) (c : Isa.Cond) : Prop :=
  ∀ (L : Layout) (σ : Assignment) (d : Ptr) (b : Term (.bv 64)) (what : String) (s : St),
    L.Proper → CondSound L σ code wide c (.ptr d) (.data b) what s

theorem condScalar_bails (is32 : Bool) (a b : Term (.bv 64)) :
    OnlyRaises IsBail (condScalar code is32 a b what) s := by
  unfold condScalar
  split
  · exact .pure _
  · exact onlyRaises_bail _

theorem cond_bails (is32 : Bool) (dst src : Val) :
    OnlyRaises IsBail (cond code is32 dst src what) s := by
  cases dst with
  | data a =>
    cases src with
    | data b => exact condScalar_bails is32 a b
    | ptr p => exact onlyRaises_bail _
  | ptr d =>
    cases src with
    | data b =>
      refine .ite (fun _ => .pure _) fun _ => ?_
      exact .ite (fun _ => .pure _) fun _ => onlyRaises_bail _
    | ptr p => exact .ite (fun _ => condScalar_bails is32 _ _) fun _ => onlyRaises_bail _

/-- Comparable operands are compared as the machine compares their addresses. -/
theorem condSound_of_comparable {wide : Bool} {dst src : Val} (hc : Isa.condOf code = some c)
    (same : Comparable L σ wide c dst src) : CondSound L σ code wide c dst src what s := by
  refine OnlyBails.sound (cond_bails _ dst src) fun r s' returned => ?_
  have result := (cond_sound hc (Bool.not_not wide ▸ same) returned).1
  rwa [Bool.not_not] at result

/-- Offsets from the far base whose order changes when the base is added. -/
def farOffset (wide : Bool) : Isa.Cond → BitVec 64
  | .set => 0
  | .sgt | .sge | .slt | .sle => if wide then 0x7fffffffffffffff#64 else 0x7fffffff#64
  | _ => -farBase

theorem order_changes (wide : Bool) (order : c ≠ .eq ∧ c ≠ .ne) :
    Isa.condOn wide c 0 (farOffset wide c) ≠
      Isa.condOn wide c (farBase + 0) (farBase + farOffset wide c) := by
  cases c <;> cases wide <;> simp at order <;> decide

theorem condScalar_returns (hc : Isa.condOf code = some c) (is32 : Bool)
    (a b : Term (.bv 64)) (what : String) (s : St) :
    ∃ r, Returns (condScalar code is32 a b what) s r s := by
  cases is32 with
  | true =>
    obtain ⟨r, found, _⟩ := condData_sound (σ := default) hc (lo32 a) (lo32 b)
    exact ⟨r, by simp only [condScalar, found, if_true, returns_pure, and_self]⟩
  | false =>
    obtain ⟨r, found, _⟩ := condData_sound (σ := default) hc a b
    exact ⟨r, by
      simp only [condScalar, found, Bool.false_eq_true, if_false, returns_pure, and_self]⟩

/-- Pointers into one region compare by their offsets as by their addresses for equality
only. -/
theorem ptrPtrSound_iff (hc : Isa.condOf code = some c) (wide : Bool) :
    PtrPtrSound code wide c ↔ c = .eq ∨ c = .ne := by
  constructor
  · intro sound
    by_contra order
    rw [not_or] at order
    obtain ⟨r, returned⟩ :=
      condScalar_returns hc (!wide) (.bvVal 0) (.bvVal (farOffset wide c)) "" emptySt
    have compared : Returns (cond code (!wide) (.ptr ⟨.ctx, .bvVal 0⟩)
        (.ptr ⟨.ctx, .bvVal (farOffset wide c)⟩) "") emptySt r emptySt := by
      simpa only [cond, if_true] using returned
    have byOffset := (condScalar_sound (σ := default) hc returned).1
    have byAddress := of_bails_or (sound farLayout default _ _ _ _ farLayout_proper) compared
    rw [Bool.not_not] at byOffset
    exact order_changes wide order (byOffset.symm.trans byAddress)
  · intro equality L σ d p what s _
    refine condSound_of_comparable hc ?_
    rcases equality with rfl | rfl
    · exact .inl rfl
    · exact .inr (.inl rfl)

/-- A pointer is taken to differ from every scalar, its own address among them; the orders
bail. -/
theorem ptrDataSound_iff (hc : Isa.condOf code = some c) (wide : Bool) :
    PtrDataSound code wide c ↔ c ≠ .eq ∧ c ≠ .ne := by
  have codes : (c = .eq ↔ code = 1) ∧ (c = .ne ↔ code = 5) := by
    unfold Isa.condOf at hc
    split at hc <;> cases hc <;> simp
  constructor
  · intro sound
    constructor
    all_goals
      rintro rfl
      simp only [true_iff, reduceCtorEq, false_iff] at codes
    · obtain ⟨rfl, _⟩ := codes
      have compared : Returns (cond 1 (!wide) (.ptr ⟨.ctx, bv64 0⟩) (.data (.bvVal farBase)) "")
          emptySt (.boolVal false) emptySt := by simp [cond]
      have claimed := of_bails_or (sound farLayout default _ _ _ _ farLayout_proper) compared
      cases wide <;> exact absurd claimed (by decide)
    obtain ⟨_, rfl⟩ := codes
    have compared : Returns (cond 5 (!wide) (.ptr ⟨.ctx, bv64 0⟩) (.data (.bvVal farBase)) "")
        emptySt (.boolVal true) emptySt := by simp [cond]
    have claimed := of_bails_or (sound farLayout default _ _ _ _ farLayout_proper) compared
    cases wide <;> exact absurd claimed (by decide)
  · rintro ⟨notEq, notNe⟩ L σ d b what s _
    rw [Ne, codes.1] at notEq
    rw [Ne, codes.2] at notNe
    left
    simp only [cond, if_neg notEq, if_neg notNe]
    exact ⟨_, rfl⟩

/-! Which exceptions memory accesses raise. -/

section Access
variable {cfg : Config} {region r : Region} {addr : Term (.bv 64)} {size : Size} {n : Nat}
  {ptr v : Val} {a : Term .arr}

/-- The array of a region whose bytes come from the object or the configuration is there. -/
def Present (cfg : Config) (exec : Exec) : Region → Prop
  | .ro tag sec => initTerm cfg exec (.ro tag sec) ≠ none
  | .kcfg tag name => initTerm cfg exec (.kcfg tag name) ≠ none
  | _ => True

/-- The shadow lets data through: the region holds no spilled pointer, or the address is a
constant and its window overlaps none. -/
def Unspilled (cfg : Config) (s : St) (region : Region) (addr : Term (.bv 64)) (n : Nat) : Prop :=
  (s.mem.shadow region).entries = [] ∨
    ∃ a, cfg.z3.constOf addr = some a ∧ ∀ e ∈ (s.mem.shadow region).entries, ¬ Overlaps e.1 a n

/-- A read of data gets as far as the bytes of its region. -/
structure ReadsData (cfg : Config) (s : St) (ptr : Val) (n : Nat) : Prop where
  noMap : ptr.target.1.isMap = false
  unspilled : Unspilled cfg s ptr.target.1 ptr.target.2 n
  modelled : curArr cfg s ptr.target.1 ≠ none

theorem initArray_returns (h : initTerm cfg s.exec r = some a) :
    ∃ s', Returns (initArray cfg r) s a s' := by
  simp only [initArray, returns_get_bind]
  simp only [initTerm] at h
  cases found : s.exec.sharedArr r with
  | some b =>
    rw [found] at h
    cases h
    exact ⟨s, rfl⟩
  | none =>
    rw [found] at h
    cases r with
    | stack _ _ =>
      cases h
      exact ⟨s, rfl⟩
    | ro tag sec =>
      obtain ⟨section', hsec, rfl⟩ := Option.map_eq_some_iff.mp h
      exact ⟨s, by simp only [concreteArray, hsec]; rfl⟩
    | kcfg tag name =>
      obtain ⟨bs, hbs, rfl⟩ := Option.map_eq_some_iff.mp h
      exact ⟨s, by simp only [returns_get_bind, hbs]; rfl⟩
    | mapval _ | rbuf _ | arenapg _ =>
      cases h
      exact ⟨_, by simp only [setdefaultShared, returns_get_bind, found]; rfl⟩
    | _ => cases h

theorem initArray_bails (present : Present cfg s.exec r) :
    OnlyRaises IsBail (initArray cfg r) s := by
  cases init : initTerm cfg s.exec r with
  | some a =>
    obtain ⟨_, returned⟩ := initArray_returns init
    exact .of_returns returned
  | none =>
    have unshared : s.exec.sharedArr r = none := by
      cases found : s.exec.sharedArr r with
      | none => rfl
      | some b => simp only [initTerm, found, reduceCtorEq] at init
    refine .get_bind ?_
    rw [unshared]
    simp only [initTerm, unshared] at init
    cases r with
    | ro _ _ | kcfg _ _ => exact absurd (by simpa only [initTerm, unshared] using init) present
    | stack _ _ | mapval _ | rbuf _ | arenapg _ => cases init
    | _ => exact onlyRaises_bail _

theorem regionArray_returns (h : curArr cfg s r = some a) :
    ∃ s', Returns (regionArray cfg r) s a s' := by
  simp only [regionArray, returns_get_bind]
  simp only [curArr] at h
  cases found : s.mem.arrs r with
  | some b =>
    rw [found] at h
    cases h
    exact ⟨s, rfl⟩
  | none =>
    rw [found] at h
    obtain ⟨t, init⟩ := initArray_returns h
    exact ⟨_, returns_bind.mpr ⟨a, t, init, rfl⟩⟩

theorem regionArray_bails (present : Present cfg s.exec r) :
    OnlyRaises IsBail (regionArray cfg r) s := by
  refine .get_bind ?_
  split
  · exact .pure _
  · exact (initArray_bails present).bind fun _ _ _ => .of_returns rfl

theorem concreteAddr_bails : OnlyRaises IsBail (concreteAddr cfg addr what) s := by
  unfold concreteAddr
  split
  · exact .pure _
  · exact onlyRaises_bail _

theorem shadowRead_bails : OnlyRaises IsBail (shadowRead cfg region addr size) s := by
  refine .get_bind ?_
  refine .ite (fun _ => .pure _) fun _ => ?_
  refine concreteAddr_bails.bind fun _ _ _ => ?_
  split
  · exact .pure _
  · exact .ite (fun _ => onlyRaises_bail _) fun _ => .pure _

theorem unspilled_of_shadowRead (h : Returns (shadowRead cfg region addr size) s none s') :
    Unspilled cfg s region addr size.bytes := by
  simp only [shadowRead, returns_get_bind] at h
  split at h
  · rename_i empty
    exact .inl (List.isEmpty_iff.mp empty)
  · obtain ⟨a, t, concrete, h⟩ := h.bind
    obtain ⟨const, rfl⟩ := concreteAddr_const concrete
    refine .inr ⟨a, const, fun e member overlap => ?_⟩
    split at h
    · cases h.pure.1
    · split at h
      · exact h.throw
      · rename_i apart
        exact apart (List.any_eq_true.mpr ⟨e, member, decide_eq_true overlap⟩)

theorem shadowRead_none (h : Unspilled cfg s region addr size.bytes) :
    Returns (shadowRead cfg region addr size) s none s := by
  simp only [shadowRead, returns_get_bind]
  rcases h with empty | ⟨a, const, apart⟩
  · rw [if_pos (List.isEmpty_iff.mpr empty)]
    rfl
  · split
    · rfl
    rw [returns_bind]
    refine ⟨a, s, by simp only [concreteAddr, const]; rfl, ?_⟩
    have absent : (if size = .dw then (s.mem.shadow region).lookup a else none) = none := by
      split
      · rename_i wide
        cases found : (s.mem.shadow region).lookup a with
        | none => rfl
        | some p =>
          refine absurd ?_ (apart _ (Shadow.mem_of_lookup found))
          simp only [Overlaps, wide, Size.bytes]
          omega
      · rfl
    rw [absent]
    dsimp only
    rw [if_neg fun any => ?_]
    · rfl
    · obtain ⟨e, member, overlap⟩ := List.any_eq_true.mp any
      exact apart e member (of_decide_eq_true overlap)

theorem load_bails (present : Present cfg s.exec ptr.target.1) :
    OnlyRaises IsBail (load cfg ptr size) s := by
  refine .ite (fun _ => onlyRaises_bail _) fun _ => ?_
  refine shadowRead_bails.bind fun found _ shadow => ?_
  obtain ⟨rfl, _⟩ := shadowRead_cases shadow
  cases found with
  | some p => exact .pure _
  | none => exact (regionArray_bails present).bind fun _ _ _ => .pure _

theorem readsData_of_load {t : Term (.bv 64)} (h : Returns (load cfg ptr size) s (.data t) s') :
    ReadsData cfg s ptr size.bytes := by
  obtain ⟨_, noMap, arr, here, _, _⟩ := load_cases h
  refine ⟨noMap, ?_, by simp [here]⟩
  simp only [load, noMap, Bool.false_eq_true, if_false] at h
  obtain ⟨found, _, shadow, h⟩ := h.bind
  cases found with
  | some p => cases h.pure.1
  | none => exact unspilled_of_shadowRead shadow

theorem ReadsData.load (h : ReadsData cfg s ptr size.bytes) :
    ∃ t s', Returns (load cfg ptr size) s (.data t) s' := by
  obtain ⟨arr, here⟩ := Option.ne_none_iff_exists'.mp h.modelled
  obtain ⟨s', array⟩ := regionArray_returns here
  refine ⟨loadTerm arr ptr.target.2 size, s', ?_⟩
  simp only [BpfEquiv.load, h.noMap, Bool.false_eq_true, if_false]
  exact returns_bind.mpr ⟨none, s, shadowRead_none h.unspilled,
    returns_bind.mpr ⟨arr, s', array, rfl⟩⟩

theorem noteWrite_bails : OnlyRaises IsBail (noteWrite cfg region addr n) s := by
  refine .ite (fun _ => ?_) fun _ => .pure _
  split
  · exact .of_returns rfl
  · exact .of_returns rfl

theorem storeData_bails {byte : Nat → Term (.bv 8)} (present : Present cfg s.exec region) :
    OnlyRaises IsBail (storeData cfg region addr n byte) s := by
  have write (t : St) (same : t.exec = s.exec) : OnlyRaises IsBail (do
      let arr ← regionArray cfg region
      modifyMem (·.setArr region (storeBytes arr addr byte n))
      noteWrite cfg region addr n) t := by
    rw [← same] at present
    refine (regionArray_bails present).bind fun _ _ _ => ?_
    exact OnlyRaises.bind (.of_returns rfl) fun _ _ _ => noteWrite_bails
  refine .get_bind (.ite (fun _ => ?_) fun _ => write s rfl)
  refine concreteAddr_bails.bind fun a t concrete => ?_
  obtain ⟨_, rfl⟩ := concreteAddr_const concrete
  refine .ite (fun _ => ?_) fun _ => write s rfl
  refine OnlyRaises.bind (.of_returns rfl) fun _ t evicted => write t ?_
  rw [returns_modify.mp evicted]

theorem store_bails {t : Term (.bv 64)} (present : Present cfg s.exec ptr.target.1) :
    OnlyRaises IsBail (store cfg ptr size (.data t)) s :=
  .ite (fun _ => (onlyRaises_bail _).bind fun _ _ stopped => stopped.throw)
    fun _ => storeData_bails present

theorem Present.cached (h : Present cfg s.exec r) (same : Cached cfg s s') :
    Present cfg s'.exec r := by
  cases r with
  | ro _ _ | kcfg _ _ => exact fun none => h (same.init _ ▸ none)
  | _ => trivial

end Access

/-! Atomic accesses. -/

section Atomic
variable {cfg : Config} {it : Item} {exec : Exec} {ins : Insn} {i : Isa.Instr}
  {m : Isa.Machine} {size : Size} {srcv old : Term (.bv 64)} {regs : Regs} {p : Val}

/-- Where an instruction accesses memory, and how many bytes. -/
def accessOf (it : Item) : Isa.Instr → Option (Val × Nat)
  | .load n _ _ src off => some (addrAdd (it.regs src) off, n)
  | .store n dst off _ | .atomic n _ _ dst _ off | .xchg n dst _ off | .cmpxchg n dst _ off =>
    some (addrAdd (it.regs dst) off, n)
  | _ => none

/-- The access lies within its region, whose bytes are there. -/
def Within (cfg : Config) (L : Layout) (σ : Assignment) (it : Item) (exec : Exec)
    (i : Isa.Instr) : Prop :=
  ∀ v n, accessOf it i = some (v, n) → v.InBounds L σ n ∧ Present cfg exec v.target.1

/-- Provenance as the shadow has it: the bytes of the spilled pointers are those of their
addresses, all others are data. -/
def Track.live (mem : Mem) : Track where
  ptrBytes r := {o | ∃ e ∈ (mem.shadow r).entries, o ∈ window e.1 8}
  spills r := {a | ∃ p, (a, p) ∈ (mem.shadow r).entries}

/-- An atomic instruction bails, or leaves what the machine leaves on the same memory. -/
def AtomicSound (cfg : Config) (L : Layout) (σ : Assignment) (it : Item) (exec : Exec)
    (m : Isa.Machine) (ins : Insn) (i : Isa.Instr) (what : String) : Prop :=
  Bails (stepStore cfg it ins what) ⟨it.mem, it.counters, exec⟩ ∨
    ∃ out s', Returns (stepStore cfg it ins what) ⟨it.mem, it.counters, exec⟩ out s' ∧
      ∀ link, Follows cfg L σ (.live it.mem) it link m i out s'.exec

/-- A compare-and-exchange that gets as far as its comparison finds no pointer in r0. -/
def ExchangeFits (cfg : Config) (it : Item) (exec : Exec) : Isa.Instr → Prop
  | .cmpxchg n dst src off =>
    (it.regs src).isPtr = false →
      ReadsData cfg ⟨it.mem, it.counters, exec⟩ (addrAdd (it.regs dst) off) n →
      (it.regs 0).isPtr = false
  | _ => True

theorem cmpxchg_bails (data : (regs 0).isPtr = false) (present : Present cfg s.exec p.target.1) :
    OnlyRaises IsBail (cmpxchg cfg p size srcv old regs) s := by
  unfold cmpxchg
  cases r0 : regs 0 with
  | ptr q =>
    rw [r0] at data
    cases data
  | data t => exact (store_bails present).bind fun _ _ _ => .pure _

theorem cmpxchg_ptr (ptr : (regs 0).isPtr = true) :
    ∃ exn, Raises (cmpxchg cfg p size srcv old regs) s (.crash exn) := by
  unfold cmpxchg
  cases r0 : regs 0 with
  | ptr q => exact ⟨_, rfl⟩
  | data t =>
    rw [r0] at ptr
    cases ptr

/-- The words with an atomic meaning: an acquiring load, a releasing store, or a
read-modify-write of four or eight bytes. -/
inductive AtomicForm (ins : Insn) : Isa.Instr → Prop where
  | acquire : ins.imm = 0x100 →
      AtomicForm ins (.load (sizeOfOp ins.op).bytes false ins.dst ins.src ins.off)
  | release : ins.imm = 0x110 →
      AtomicForm ins (.store (sizeOfOp ins.op).bytes ins.dst ins.off (.reg ins.src))
  | xchg : sizeOfOp ins.op = .w ∨ sizeOfOp ins.op = .dw → ins.imm = 0xE1 →
      AtomicForm ins (.xchg (sizeOfOp ins.op).bytes ins.dst ins.src ins.off)
  | cmpxchg : sizeOfOp ins.op = .w ∨ sizeOfOp ins.op = .dw → ins.imm = 0xF1 →
      AtomicForm ins (.cmpxchg (sizeOfOp ins.op).bytes ins.dst ins.src ins.off)
  | atomic {o : Isa.AtomicOp} (op : BvOp) : sizeOfOp ins.op = .w ∨ sizeOfOp ins.op = .dw →
      ins.imm ≠ 0xE1 → ins.imm ≠ 0xF1 → ins.imm ≠ 0x100 → ins.imm ≠ 0x110 →
      atomicOp ins.imm = some op →
      AtomicForm ins (.atomic (sizeOfOp ins.op).bytes o (ins.imm % 2 = 1) ins.dst ins.src ins.off)

theorem atomicForm_of_decode (decoded : Isa.decodeAtomic ins.word = some i) :
    AtomicForm ins i := by
  simp only [Isa.decodeAtomic] at decoded
  rw [← sizeOfOp_bytes] at decoded
  split_ifs at decoded with acquire release sized exchange compare
  · cases decoded
    exact .acquire acquire
  · cases decoded
    exact .release release
  all_goals
    have narrow : sizeOfOp ins.op = .w ∨ sizeOfOp ins.op = .dw := by
      cases size : sizeOfOp ins.op <;> simp [size, Size.bytes] at sized ⊢
  · cases decoded
    exact .xchg narrow exchange
  · cases decoded
    exact .cmpxchg narrow compare
  · obtain ⟨o, found, rfl⟩ := Option.map_eq_some_iff.mp decoded
    obtain ⟨op, found', _⟩ := atomicOp_sound found
    exact .atomic op narrow exchange compare acquire release found'

/-- The read-modify-write forms read the data first and differ in what they store. -/
theorem atomic_modify (narrow : sizeOfOp ins.op = .w ∨ sizeOfOp ins.op = .dw)
    (acquire : ins.imm ≠ 0x100) (release : ins.imm ≠ 0x110) :
    atomic cfg ins regs what = (do
      let srcv ← needData (regs ins.src) what
      let old ← needData (← load cfg (addrAdd (regs ins.dst) ins.off) (sizeOfOp ins.op)) what
      if ins.imm = 0xF1 then
        cmpxchg cfg (addrAdd (regs ins.dst) ins.off) (sizeOfOp ins.op) srcv old regs
      else if ins.imm = 0xE1 then
        store cfg (addrAdd (regs ins.dst) ins.off) (sizeOfOp ins.op) (.data srcv)
        pure (regs.set ins.src (.data old))
      else
        match atomicOp ins.imm with
        | none => bail s!"atomic imm {pyHex ins.imm} in {what}"
        | some op =>
          store cfg (addrAdd (regs ins.dst) ins.off) (sizeOfOp ins.op) (.data (.bin op old srcv))
          pure (if ins.imm % 2 = 1 then regs.set ins.src (.data old) else regs)) := by
  have sized : ¬ (sizeOfOp ins.op ≠ .w ∧ sizeOfOp ins.op ≠ .dw) :=
    fun other => narrow.elim other.1 other.2
  unfold atomic
  exact (if_neg acquire).trans ((if_neg release).trans (if_neg sized))

theorem modify_bails {rest : Term (.bv 64) → Term (.bv 64) → M Regs} {src dst : Val}
    (present : Present cfg s.exec dst.target.1)
    (each : ∀ srcv old s', src = .data srcv → Returns (load cfg dst size) s (.data old) s' →
      OnlyRaises IsBail (rest srcv old) s') :
    OnlyRaises IsBail (do
      let srcv ← needData src what
      let old ← needData (← load cfg dst size) what
      rest srcv old) s := by
  refine (needData_bails src).bind fun srcv _ data => ?_
  obtain ⟨source, rfl⟩ := needData_returns data
  refine (load_bails present).bind fun v s' loaded => ?_
  refine (needData_bails v).bind fun old _ data => ?_
  obtain ⟨rfl, rfl⟩ := needData_returns data
  exact each srcv old s' source loaded

theorem atomic_bails (form : AtomicForm ins i)
    (present : ∀ {v n}, accessOf it i = some (v, n) → Present cfg exec v.target.1)
    (fits : ExchangeFits cfg it exec i) :
    OnlyRaises IsBail (atomic cfg ins it.regs what) ⟨it.mem, it.counters, exec⟩ := by
  cases form with
  | acquire acquire =>
    rw [atomic, if_pos acquire]
    exact (load_bails (present rfl)).bind fun _ _ _ => .pure _
  | release release =>
    rw [atomic, if_neg (by rw [release]; decide), if_pos release]
    refine (needData_bails _).bind fun t _ data => ?_
    obtain ⟨_, rfl⟩ := needData_returns data
    exact (store_bails (present rfl)).bind fun _ _ _ => .pure _
  | xchg narrow exchange =>
    rw [atomic_modify narrow (by rw [exchange]; decide) (by rw [exchange]; decide)]
    refine modify_bails (present rfl) fun srcv old s' _ loaded => ?_
    rw [if_neg (by rw [exchange]; decide), if_pos exchange]
    exact (store_bails ((present rfl).cached (load_cases loaded).1)).bind fun _ _ _ => .pure _
  | cmpxchg narrow compare =>
    rw [atomic_modify narrow (by rw [compare]; decide) (by rw [compare]; decide)]
    refine modify_bails (present rfl) fun srcv old s' source loaded => ?_
    rw [if_pos compare]
    have data := fits (by rw [source]; rfl) (readsData_of_load loaded)
    exact cmpxchg_bails data ((present rfl).cached (load_cases loaded).1)
  | atomic op narrow exchange compare acquire release found =>
    rw [atomic_modify narrow acquire release]
    refine modify_bails (present rfl) fun srcv old s' _ loaded => ?_
    rw [if_neg compare, if_neg exchange, found]
    exact (store_bails ((present rfl).cached (load_cases loaded).1)).bind fun _ _ _ => .pure _

theorem readable_of_load {v : Val} (rep : Represents cfg L σ (.live s.mem) s m.mem)
    (h : Returns (load cfg p size) s v s') (inb : p.InBounds L σ size.bytes) :
    p.Readable σ (.live s.mem) size.bytes := by
  obtain ⟨_, _, result⟩ := load_cases h
  cases v with
  | ptr q =>
    obtain ⟨rfl, a, const, member⟩ := result
    refine .inl ⟨rfl, q, ?_⟩
    rwa [cfg.z3.constOf_eval const σ]
  | data t =>
    obtain ⟨_, _, _, clear⟩ := result
    refine .inr fun k hk ⟨e, member, inside⟩ => clear σ e member ?_
    rw [overlaps_iff inb.1 (rep.spilled _ e member).1.1 size.bytes_pos]
    exact ⟨_, add_mem_window _ hk (by have := inb.1; omega), inside⟩

theorem modify_returns {rest : Term (.bv 64) → Term (.bv 64) → M Regs} {src dst : Val}
    (h : Returns (do
      let srcv ← needData src what
      let old ← needData (← load cfg dst size) what
      rest srcv old) s regs s') :
    ∃ old s₁, Returns (load cfg dst size) s (.data old) s₁ := by
  obtain ⟨_, _, data, h⟩ := h.bind
  obtain ⟨_, rfl⟩ := needData_returns data
  obtain ⟨v, s₁, loaded, h⟩ := h.bind
  obtain ⟨old, _, data, _⟩ := h.bind
  obtain ⟨rfl, _⟩ := needData_returns data
  exact ⟨old, s₁, loaded⟩

/-- An atomic instruction that returns has read what the shadow lets it read. -/
theorem faithful_of_atomic (agree : Agrees cfg L σ (.live it.mem) it exec m)
    (form : AtomicForm ins i) (inb : ∀ {v n}, accessOf it i = some (v, n) → v.InBounds L σ n)
    (done : Returns (atomic cfg ins it.regs what) ⟨it.mem, it.counters, exec⟩ regs s) :
    Faithful cfg L σ (.live it.mem) it i := by
  cases form with
  | acquire acquire =>
    rw [atomic, if_pos acquire] at done
    obtain ⟨_, _, loaded, _⟩ := done.bind
    exact ⟨inb rfl, readable_of_load agree.mem loaded (inb rfl)⟩
  | release _ => exact inb rfl
  | xchg narrow exchange =>
    rw [atomic_modify narrow (by rw [exchange]; decide) (by rw [exchange]; decide)] at done
    obtain ⟨_, _, loaded⟩ := modify_returns done
    exact ⟨inb rfl, readable_of_load agree.mem loaded (inb rfl)⟩
  | cmpxchg narrow compare =>
    rw [atomic_modify narrow (by rw [compare]; decide) (by rw [compare]; decide)] at done
    obtain ⟨_, _, loaded⟩ := modify_returns done
    exact ⟨inb rfl, readable_of_load agree.mem loaded (inb rfl)⟩
  | atomic op narrow exchange compare acquire release found =>
    rw [atomic_modify narrow acquire release] at done
    obtain ⟨_, _, loaded⟩ := modify_returns done
    exact ⟨inb rfl, readable_of_load agree.mem loaded (inb rfl)⟩

theorem stepStore_atomic (mode : ins.op / 32 = 6) (cls : ins.op % 8 = 3) :
    stepStore cfg it ins what = atomic cfg ins it.regs what >>= goOn it (it.pc + 1) := by
  simp only [stepStore, mode, cls, if_true, ne_eq, not_true_eq_false, if_false]

/-- The Python exception that ends a compare-and-exchange with a pointer in r0. -/
theorem atomic_crashes {n dst src : Nat} {off : Int}
    (form : AtomicForm ins (.cmpxchg n dst src off)) (data : (it.regs src).isPtr = false)
    (reads : ReadsData cfg s (addrAdd (it.regs dst) off) n) (ptr : (it.regs 0).isPtr = true) :
    ∃ exn, Raises (atomic cfg ins it.regs what) s (.crash exn) := by
  cases form with
  | cmpxchg narrow compare =>
    obtain ⟨old, s₁, loaded⟩ := reads.load
    obtain ⟨srcv, source⟩ : ∃ srcv, it.regs ins.src = .data srcv := by
      cases value : it.regs ins.src with
      | data t => exact ⟨t, rfl⟩
      | ptr q =>
        rw [value] at data
        cases data
    obtain ⟨exn, raised⟩ := @cmpxchg_ptr s₁ cfg (sizeOfOp ins.op) srcv old it.regs
      (addrAdd (it.regs ins.dst) ins.off) ptr
    refine ⟨exn, ?_⟩
    have first : Returns (needData (it.regs ins.src) what) s srcv s := by rw [source]; rfl
    have second : Returns (needData (.data old) what) s₁ old s₁ := rfl
    rw [atomic_modify narrow (by rw [compare]; decide) (by rw [compare]; decide),
      first.raises_bind, loaded.raises_bind, second.raises_bind, if_pos compare]
    exact raised

/-- Within its region an atomic instruction is sound exactly if no pointer in r0 meets the
comparison of an exchange. -/
theorem atomicSound_iff (agree : Agrees cfg L σ (.live it.mem) it exec m)
    (mode : ins.op / 32 = 6) (cls : ins.op % 8 = 3)
    (decoded : Isa.decodeAtomic ins.word = some i) (within : Within cfg L σ it exec i) :
    AtomicSound cfg L σ it exec m ins i what ↔ ExchangeFits cfg it exec i := by
  have form := atomicForm_of_decode decoded
  rw [AtomicSound, stepStore_atomic mode cls]
  constructor
  · intro sound
    cases i with
    | cmpxchg n dst src off =>
      intro data reads
      by_contra ptr
      rw [Bool.not_eq_false] at ptr
      obtain ⟨exn, crashed⟩ : ∃ exn, Raises (atomic cfg ins it.regs what)
          ⟨it.mem, it.counters, exec⟩ (.crash exn) := atomic_crashes form data reads ptr
      rcases sound with ⟨msg, bailed⟩ | ⟨_, _, returned, _⟩
      · cases crashed.bind.unique bailed
      · exact crashed.bind.not_returns returned
    | _ => trivial
  · intro fits
    have only : OnlyRaises IsBail (atomic cfg ins it.regs what >>= goOn it (it.pc + 1))
        ⟨it.mem, it.counters, exec⟩ :=
      (atomic_bails form (fun here => (within _ _ here).2) fits).bind fun _ _ _ =>
        .of_returns rfl
    refine (OnlyBails.cases only).imp_right fun ⟨out, s', returned⟩ => ?_
    refine ⟨out, s', returned, fun link => ?_⟩
    obtain ⟨regs, s₁, done, left⟩ := returned.bind
    have faithful := faithful_of_atomic agree form (fun here => (within _ _ here).1) done
    exact atomic_follows agree decoded faithful done left

end Atomic

/-! All instructions. -/

theorem stepEndian_ptr {it : Item} {ins : Insn} (ptr : (it.regs ins.dst).isPtr = true) :
    Bails (stepEndian it ins what) s := by
  cases value : it.regs ins.dst with
  | data t =>
    rw [value] at ptr
    cases ptr
  | ptr p =>
    simp only [stepEndian, value]
    exact (needData_ptr p).bind

/-- Which instructions bail on pointers or treat them as the machine treats their addresses.
Arithmetic and comparisons are told by their codes, for every proper layout and all operands;
an order of pointers, or an equality with a scalar, is also right where its operands are
comparable; and an atomic access within its region is told by its state. -/
theorem pointer_operators_sound_iff (cfg : Config) :
    (∀ code wide off, AluSound code wide off ↔ ¬ SignExtends code wide off) ∧
    (∀ code c wide, Isa.condOf code = some c →
      (PtrPtrSound code wide c ↔ c = .eq ∨ c = .ne) ∧
      (PtrDataSound code wide c ↔ c ≠ .eq ∧ c ≠ .ne) ∧
      (∀ a p what s, Bails (cond code (!wide) (.data a) (.ptr p) what) s) ∧
      ∀ L σ dst src what s, Comparable L σ wide c dst src →
        CondSound L σ code wide c dst src what s) ∧
    (∀ (it : Item) (ins : Insn) (what : String) (s : St),
      (it.regs ins.dst).isPtr = true → Bails (stepEndian it ins what) s) ∧
    ∀ (L : Layout) (σ : Assignment) (it : Item) (exec : Exec) (m : Isa.Machine) (ins : Insn)
      (i : Isa.Instr) (what : String), Agrees cfg L σ (.live it.mem) it exec m →
      ins.op / 32 = 6 → ins.op % 8 = 3 → Isa.decodeAtomic ins.word = some i →
      Within cfg L σ it exec i →
      (AtomicSound cfg L σ it exec m ins i what ↔ ExchangeFits cfg it exec i) := by
  refine ⟨aluSound_iff, fun code c wide hc => ⟨ptrPtrSound_iff hc wide, ptrDataSound_iff hc wide,
    fun a p what s => ⟨_, rfl⟩, fun L σ dst src what s => condSound_of_comparable hc⟩,
    fun it ins what s => stepEndian_ptr, ?_⟩
  intro L σ it exec m ins i what agree mode cls decoded within
  exact atomicSound_iff agree mode cls decoded within

/-- A path with the stack in r1, data in r2 and the given value in r0. -/
def exchangeItem (r0 : Val) : Item :=
  { initItem (plainConfig "sk" []) 0 false with
    regs r := if r = 1 then stackPtr 504 else if r = 0 then r0 else .data (bv64 5) }

def exchangeInsn (aop : Int) : Insn := (word 0xdb 1 2 0 aop).insn none

def exchangeMachine (r0 : Val) : Isa.Machine where
  loc := ⟨(exchangeItem r0).sec, (exchangeItem r0).pc⟩
  regs r := ((exchangeItem r0).regs r).conc twoBlocks zeroAssignment
  mem _ := 0
  callers := []

theorem exchangeItem_agrees (r0 : Val) :
    Agrees (plainConfig "sk" []) twoBlocks zeroAssignment (.live (exchangeItem r0).mem)
      (exchangeItem r0) baseExec (exchangeMachine r0) := by
  have clean : Track.live (exchangeItem r0).mem = .empty := by
    simp [Track.live, Track.empty, exchangeItem, initItem, Mem.empty, Shadow.empty]
  refine ⟨rfl, fun r => rfl, ?_, .nil⟩
  rw [clean]
  exact .fresh rfl fun _ _ _ => twoBlocks_init

theorem exchangeItem_within (r0 : Val) :
    Within (plainConfig "sk" []) twoBlocks zeroAssignment (exchangeItem r0) baseExec
      (.cmpxchg 8 1 2 0) := by
  rintro _ _ ⟨⟩
  refine ⟨?_, trivial⟩
  have slot : (bv64 504 + bv64 0).eval zeroAssignment =
      (stackPtr 504).target.2.eval zeroAssignment := by decide
  change InBounds twoBlocks stackA ((bv64 504 + bv64 0).eval zeroAssignment) 8
  rw [slot]
  exact stackPtr_inBounds (by decide)

/-- The same compare-and-exchange of a stack slot is sound with data in r0 and not with a
pointer there. -/
theorem pointer_operators_sound_exchange :
    AtomicSound (plainConfig "sk" []) twoBlocks zeroAssignment (exchangeItem (.data (bv64 0)))
      baseExec (exchangeMachine (.data (bv64 0))) (exchangeInsn 0xF1) (.cmpxchg 8 1 2 0) "" ∧
    ¬ AtomicSound (plainConfig "sk" []) twoBlocks zeroAssignment (exchangeItem ctxPtr)
      baseExec (exchangeMachine ctxPtr) (exchangeInsn 0xF1) (.cmpxchg 8 1 2 0) "" := by
  have exact (r0 : Val) := (pointer_operators_sound_iff (plainConfig "sk" [])).2.2.2 twoBlocks
    zeroAssignment (exchangeItem r0) baseExec (exchangeMachine r0) (exchangeInsn 0xF1)
    (.cmpxchg 8 1 2 0) "" (exchangeItem_agrees r0) rfl rfl rfl (exchangeItem_within r0)
  refine ⟨(exact _).mpr fun _ _ => rfl, fun sound => ?_⟩
  have reads : ReadsData (plainConfig "sk" [])
      ⟨(exchangeItem ctxPtr).mem, (exchangeItem ctxPtr).counters, baseExec⟩
      (addrAdd (stackPtr 504) 0) 8 :=
    ⟨rfl, .inl rfl, Option.some_ne_none _⟩
  cases (exact ctxPtr).mp sound rfl reads

/-- The context placed far up: its sign-extended low byte is NULL but the executor keeps the
pointer; a pointer before the start of the region is above its start by offset and below it
by address; a pointer that equals a scalar is said not to; and a compare-and-exchange with a
pointer in r0 ends in a Python exception. -/
theorem pointer_operators_unsound :
    farLayout.Proper ∧
    (alu 11 true (.data (bv64 0)) (.ptr ⟨.ctx, bv64 0⟩) 8 "").run emptySt =
      .ok (.ptr ⟨.ctx, bv64 0⟩, emptySt) ∧
    (Val.ptr ⟨.ctx, bv64 0⟩).conc farLayout default ≠
      Isa.extendSign 8 ((Val.ptr ⟨.ctx, bv64 0⟩).conc farLayout default) ∧
    (∃ r, (cond 2 false (.ptr ⟨.ctx, .bvVal 0⟩) (.ptr ⟨.ctx, .bvVal (-farBase)⟩) "").run emptySt =
        .ok (r, emptySt) ∧ r.eval default = false) ∧
    Isa.condOn true .gt ((Val.ptr ⟨.ctx, .bvVal 0⟩).conc farLayout default)
      ((Val.ptr ⟨.ctx, .bvVal (-farBase)⟩).conc farLayout default) = true ∧
    (cond 1 false (.ptr ⟨.ctx, bv64 0⟩) (.data (.bvVal farBase)) "").run emptySt =
      .ok (.boolVal false, emptySt) ∧
    (Val.ptr ⟨.ctx, bv64 0⟩).conc farLayout default = farBase ∧
    (stepStore (plainConfig "sk" []) (exchangeItem ctxPtr) (exchangeInsn 0xF1) "").run
        ⟨(exchangeItem ctxPtr).mem, (exchangeItem ctxPtr).counters, baseExec⟩ =
      .error (.crash "z3.z3types.Z3Exception: Symbolic expressions expected") := by
  exact ⟨farLayout_proper, rfl, by decide, ⟨_, rfl, by decide⟩, by decide, rfl, by decide, rfl⟩

end BpfEquiv
