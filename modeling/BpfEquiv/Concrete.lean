import BpfEquiv.Flat
import BpfEquiv.MemorySpec

/-!
Concrete meaning of the symbolic memory.

A layout places the regions in a flat address space without overlap. A symbolic
state represents a flat memory when every byte last written as data has the value
of its array term, and every spilled pointer lies in memory as its concrete
address. Which bytes were last written by a pointer store, and where a pointer
store is still intact, is tracked beside the state: these are facts about the
operations, not about the model.
-/
namespace BpfEquiv
open Smt Hoare List Function BitVec

variable {n : Nat} {r region : Region} {o a : BitVec 64} {b : Nat → BitVec 8} {isPtr : Bool}
  {u : Unit}

/-- Base address and valid offsets of every region. -/
structure Layout where
  base : Region → BitVec 64
  dom : Region → Set (BitVec 64)
  kmem : base .kmem = 0
  apart : ∀ {r r' : Region} {o o' : BitVec 64}, o ∈ dom r → o' ∈ dom r' →
    base r + o = base r' + o' → r = r'

def Ptr.addr (L : Layout) (σ : Assignment) (p : Ptr) : BitVec 64 :=
  L.base p.region + p.off.eval σ

def Val.conc (L : Layout) (σ : Assignment) : Val → BitVec 64
  | .data t => t.eval σ
  | .ptr p => p.addr L σ

/-- A window of a region that does not wrap and lies within the region. -/
def InBounds (L : Layout) (r : Region) (a : BitVec 64) (n : Nat) : Prop :=
  a.toNat + n ≤ 2 ^ 64 ∧ ∀ k < n, a + BitVec.ofNat 64 k ∈ L.dom r

def window (a : BitVec 64) (n : Nat) : Set (BitVec 64) := {o | (o - a).toNat < n}

/-! Terms. -/

theorem eval_bv64 (σ : Assignment) (k : Nat) :
    (bv64 (k : Int)).eval σ = BitVec.ofNat 64 k := by
  simp [bv64, Term.eval]

/-- The stores of bytes from a place on, over an array that is zero there. -/
theorem eval_storeConsts (σ : Assignment) (bs : List Byte) {keep : Bool} {start : Nat}
    {arr : Term .arr} (fits : start + bs.length ≤ 2 ^ 64)
    (zero : ∀ a : BitVec 64, start ≤ a.toNat → arr.eval σ a = (0 : BitVec 8)) (a : BitVec 64) :
    (storeConsts keep start bs arr).eval σ a =
      if start ≤ a.toNat then bs.getD (a.toNat - start) 0 else arr.eval σ a := by
  induction bs generalizing start arr with
  | nil =>
    rw [storeConsts]
    split
    · next inside => exact zero a inside
    · rfl
  | cons b bs ih =>
    rw [length_cons] at fits
    have place : (BitVec.ofInt 64 (start : Int)).toNat = start := by
      rw [BitVec.ofInt_natCast, BitVec.toNat_ofNat]
      exact Nat.mod_eq_of_lt (by omega)
    -- the array after the first byte, read at an address
    have first (c : BitVec 64) :
        (if b = 0 ∧ keep = false then arr else .store arr (bv64 start) (.bvVal b)).eval σ c =
          if c.toNat = start then b else arr.eval σ c := by
      by_cases blank : b = 0 ∧ keep = false
      · rw [if_pos blank]
        split
        · next here => rw [zero c (Nat.le_of_eq here.symm), blank.1]
        · rfl
      rw [if_neg blank]
      have same : c = BitVec.ofInt 64 (start : Int) ↔ c.toNat = start := by
        rw [← BitVec.toNat_inj, place]
      simp only [Term.eval, bv64, same]
    rw [storeConsts, ih (by omega) fun c later => by
      rw [first, if_neg (by omega), zero c (by omega)]]
    by_cases here : a.toNat = start
    · rw [if_neg (by omega), first, if_pos here, if_pos (by omega), here, Nat.sub_self]
      rfl
    rw [first, if_neg here]
    by_cases later : start + 1 ≤ a.toNat
    · rw [if_pos later, if_pos (by omega),
        show a.toNat - start = a.toNat - (start + 1) + 1 by omega]
      rfl
    · rw [if_neg later, if_neg (by omega)]

theorem eval_constBytes (σ : Assignment) {keep : Bool} {data : List Byte}
    (fits : data.length ≤ 2 ^ 64) (a : BitVec 64) :
    (storeConsts keep 0 data zeroArr).eval σ a = data.getD a.toNat 0 := by
  rw [eval_storeConsts σ data (by omega) (fun _ _ => rfl), if_pos (Nat.zero_le _), Nat.sub_zero]

theorem eval_byteOf (σ : Assignment) (t : Term (.bv 64)) (k : Nat) :
    (byteOf t k).eval σ = Flat.bytesOf (t.eval σ) k := rfl

theorem eval_target (L : Layout) (σ : Assignment) (v : Val) :
    L.base v.target.1 + v.target.2.eval σ = v.conc L σ := by
  cases v with
  | data t => simp [Val.target, Val.conc, L.kmem]
  | ptr p => rfl

theorem conc_addrAdd (L : Layout) (σ : Assignment) (v : Val) (k : Int) :
    (addrAdd v k).conc L σ = v.conc L σ + BitVec.ofInt 64 k := by
  cases v with
  | data t => rfl
  | ptr p =>
    change L.base p.region + (p.off.eval σ + BitVec.ofInt 64 k) = _
    rw [← add_assoc]
    rfl

theorem addrAdd_region (v : Val) (k : Int) : (addrAdd v k).target.1 = v.target.1 := by
  cases v <;> rfl

theorem addrAdd_off (σ : Assignment) (v : Val) (k : Nat) :
    (addrAdd v k).target.2.eval σ = v.target.2.eval σ + BitVec.ofNat 64 k := by
  rw [← eval_bv64 σ k]
  cases v <;> rfl

theorem eval_loadTerm (σ : Assignment) (arr : Term .arr) (addr : Term (.bv 64)) (size : Size) :
    (loadTerm arr addr size).eval σ = Flat.read (arr.eval σ) (addr.eval σ) size.bytes := by
  apply eq_of_toNat_eq
  have bound (k : Nat) := (arr.eval σ (addr.eval σ + BitVec.ofNat 64 k)).isLt
  have b0 := bound 0
  have b1 := bound 1
  have b2 := bound 2
  have b3 := bound 3
  cases size <;>
    simp only [loadTerm, Term.eval, BvOp.eval, eval_bv64, Flat.read, Flat.value, Flat.leNat,
      Size.bytes, toNat_setWidth, toNat_cast, Flat.toNat_append,
      toNat_ofNat]
  case b => omega
  all_goals simp only [Nat.reduceAdd]
  case dw =>
    have b4 := bound 4
    have b5 := bound 5
    have b6 := bound 6
    have b7 := bound 7
    omega
  all_goals omega

theorem eval_storeBytes (σ : Assignment) (arr : Term .arr) (addr : Term (.bv 64))
    (byte : Nat → Term (.bv 8)) (hn : n ≤ 2 ^ 64) :
    (storeBytes arr addr byte n).eval σ =
      Flat.write (arr.eval σ) (addr.eval σ) n fun k => (byte k).eval σ := by
  induction n with
  | zero => rw [Flat.write_zero]; rfl
  | succ n ih =>
    rw [Flat.write_succ _ _ _ (by omega), ← ih (by omega)]
    simp only [storeBytes, Term.eval, BvOp.eval, eval_bv64]

/-! Windows. -/

variable {L : Layout} {σ : Assignment}

/-- Addresses of in-bounds bytes agree only for the same byte of the same region. -/
theorem Layout.addr_inj {r' : Region} {o' : BitVec 64} (ho : o ∈ L.dom r)
    (ho' : o' ∈ L.dom r') (h : L.base r + o = L.base r' + o') : r = r' ∧ o = o' := by
  have same := L.apart ho ho' h
  subst same
  exact ⟨rfl, add_left_cancel h⟩

theorem mem_window (hn : a.toNat + n ≤ 2 ^ 64) :
    o ∈ window a n ↔ a.toNat ≤ o.toNat ∧ o.toNat < a.toNat + n := by
  have bound := o.isLt
  have bound' := a.isLt
  change (o - a).toNat < n ↔ _
  rw [toNat_sub]
  omega

theorem exists_offset (h : o ∈ window a n) :
    ∃ k < n, o = a + BitVec.ofNat 64 k := by
  refine ⟨(o - a).toNat, h, ?_⟩
  rw [ofNat_toNat, setWidth_eq, add_comm, sub_add_cancel]

theorem add_mem_window (a : BitVec 64) {k : Nat} (hk : k < n) (hn : n ≤ 2 ^ 64) :
    a + BitVec.ofNat 64 k ∈ window a n := by
  change (a + BitVec.ofNat 64 k - a).toNat < n
  rw [Flat.sub_add_ofNat a (by omega)]
  exact hk

theorem write_window {r' : Region} {m : Flat.Memory} (inb : InBounds L r a n) (ho : o ∈ L.dom r')
    (away : r' ≠ r ∨ o ∉ window a n) :
    Flat.write m (L.base r + a) n b (L.base r' + o) = m (L.base r' + o) := by
  refine Flat.write_out fun inside => ?_
  have inside' : L.base r' + o ∈ window (L.base r + a) n := inside
  obtain ⟨k, hk, same⟩ := exists_offset inside'
  rw [add_assoc] at same
  obtain ⟨rfl, rfl⟩ := L.addr_inj ho (inb.2 k hk) same
  exact away.elim (fun other => other rfl) fun out =>
    out (add_mem_window a hk (by have := inb.1; omega))

/-! Representation. -/

/-- Provenance of the bytes of every region. -/
structure Track where
  /-- Bytes whose last store was a store of a pointer, whole or narrowed. -/
  ptrBytes : Region → Set (BitVec 64)
  /-- Where an 8-byte pointer store has not been touched since. -/
  spills : Region → Set (BitVec 64)

def Track.empty : Track := ⟨fun _ => ∅, fun _ => ∅⟩

def Track.store (t : Track) (r : Region) (a : BitVec 64) (n : Nat) (isPtr : Bool) : Track where
  ptrBytes := update t.ptrBytes r
    (if isPtr then t.ptrBytes r ∪ window a n else t.ptrBytes r \ window a n)
  spills := update t.spills r
    ({o ∈ t.spills r | ¬ Overlaps o a n} ∪ (if isPtr ∧ n = 8 then {a} else ∅))

/-- A read takes back one whole pointer, or only bytes last written as data. -/
def Track.Readable (t : Track) (r : Region) (a : BitVec 64) (n : Nat) : Prop :=
  (n = 8 ∧ a ∈ t.spills r) ∨ ∀ k < n, a + BitVec.ofNat 64 k ∉ t.ptrBytes r

/-- A symbolic state stands for a flat memory. -/
structure Represents (cfg : Config) (L : Layout) (σ : Assignment) (t : Track) (s : St)
    (m : Flat.Memory) : Prop where
  /-- A byte last written as data is not shadowed and has its array value. -/
  data : ∀ r o, o ∈ L.dom r → o ∉ t.ptrBytes r →
    (∀ e ∈ (s.mem.shadow r).entries, o ∉ window e.1 8) ∧
      ∀ arr, curArr cfg s r = some arr → m (L.base r + o) = arr.eval σ o
  /-- A spilled pointer lies in memory as its address. -/
  spilled : ∀ r e, e ∈ (s.mem.shadow r).entries →
    InBounds L r e.1 8 ∧ ∀ k < 8,
      m (L.base r + (e.1 + BitVec.ofNat 64 k)) = Flat.bytesOf (e.2.addr L σ) k
  /-- The shadow holds exactly the untouched pointer stores. -/
  intact : ∀ r a, a ∈ t.spills r ↔ ∃ p, (a, p) ∈ (s.mem.shadow r).entries

variable {cfg : Config} {t : Track} {s s' : St} {m : Flat.Memory}

theorem Represents.cached (h : Represents cfg L σ t s m) (same : Cached cfg s s') :
    Represents cfg L σ t s' m where
  data r o ho clean := by
    rw [same.shadow]
    simp only [same.arrs]
    exact h.data r o ho clean
  spilled r e member := by
    rw [same.shadow] at member
    exact h.spilled r e member
  intact r a := by
    rw [same.shadow]
    exact h.intact r a

/-- A path that has not touched memory represents any memory that holds the initial
arrays. -/
theorem Represents.fresh (fresh : s.mem = .empty)
    (init : ∀ r o arr, o ∈ L.dom r → initTerm cfg s.exec r = some arr →
      m (L.base r + o) = arr.eval σ o) : Represents cfg L σ .empty s m := by
  refine ⟨fun r o ho _ => ⟨fun e member => ?_, fun arr found => ?_⟩, fun r e member => ?_,
    fun r a => ⟨nofun, fun ⟨p, member⟩ => ?_⟩⟩
  · rw [fresh] at member
    cases member
  · simp only [curArr, fresh, Mem.empty] at found
    exact init r o arr ho found
  · rw [fresh] at member
    cases member
  · rw [fresh] at member
    cases member

theorem overlaps_iff (hn : a.toNat + n ≤ 2 ^ 64)
    (ho : o.toNat + 8 ≤ 2 ^ 64) (pos : 0 < n) :
    Overlaps o a n ↔ ∃ x, x ∈ window a n ∧ x ∈ window o 8 := by
  simp only [mem_window hn, mem_window ho, Overlaps]
  constructor
  · intro h
    refine ⟨BitVec.ofNat 64 (max a.toNat o.toNat), ?_⟩
    have := a.isLt
    have := o.isLt
    rw [toNat_ofNat, Nat.mod_eq_of_lt (by omega)]
    omega
  · rintro ⟨x, hx, hx'⟩
    omega

/-! Loads. -/

theorem load_sound {ptr v : Val} {size : Size} (rep : Represents cfg L σ t s m)
    (h : Returns (load cfg ptr size) s v s')
    (inb : InBounds L ptr.target.1 (ptr.target.2.eval σ) size.bytes)
    (readable : t.Readable ptr.target.1 (ptr.target.2.eval σ) size.bytes) :
    v.conc L σ = Flat.read m (ptr.conc L σ) size.bytes ∧ Cached cfg s s' := by
  obtain ⟨cached, _, result⟩ := load_cases h
  refine ⟨?_, cached⟩
  rw [← eval_target L σ ptr]
  cases v with
  | ptr p =>
    obtain ⟨wide, a, const, member⟩ := result
    have here := cfg.z3.constOf_eval const σ
    have bytes := (rep.spilled _ _ member).2
    subst wide
    rw [here]
    change p.addr L σ = Flat.value 8 _
    rw [← Flat.value_bytesOf (p.addr L σ)]
    refine Flat.value_congr fun k hk => ?_
    rw [add_assoc]
    exact (bytes k hk).symm
  | data _ =>
    obtain ⟨arr, here, rfl, clear⟩ := result
    change (loadTerm arr _ size).eval σ = _
    rw [eval_loadTerm]
    refine Flat.value_congr fun k hk => ?_
    rw [add_assoc]
    -- an intact pointer at this address would have been reloaded
    have clean : ∀ k < size.bytes,
        ptr.target.2.eval σ + BitVec.ofNat 64 k ∉ t.ptrBytes ptr.target.1 := by
      rcases readable with ⟨wide, intact⟩ | clean
      · obtain ⟨p, member⟩ := (rep.intact _ _).mp intact
        refine absurd ?_ (clear σ _ member)
        simp only [Overlaps, wide]
        omega
      · exact clean
    exact ((rep.data _ _ (inb.2 k hk) (clean k hk)).2 arr here).symm

/-! Stores. -/

theorem mem_clear {sh : Shadow} {e : BitVec 64 × Ptr} :
    e ∈ sh.clear a n ↔ e ∈ sh.entries ∧ ¬ Overlaps e.1 a n := by
  simp [Shadow.clear]

/-- Spilled pointers that keep clear of a window survive a store into it. -/
theorem Represents.spilled_write (rep : Represents cfg L σ t s m) {e : BitVec 64 × Ptr}
    (inb : InBounds L region a n) (pos : 0 < n) (member : e ∈ (s.mem.shadow r).entries)
    (away : r ≠ region ∨ ¬ Overlaps e.1 a n) :
    InBounds L r e.1 8 ∧ ∀ k < 8, Flat.write m (L.base region + a) n b
      (L.base r + (e.1 + BitVec.ofNat 64 k)) = Flat.bytesOf (e.2.addr L σ) k := by
  obtain ⟨inbE, bytes⟩ := rep.spilled r e member
  refine ⟨inbE, fun k hk => ?_⟩
  rw [write_window inb (inbE.2 k hk), bytes k hk]
  refine away.imp_right fun apart inside => apart ?_
  rw [overlaps_iff inb.1 inbE.1 pos]
  exact ⟨_, inside, add_mem_window e.1 hk (by omega)⟩

theorem Track.clean_store
    (clean : o ∉ (t.store region a n isPtr).ptrBytes region) :
    (o ∈ window a n ∧ isPtr = false) ∨ (o ∉ window a n ∧ o ∉ t.ptrBytes region) := by
  simp only [Track.store, update_self] at clean
  cases isPtr with
  | true => exact .inr ⟨fun inside => clean (.inr inside), fun old => clean (.inl old)⟩
  | false =>
    by_cases inside : o ∈ window a n
    · exact .inl ⟨inside, rfl⟩
    · exact .inr ⟨inside, fun old => clean ⟨old, inside⟩⟩

theorem Track.mem_spills_store :
    o ∈ (t.store region a n isPtr).spills region ↔
      (o ∈ t.spills region ∧ ¬ Overlaps o a n) ∨ ((isPtr = true ∧ n = 8) ∧ o = a) := by
  simp only [Track.store, update_self]
  refine or_congr Iff.rfl ?_
  split
  · next whole => exact ⟨fun same => ⟨whole, same⟩, fun h => h.2⟩
  · next part => exact ⟨fun none => none.elim, fun h => part h.1⟩

theorem Track.store_other
    (other : r ≠ region) :
    (t.store region a n isPtr).ptrBytes r = t.ptrBytes r ∧
      (t.store region a n isPtr).spills r = t.spills r :=
  ⟨update_of_ne other _ _, update_of_ne other _ _⟩

theorem write_array {k : Nat} {c : Nat → BitVec 8}
    {f : Flat.Memory} (hk : k < n) (hn : n ≤ 2 ^ 64) (same : b k = c k) :
    Flat.write m (L.base r + a) n b (L.base r + (a + BitVec.ofNat 64 k)) =
      Flat.write f a n c (a + BitVec.ofNat 64 k) := by
  rw [← add_assoc, Flat.write_in hk hn, Flat.write_in hk hn, same]

/-- A store of data, or of part of a pointer when isPtr is set: then nothing is known
of the bytes it leaves in the array. -/
theorem storeData_sound {addr : Term (.bv 64)}
    {byte : Nat → Term (.bv 8)} (isPtr : Bool) (b : Nat → BitVec 8)
    (rep : Represents cfg L σ t s m) (h : Returns (storeData cfg region addr n byte) s u s')
    (inb : InBounds L region (addr.eval σ) n) (pos : 0 < n)
    (bytes : isPtr = false → ∀ k < n, (byte k).eval σ = b k) (part : isPtr = true → n ≠ 8) :
    Represents cfg L σ (t.store region (addr.eval σ) n isPtr) s'
      (Flat.write m (L.base region + addr.eval σ) n b) := by
  obtain ⟨stored, ⟨arr, here, here'⟩, entries⟩ := storeData_stored h
  have hn : n ≤ 2 ^ 64 := by have := inb.1; omega
  refine ⟨fun r o ho clean => ?_, fun r e member => ?_, fun r o => ?_⟩
  · by_cases same : r = region
    · subst same
      rw [entries σ]
      rcases Track.clean_store clean with ⟨inside, isData⟩ | ⟨outside, old⟩
      · refine ⟨fun e member shadowed => ?_, fun arr' found => ?_⟩
        · obtain ⟨member, apart⟩ := mem_clear.mp member
          rw [overlaps_iff inb.1 (rep.spilled r e member).1.1 pos] at apart
          exact apart ⟨o, inside, shadowed⟩
        rw [here'] at found
        cases found
        obtain ⟨k, hk, rfl⟩ := exists_offset inside
        rw [eval_storeBytes σ arr addr byte hn]
        exact write_array hk hn (bytes isData k hk).symm
      · obtain ⟨unshadowed, value⟩ := rep.data r o ho old
        refine ⟨fun e member => unshadowed e (mem_clear.mp member).1, fun arr' found => ?_⟩
        rw [here'] at found
        cases found
        rw [eval_storeBytes σ arr addr byte hn, write_window inb ho (.inr outside),
          Flat.write_out outside]
        exact value arr here
    · rw [(Track.store_other same).1] at clean
      rw [stored.shadow r same, write_window inb ho (.inl same)]
      simp only [stored.arrs r same]
      exact rep.data r o ho clean
  · by_cases same : r = region
    · subst same
      rw [entries σ] at member
      obtain ⟨old, apart⟩ := mem_clear.mp member
      exact rep.spilled_write inb pos old (.inr apart)
    · rw [stored.shadow r same] at member
      exact rep.spilled_write inb pos member (.inl same)
  · by_cases same : r = region
    · subst same
      rw [Track.mem_spills_store, rep.intact r o]
      simp only [entries σ, mem_clear, exists_and_right]
      exact or_iff_left fun whole => part whole.1.1 whole.1.2
    · rw [(Track.store_other same).2, stored.shadow r same]
      exact rep.intact r o

theorem spill_sound {addr : Term (.bv 64)} {p : Ptr}
    (rep : Represents cfg L σ t s m) (h : Returns (spill cfg region addr p) s u s')
    (inb : InBounds L region (addr.eval σ) 8) :
    Represents cfg L σ (t.store region (addr.eval σ) 8 true) s'
      (Flat.write m (L.base region + addr.eval σ) 8 (Flat.bytesOf (p.addr L σ))) := by
  obtain ⟨stored, _, a, const, entries, onStack, offStack⟩ := spill_stored h
  have here := cfg.z3.constOf_eval const σ
  rw [here] at inb ⊢
  refine ⟨fun r o ho clean => ?_, fun r e member => ?_, fun r o => ?_⟩
  · by_cases same : r = region
    · subst same
      rcases Track.clean_store clean with ⟨_, isData⟩ | ⟨outside, old⟩
      · cases isData
      obtain ⟨unshadowed, value⟩ := rep.data r o ho old
      refine ⟨fun e member => ?_, fun arr' found => ?_⟩
      · rw [entries] at member
        rcases mem_cons.mp member with rfl | kept
        · exact outside
        · exact unshadowed e (mem_clear.mp kept).1
      rw [write_window inb ho (.inr outside)]
      cases stack : r.isStack with
      | true =>
        rw [onStack stack] at found
        exact value arr' found
      | false =>
        obtain ⟨arr, before, after⟩ := offStack stack
        rw [after] at found
        cases found
        rw [eval_storeBytes σ arr addr _ (by omega), here, Flat.write_out outside]
        exact value arr before
    · rw [(Track.store_other same).1] at clean
      rw [stored.shadow r same, write_window inb ho (.inl same)]
      simp only [stored.arrs r same]
      exact rep.data r o ho clean
  · by_cases same : r = region
    · subst same
      rw [entries] at member
      rcases mem_cons.mp member with rfl | kept
      · refine ⟨inb, fun k hk => ?_⟩
        rw [← add_assoc, Flat.write_in hk (by omega)]
      · obtain ⟨old, apart⟩ := mem_clear.mp kept
        exact rep.spilled_write inb (by omega) old (.inr apart)
    · rw [stored.shadow r same] at member
      exact rep.spilled_write inb (by omega) member (.inl same)
  · by_cases same : r = region
    · subst same
      rw [Track.mem_spills_store, rep.intact r o]
      simp only [entries, mem_cons, Prod.mk.injEq, mem_clear, exists_or, exists_and_right,
        exists_and_left, exists_eq, and_true, true_and]
      exact or_comm
    · rw [(Track.store_other same).2, stored.shadow r same]
      exact rep.intact r o

theorem Size.bytes_pos (size : Size) : 0 < size.bytes := by
  cases size <;> decide

theorem store_sound {ptr val : Val} {size : Size}
    (rep : Represents cfg L σ t s m) (h : Returns (store cfg ptr size val) s u s')
    (inb : InBounds L ptr.target.1 (ptr.target.2.eval σ) size.bytes) :
    Represents cfg L σ
      (t.store ptr.target.1 (ptr.target.2.eval σ) size.bytes val.isPtr) s'
      (Flat.write m (ptr.conc L σ) size.bytes (Flat.bytesOf (val.conc L σ))) := by
  rw [← eval_target L σ ptr]
  simp only [store] at h
  split at h
  · obtain ⟨_, _, stopped, _⟩ := h.bind
    exact stopped.throw
  cases val with
  | data v =>
    exact storeData_sound false _ rep h inb size.bytes_pos (fun _ k _ => eval_byteOf σ v k)
      (by simp)
  | ptr p =>
    dsimp only at h
    split at h
    · rename_i wide
      subst wide
      exact spill_sound rep h inb
    · rename_i narrow
      refine storeData_sound true _ rep h inb size.bytes_pos (by simp) fun _ eight => ?_
      cases size <;> simp_all [Size.bytes]

end BpfEquiv
