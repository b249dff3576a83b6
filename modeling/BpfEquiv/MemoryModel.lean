import BpfEquiv.Asm
import BpfEquiv.Concrete

/-!
Sequences of loads, stores and copies against a flat byte memory.

The flat memory performs the same operations on concrete addresses; storing a
pointer writes the bytes of its address, and a copy moves the bytes its source
window held before it. The two agree as long as no read takes bytes of a stored
pointer other than a whole untouched pointer.
-/
namespace BpfEquiv
open Smt Hoare List
open BitVec (ofNat toNat_add)
open Flat (bytesOf write_congr)

variable {L : Layout} {σ : Assignment} {cfg : Config} {t : Track} {s s' : St} {m : Flat.Memory}

/-! Copies. -/

open Classical in
/-- Provenance after the copy steps from the k-th byte on. -/
noncomputable def Track.copy (dr : Region) (d : BitVec 64) (sr : Region) (a : BitVec 64)
    (n : Nat) : Nat → Nat → Track → Track
  | 0, _, t => t
  | fuel + 1, k, t =>
    if k < n then
      if n - k ≥ 8 ∧ a + ofNat 64 k ∈ t.spills sr then
        Track.copy dr d sr a n fuel (k + 8) (t.store dr (d + ofNat 64 k) 8 true)
      else
        Track.copy dr d sr a n fuel (k + 1) (t.store dr (d + ofNat 64 k) 1 false)
    else t

/-- From the k-th byte on, every pointer byte of a source window belongs to an
untouched pointer that lies in the window. -/
def Track.Copyable (t : Track) (sr : Region) (a : BitVec 64) (n k : Nat) : Prop :=
  ∀ j, k ≤ j → j < n → a + ofNat 64 j ∈ t.ptrBytes sr →
    ∃ i, k ≤ i ∧ i ≤ j ∧ j < i + 8 ∧ i + 8 ≤ n ∧ a + ofNat 64 i ∈ t.spills sr

/-- A copy whose destination does not begin inside the rest of its source. -/
def NotForward (dst src : BitVec 64) (n : Nat) : Prop :=
  ¬ (0 < (dst - src).toNat ∧ (dst - src).toNat < n)

theorem InBounds.sub {r : Region} {a : BitVec 64} {n k w : Nat} (h : InBounds L r a n)
    (hk : k + w ≤ n) (pos : 0 < w) : InBounds L r (a + ofNat 64 k) w := by
  obtain ⟨fits, member⟩ := h
  refine ⟨?_, fun i hi => ?_⟩
  · rw [toNat_add, BitVec.toNat_ofNat, Nat.mod_eq_of_lt (show k < 2 ^ 64 by omega),
      Nat.mod_eq_of_lt (by omega)]
    omega
  · rw [BitVec.add_assoc, ← BitVec.ofNat_add]
    exact member (k + i) (by omega)

theorem conc_addrAdd_nat (v : Val) (k : Nat) :
    (addrAdd v k).conc L σ = v.conc L σ + ofNat 64 k := by
  rw [conc_addrAdd, BitVec.ofInt_natCast]

theorem spilledAt_entry {src : Val} {p : Ptr} (h : spilledAt cfg s.mem src = some p) :
    (src.target.2.eval σ, p) ∈ (s.mem.shadow src.target.1).entries := by
  cases src with
  | data v => cases h
  | ptr q =>
    obtain ⟨a, const, hit⟩ := Option.bind_eq_some_iff.mp h
    rw [show (Val.ptr q).target.2 = q.off from rfl, cfg.z3.constOf_eval const σ]
    exact Shadow.mem_of_lookup hit

/-- A byte that a copy has still to read is not one it has already written. -/
theorem unread_apart {dst src : BitVec 64} {n x j : Nat} (noForward : NotForward dst src n)
    (hx : x < j) (hj : j < n) (hn : n ≤ 2 ^ 64) :
    src + ofNat 64 j ≠ dst + ofNat 64 x := by
  intro same
  apply noForward
  have distance : dst - src = ofNat 64 (j - x) := by
    have shift : ofNat 64 j = ofNat 64 (j - x) + ofNat 64 x := by
      rw [← BitVec.ofNat_add, Nat.sub_add_cancel hx.le]
    rw [shift, ← BitVec.add_assoc] at same
    rw [← add_right_cancel same]
    exact add_sub_cancel_left _ _
  rw [distance, BitVec.toNat_ofNat, Nat.mod_eq_of_lt (by omega)]
  omega

/-- Flat memory after the first bytes of a copy and after the rest. -/
theorem write_copy {dst src : BitVec 64} {n k w : Nat} (noForward : NotForward dst src n)
    (hw : k + w ≤ n) (hn : n ≤ 2 ^ 64) {m₁ : Flat.Memory}
    (first : m₁ = Flat.write m (dst + ofNat 64 k) w
      fun i => m (src + ofNat 64 (k + i))) :
    Flat.write m₁ (dst + ofNat 64 (k + w)) (n - (k + w))
        (fun i => m₁ (src + ofNat 64 (k + w + i))) =
      Flat.write m (dst + ofNat 64 k) (n - k)
        fun i => m (src + ofNat 64 (k + i)) := by
  have unread : ∀ i < n - (k + w), m₁ (src + ofNat 64 (k + w + i)) =
      m (src + ofNat 64 (k + w + i)) := by
    intro i hi
    rw [first]
    refine Flat.write_out fun inside => ?_
    obtain ⟨x, hx, same⟩ := exists_offset (show src + ofNat 64 (k + w + i) ∈
      window (dst + ofNat 64 k) w from inside)
    rw [BitVec.add_assoc, ← BitVec.ofNat_add] at same
    exact unread_apart noForward (show k + x < k + w + i by omega) (by omega) hn same
  rw [write_congr unread, first, BitVec.ofNat_add, ← BitVec.add_assoc,
    Flat.write_append _ _ _ _ (by omega), show w + (n - (k + w)) = n - k by omega]
  refine write_congr fun i _ => ?_
  split
  · rfl
  · rw [show k + w + (i - w) = k + i by omega]

theorem Track.ptrBytes_away {region r : Region} {a o : BitVec 64} {n : Nat} {isPtr : Bool}
    (away : r ≠ region ∨ o ∉ window a n) :
    o ∈ (t.store region a n isPtr).ptrBytes r ↔ o ∈ t.ptrBytes r := by
  by_cases same : r = region
  · subst same
    have out := away.resolve_left fun other => other rfl
    simp only [Track.store, Function.update_self]
    cases isPtr with
    | true => exact ⟨fun h => h.resolve_right out, .inl⟩
    | false => exact ⟨fun h => h.1, fun h => ⟨h, out⟩⟩
  · rw [(Track.store_other same).1]

/-- What remains to be read of a copyable source is copyable after a step. -/
theorem Track.Copyable.step {dst src : Val} {n k w : Nat} {isPtr : Bool}
    (rep : Represents cfg L σ t s m)
    (inbS : InBounds L src.target.1 (src.target.2.eval σ) n)
    (inbD : InBounds L dst.target.1 (dst.target.2.eval σ) n)
    (noForward : NotForward (dst.conc L σ) (src.conc L σ) n)
    (copyable : t.Copyable src.target.1 (src.target.2.eval σ) n k) (hw : k + w ≤ n) (pos : 0 < w)
    (past : ∀ i, k ≤ i → i < k + w → i + 8 ≤ n →
      src.target.2.eval σ + ofNat 64 i ∈ t.spills src.target.1 → i + 8 ≤ k + w) :
    (t.store dst.target.1 (dst.target.2.eval σ + ofNat 64 k) w isPtr).Copyable
      src.target.1 (src.target.2.eval σ) n (k + w) := by
  have hn : n ≤ 2 ^ 64 := by have := inbS.1; omega
  -- bytes still to be read lie outside the window just written
  have away : ∀ j, k + w ≤ j → j < n → src.target.1 ≠ dst.target.1 ∨
      src.target.2.eval σ + ofNat 64 j ∉
        window (dst.target.2.eval σ + ofNat 64 k) w := by
    intro j hj hjn
    refine or_iff_not_imp_left.mpr fun same inside => ?_
    rw [not_not] at same
    obtain ⟨x, hx, eq⟩ := exists_offset inside
    rw [BitVec.add_assoc, ← BitVec.ofNat_add] at eq
    refine unread_apart noForward (show k + x < j by omega) hjn hn ?_
    rw [← eval_target L σ src, ← eval_target L σ dst, same, BitVec.add_assoc, BitVec.add_assoc, eq]
  intro j hj hjn member
  rw [Track.ptrBytes_away (away j hj hjn)] at member
  obtain ⟨i, hki, hij, hji, hin, spill⟩ := copyable j (by omega) hjn member
  have later : k + w ≤ i := by
    by_contra early
    have := past i hki (by omega) hin spill
    omega
  refine ⟨i, later, hij, hji, hin, ?_⟩
  by_cases same : src.target.1 = dst.target.1
  · obtain ⟨p, entry⟩ := (rep.intact _ _).mp spill
    have inbE := (rep.spilled _ _ entry).1
    rw [same] at spill ⊢
    rw [Track.mem_spills_store]
    refine .inl ⟨spill, fun overlap => ?_⟩
    rw [overlaps_iff (inbD.sub hw pos).1 inbE.1 pos] at overlap
    obtain ⟨x, inside, here⟩ := overlap
    obtain ⟨y, hy, rfl⟩ := exists_offset here
    rw [BitVec.add_assoc, ← BitVec.ofNat_add] at inside
    exact (away (i + y) (by omega) (by omega)).elim (fun other => other same) fun out => out inside
  · rw [(Track.store_other same).2]
    exact spill

theorem Represents.spills_apart (rep : Represents cfg L σ t s m) {r : Region}
    {a b : BitVec 64} (ha : a ∈ t.spills r) (hb : b ∈ t.spills r) (ne : a ≠ b) :
    a.toNat + 8 ≤ b.toNat ∨ b.toNat + 8 ≤ a.toNat := by
  obtain ⟨p, entry⟩ := (rep.intact r a).mp ha
  obtain ⟨q, entry'⟩ := (rep.intact r b).mp hb
  have symm : Std.Symm fun e f : BitVec 64 × Ptr =>
      e.1.toNat + 8 ≤ f.1.toNat ∨ f.1.toNat + 8 ≤ e.1.toNat := ⟨fun _ _ h => h.symm⟩
  exact (s.mem.shadow r).apart.forall entry entry' fun same => ne (congrArg Prod.fst same)

theorem store_sound_at {dst val : Val} {size : Size} {n k w : Nat} {u : Unit}
    (rep : Represents cfg L σ t s m) (h : Returns (store cfg (addrAdd dst k) size val) s u s')
    (inb : InBounds L dst.target.1 (dst.target.2.eval σ) n) (fits : k + w ≤ n)
    (width : size.bytes = w) :
    Represents cfg L σ (t.store dst.target.1 (dst.target.2.eval σ + ofNat 64 k) w val.isPtr) s'
      (Flat.write m (dst.conc L σ + ofNat 64 k) w (bytesOf (val.conc L σ))) := by
  subst width
  have sound := store_sound rep h (by
    rw [addrAdd_region, addrAdd_off]
    exact inb.sub fits size.bytes_pos)
  rw [addrAdd_region, addrAdd_off, conc_addrAdd_nat] at sound
  exact sound

theorem copyLoop_sound {dst src : Val} {n : Nat} {u : Unit}
    (inbS : InBounds L src.target.1 (src.target.2.eval σ) n)
    (inbD : InBounds L dst.target.1 (dst.target.2.eval σ) n)
    (noForward : NotForward (dst.conc L σ) (src.conc L σ) n) {fuel k : Nat}
    (enough : n - k ≤ fuel) (rep : Represents cfg L σ t s m)
    (copyable : t.Copyable src.target.1 (src.target.2.eval σ) n k)
    (h : Returns (copyLoop cfg dst src n fuel k) s u s') :
    Represents cfg L σ
      (Track.copy dst.target.1 (dst.target.2.eval σ) src.target.1 (src.target.2.eval σ) n fuel k t)
      s' (Flat.write m (dst.conc L σ + ofNat 64 k) (n - k)
        fun i => m (src.conc L σ + ofNat 64 (k + i))) := by
  have hn : n ≤ 2 ^ 64 := by have := inbS.1; omega
  have addrS (k : Nat) := And.intro (addrAdd_region src k) (addrAdd_off σ src k)
  induction fuel generalizing k t s m with
  | zero =>
    obtain ⟨_, rfl⟩ := h.pure
    rw [show n - k = 0 by omega, Flat.write_zero]
    exact rep
  | succ fuel ih =>
    simp only [copyLoop] at h
    simp only [Track.copy]
    split at h
    swap
    · rename_i past
      obtain ⟨_, rfl⟩ := h.pure
      rw [if_neg past, show n - k = 0 by omega, Flat.write_zero]
      exact rep
    next more =>
    rw [returns_get_bind] at h
    rw [if_pos more]
    split at h
    · rename_i p hit
      -- a whole pointer is carried across
      have room : n - k ≥ 8 := by
        by_contra short
        simp [short] at hit
      rw [if_pos room] at hit
      have entry := spilledAt_entry (σ := σ) hit
      rw [(addrS k).1, (addrS k).2] at entry
      have spill := (rep.intact _ _).mpr ⟨p, entry⟩
      rw [if_pos ⟨room, spill⟩]
      obtain ⟨_, s₁, stored, h⟩ := h.bind
      have rep₁ := store_sound_at rep stored inbD (show k + 8 ≤ n by omega) rfl
      have bytes : Flat.write m (dst.conc L σ + ofNat 64 k) 8
          (bytesOf ((Val.ptr p).conc L σ)) =
          Flat.write m (dst.conc L σ + ofNat 64 k) 8
            fun i => m (src.conc L σ + ofNat 64 (k + i)) := by
        refine write_congr fun i hi => ?_
        rw [← eval_target L σ src, BitVec.ofNat_add, BitVec.add_assoc, ← BitVec.add_assoc _ _
          (ofNat 64 i)]
        exact ((rep.spilled _ _ entry).2 i hi).symm
      have rest := ih (by omega) rep₁ (copyable.step rep inbS inbD noForward
        (show k + 8 ≤ n by omega) (by omega) ?_) h
      · rw [← write_copy noForward (show k + 8 ≤ n by omega) hn bytes]
        exact rest
      intro i hki hik hin other
      by_contra late
      have ne : src.target.2.eval σ + ofNat 64 i ≠
          src.target.2.eval σ + ofNat 64 k := by
        intro same
        have := congrArg BitVec.toNat (add_left_cancel same)
        simp only [BitVec.toNat_ofNat] at this
        omega
      have fits := inbS.1
      have := rep.spills_apart other spill ne
      simp only [toNat_add, BitVec.toNat_ofNat] at this
      omega
    · rename_i miss
      obtain ⟨byte, s₁, loaded, h⟩ := h.bind
      obtain ⟨_, s₂, stored, onward⟩ := h.bind
      obtain ⟨_, _, result⟩ := load_cases loaded
      -- a one-byte load never gives a pointer, so no spill starts here
      cases byte with
      | ptr p => cases result.1
      | data v =>
      have noSpill : src.target.2.eval σ + ofNat 64 k ∉ t.spills src.target.1 := by
        intro spill
        obtain ⟨p, entry⟩ := (rep.intact _ _).mp spill
        obtain ⟨_, _, _, clear⟩ := result
        rw [(addrS k).1] at clear
        refine clear σ _ entry ?_
        rw [(addrS k).2]
        simp only [Overlaps, Size.bytes]
        omega
      have clean : src.target.2.eval σ + ofNat 64 k ∉ t.ptrBytes src.target.1 := by
        intro member
        obtain ⟨i, hki, hik, _, _, spill⟩ := copyable k le_rfl more member
        rw [show i = k by omega] at spill
        exact noSpill spill
      rw [if_neg fun both => noSpill both.2]
      obtain ⟨value, cached⟩ := load_sound rep loaded (by
        rw [(addrS k).1, (addrS k).2]
        exact inbS.sub (show k + 1 ≤ n by omega) (Size.bytes_pos .b)) (.inr fun i hi => by
          rw [(addrS k).1, (addrS k).2, show i = 0 by simp only [Size.bytes] at hi; omega]
          simpa using clean)
      have rep₂ := store_sound_at (rep.cached cached) stored inbD (show k + 1 ≤ n by omega) rfl
      have bytes : Flat.write m (dst.conc L σ + ofNat 64 k) 1
          (bytesOf ((Val.data v).conc L σ)) =
          Flat.write m (dst.conc L σ + ofNat 64 k) 1
            fun i => m (src.conc L σ + ofNat 64 (k + i)) := by
        refine write_congr fun i hi => ?_
        rw [value, show i = 0 by omega, conc_addrAdd_nat]
        exact Flat.bytesOf_read_zero m _
      have rest := ih (by omega) rep₂ (copyable.step rep inbS inbD noForward
        (show k + 1 ≤ n by omega) (by omega) ?_) onward
      · rw [← write_copy noForward (show k + 1 ≤ n by omega) hn bytes]
        exact rest
      · intro i hki hik _ spill
        rw [show i = k by omega] at spill
        exact absurd spill noSpill

/-! Operations. -/

inductive MemOp where
  | load (ptr : Val) (size : Size)
  | store (ptr : Val) (size : Size) (val : Val)
  | copy (dst src : Val) (n : Nat)

def MemOp.run (cfg : Config) : MemOp → M (List Val)
  | .load ptr size => do
    let v ← BpfEquiv.load cfg ptr size
    pure [v]
  | .store ptr size val => do
    BpfEquiv.store cfg ptr size val
    pure []
  | .copy dst src n => do
    copyPreservingPointers cfg dst src n
    pure []

def runOps (cfg : Config) : List MemOp → M (List Val)
  | [] => pure []
  | op :: ops => do
    let vs ← op.run cfg
    let rest ← runOps cfg ops
    pure (vs ++ rest)

def MemOp.flat (L : Layout) (σ : Assignment) : MemOp → Flat.Memory → List (BitVec 64) × Flat.Memory
  | .load ptr size, m => ([Flat.read m (ptr.conc L σ) size.bytes], m)
  | .store ptr size val, m =>
    ([], Flat.write m (ptr.conc L σ) size.bytes (bytesOf (val.conc L σ)))
  | .copy dst src n, m =>
    ([], Flat.write m (dst.conc L σ) n fun k => m (src.conc L σ + ofNat 64 k))

def flatOps (L : Layout) (σ : Assignment) : List MemOp → Flat.Memory → List (BitVec 64)
  | [], _ => []
  | op :: ops, m => (op.flat L σ m).1 ++ flatOps L σ ops (op.flat L σ m).2

noncomputable def MemOp.track (σ : Assignment) : MemOp → Track → Track
  | .load _ _, t => t
  | .store ptr size val, t => t.store ptr.target.1 (ptr.target.2.eval σ) size.bytes val.isPtr
  | .copy dst src n, t =>
    t.copy dst.target.1 (dst.target.2.eval σ) src.target.1 (src.target.2.eval σ) n n 0

def MemOp.InBounds (L : Layout) (σ : Assignment) : MemOp → Prop
  | .load ptr size => BpfEquiv.InBounds L ptr.target.1 (ptr.target.2.eval σ) size.bytes
  | .store ptr size _ => BpfEquiv.InBounds L ptr.target.1 (ptr.target.2.eval σ) size.bytes
  | .copy dst src n => BpfEquiv.InBounds L dst.target.1 (dst.target.2.eval σ) n ∧
      BpfEquiv.InBounds L src.target.1 (src.target.2.eval σ) n

/-- A read of an operation takes no part of a stored pointer. -/
def MemOp.Readable (L : Layout) (σ : Assignment) (t : Track) : MemOp → Prop
  | .load ptr size => t.Readable ptr.target.1 (ptr.target.2.eval σ) size.bytes
  | .store _ _ _ => True
  | .copy dst src n => t.Copyable src.target.1 (src.target.2.eval σ) n 0 ∧
      NotForward (dst.conc L σ) (src.conc L σ) n

def ReadableOps (L : Layout) (σ : Assignment) : Track → List MemOp → Prop
  | _, [] => True
  | t, op :: ops => op.Readable L σ t ∧ ReadableOps L σ (op.track σ t) ops

theorem op_sound {op : MemOp} {vs : List Val} (rep : Represents cfg L σ t s m)
    (h : Returns (op.run cfg) s vs s') (inb : op.InBounds L σ) (readable : op.Readable L σ t) :
    vs.map (·.conc L σ) = (op.flat L σ m).1 ∧
      Represents cfg L σ (op.track σ t) s' (op.flat L σ m).2 := by
  cases op with
  | load ptr size =>
    obtain ⟨v, s₁, loaded, h⟩ := h.bind
    obtain ⟨rfl, rfl⟩ := h.pure
    obtain ⟨value, cached⟩ := load_sound rep loaded inb readable
    exact ⟨congrArg (fun x => [x]) value, rep.cached cached⟩
  | store ptr size val =>
    obtain ⟨_, s₁, stored, h⟩ := h.bind
    obtain ⟨rfl, rfl⟩ := h.pure
    exact ⟨rfl, store_sound rep stored inb⟩
  | copy dst src n =>
    obtain ⟨_, s₁, copied, h⟩ := h.bind
    obtain ⟨rfl, rfl⟩ := h.pure
    have sound := copyLoop_sound inb.2 inb.1 readable.2 le_rfl rep readable.1 copied
    simp only [Nat.sub_zero, Nat.zero_add, BitVec.add_zero] at sound
    exact ⟨rfl, sound⟩

theorem ops_sound {ops : List MemOp} {vs : List Val} (rep : Represents cfg L σ t s m)
    (h : Returns (runOps cfg ops) s vs s') (inb : ∀ op ∈ ops, op.InBounds L σ)
    (readable : ReadableOps L σ t ops) : vs.map (·.conc L σ) = flatOps L σ ops m := by
  induction ops generalizing t s m vs with
  | nil =>
    obtain ⟨rfl, _⟩ := h.pure
    rfl
  | cons op ops ih =>
    obtain ⟨first, s₁, done, h⟩ := h.bind
    obtain ⟨rest, s₂, later, h⟩ := h.bind
    obtain ⟨rfl, rfl⟩ := h.pure
    obtain ⟨same, rep₁⟩ := op_sound rep done (inb op (.head _)) readable.1
    rw [map_append, same, ih rep₁ later (fun o member => inb o (.tail op member))
      readable.2]
    rfl

/-- Over a fresh path, every load of a sequence gives what the flat memory holds, as
long as no read takes part of a stored pointer. -/
theorem loads_match_flat (cfg : Config) (L : Layout) (σ : Assignment) (ops : List MemOp)
    (s s' : St) (m : Flat.Memory) (vs : List Val) (fresh : s.mem = .empty)
    (init : ∀ r o arr, o ∈ L.dom r → initTerm cfg s.exec r = some arr →
      m (L.base r + o) = arr.eval σ o)
    (returned : Returns (runOps cfg ops) s vs s') (inb : ∀ op ∈ ops, op.InBounds L σ)
    (readable : ReadableOps L σ .empty ops) :
    vs.map (·.conc L σ) = flatOps L σ ops m :=
  ops_sound (.fresh fresh init) returned inb readable

/-! A stack and a context at fixed addresses, all bytes zero. -/

def stackA : Region := .stack "A" .main

def twoBlocks : Layout where
  base r := if r = stackA then 0x1000 else if r = .ctx then 0x20100 else 0
  dom r := {o | (r = stackA ∧ o.toNat < 512) ∨ (r = .ctx ∧ o.toNat < 64)}
  kmem := by decide
  apart := by
    rintro r r' o o' (⟨rfl, ho⟩ | ⟨rfl, ho⟩) (⟨rfl, ho'⟩ | ⟨rfl, ho'⟩) same
    · rfl
    · have := congrArg BitVec.toNat same
      simp [stackA, toNat_add] at this
      omega
    · have := congrArg BitVec.toNat same
      simp [stackA, toNat_add] at this
      omega
    · rfl

def zeroAssignment : Assignment :=
  ⟨fun _ _ => 0, fun _ _ => 0, fun _ _ _ _ => 0, fun _ _ _ _ => 0, fun _ _ _ _ _ => 0,
    fun _ _ => false⟩

def freshSt : St := ⟨.empty, .zero, baseExec⟩

def stackPtr (off : Nat) : Val := .ptr ⟨stackA, bv64 off⟩

def ctxPtr : Val := .ptr ⟨.ctx, bv64 0⟩

theorem stackPtr_inBounds {off n : Nat} (h : off + n ≤ 512) :
    InBounds twoBlocks (stackPtr off).target.1 ((stackPtr off).target.2.eval zeroAssignment) n := by
  change InBounds twoBlocks stackA ((bv64 off).eval zeroAssignment) n
  rw [eval_bv64]
  refine ⟨?_, fun k hk => .inl ⟨rfl, ?_⟩⟩
  · rw [BitVec.toNat_ofNat]
    omega
  · rw [← BitVec.ofNat_add, BitVec.toNat_ofNat]
    omega

theorem twoBlocks_init {ws : List Word} {r : Region} {o : BitVec 64} {arr : Term .arr}
    (ho : o ∈ twoBlocks.dom r) (found : initTerm (plainConfig "sk" ws) baseExec r = some arr) :
    (0 : BitVec 8) = arr.eval zeroAssignment o := by
  have stackInit : initTerm (plainConfig "sk" ws) baseExec stackA = some (.arrVar "stack_init") :=
    rfl
  have ctxInit : initTerm (plainConfig "sk" ws) baseExec .ctx = some (.arrVar "ctx") := rfl
  rcases ho with ⟨rfl, _⟩ | ⟨rfl, _⟩
  · rw [stackInit] at found
    cases found
    rfl
  · rw [ctxInit] at found
    cases found
    rfl

def loadedValues (ops : List MemOp) : Option (List (BitVec 64)) :=
  ((runOps (plainConfig "sk" []) ops).run freshSt).toOption.map
    fun r => r.1.map (·.conc twoBlocks zeroAssignment)

/-- A pointer is spilled and taken back; a byte beside it is stored and read. -/
def reloadOps : List MemOp :=
  [.store (stackPtr 504) .dw ctxPtr, .store (stackPtr 496) .b (.data (bv64 5)),
    .load (stackPtr 504) .dw, .load (stackPtr 496) .b]

theorem reloadOps_readable : ReadableOps twoBlocks zeroAssignment .empty reloadOps := by
  refine ⟨trivial, trivial, .inl ⟨rfl, ?_⟩, .inr fun k hk => ?_, trivial⟩
  · refine Track.mem_spills_store.mpr
      (.inl ⟨Track.mem_spills_store.mpr (.inr ⟨⟨rfl, rfl⟩, rfl⟩), ?_⟩)
    decide
  have here : k = 0 := by simp only [Size.bytes] at hk; omega
  subst here
  rintro ⟨_, out⟩
  exact out (by change (_ : Nat) < 1; decide)

theorem loads_match_flat_reload : ∃ vs s',
    Returns (runOps (plainConfig "sk" []) reloadOps) freshSt vs s' ∧
      vs.map (·.conc twoBlocks zeroAssignment) = [0x20100, 5] := by
  have ok : ((runOps (plainConfig "sk" []) reloadOps).run freshSt).toOption.isSome = true := by
    decide +kernel
  cases found : (runOps (plainConfig "sk" []) reloadOps).run freshSt with
  | error e =>
    rw [found] at ok
    cases ok
  | ok r =>
    refine ⟨r.1, r.2, found, ?_⟩
    rw [loads_match_flat _ twoBlocks zeroAssignment reloadOps freshSt r.2 (fun _ => 0) r.1 rfl
      (fun r o arr => twoBlocks_init) found ?_ reloadOps_readable]
    · decide +kernel
    simp only [reloadOps, forall_mem_cons, MemOp.InBounds, not_mem_nil, false_imp_iff,
      implies_true, and_true]
    exact ⟨stackPtr_inBounds (by decide), stackPtr_inBounds (by decide),
      stackPtr_inBounds (by decide), stackPtr_inBounds (by decide)⟩

/-- A pointer is spilled, its first byte is overwritten with data, and its second byte
is read. -/
def residueOps : List MemOp :=
  [.store (stackPtr 504) .dw ctxPtr, .store (stackPtr 504) .b (.data (bv64 0)),
    .load (stackPtr 505) .b]

/-- The model gives the byte the stack held before the spill, not a byte of the
pointer. -/
theorem residue_after_partial_overwrite :
    loadedValues residueOps = some [0] ∧
      flatOps twoBlocks zeroAssignment residueOps (fun _ => 0) = [1] ∧
      (∀ op ∈ residueOps, op.InBounds twoBlocks zeroAssignment) ∧
      ∀ r o arr, o ∈ twoBlocks.dom r → initTerm (plainConfig "sk" []) baseExec r = some arr →
        (0 : BitVec 8) = arr.eval zeroAssignment o := by
  refine ⟨by decide +kernel, by decide +kernel, ?_, fun r o arr => twoBlocks_init⟩
  simp only [residueOps, forall_mem_cons, MemOp.InBounds, not_mem_nil, false_imp_iff,
    implies_true, and_true]
  exact ⟨stackPtr_inBounds (by decide), stackPtr_inBounds (by decide),
    stackPtr_inBounds (by decide)⟩

end BpfEquiv
