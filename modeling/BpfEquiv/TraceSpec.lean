import BpfEquiv.Concrete
import BpfEquiv.Trace
import BpfEquiv.Log

/-!
What the trace holds under an assignment. An event is a record of a log that lies
over the initial trace; the arguments of a call enter it as bytes of registers and
bytes of memory.
-/
namespace BpfEquiv
open Smt Hoare List

variable {cfg : Config} {s s' : St} {what : String}

variable (σ : Assignment) (bs : List (Term (.bv 8)))

def evalBytes : List Byte := bs.map (·.eval σ)

@[simp] theorem evalBytes_append (cs : List (Term (.bv 8))) :
    evalBytes σ (bs ++ cs) = evalBytes σ bs ++ evalBytes σ cs :=
  map_append

/-! Arguments. -/

def lowBytes (n : Nat) (v : BitVec 64) : List Byte := (List.range n).map (Flat.bytesOf v)

theorem evalBytes_byteOf (t : Term (.bv 64)) (n : Nat) :
    evalBytes σ ((List.range n).map (byteOf t)) = lowBytes n (t.eval σ) := by
  simp only [evalBytes, lowBytes, map_map]
  rfl

theorem loadByte_returns {ptr : Val} {k : Nat} {b : Term (.bv 8)}
    (h : Returns (loadByte cfg ptr k) s b s') :
    Cached cfg s s' ∧ ∃ arr, curArr cfg s ptr.target.1 = some arr ∧
      ∀ σ, b.eval σ = arr.eval σ (ptr.target.2.eval σ + BitVec.ofNat 64 k) := by
  obtain ⟨v, _, loaded, h⟩ := h.bind
  obtain ⟨cached, _, result⟩ := load_cases loaded
  cases v with
  | ptr p => exact h.throw
  | data t =>
    obtain ⟨rfl, rfl⟩ := h.pure
    obtain ⟨arr, here, rfl, _⟩ := result
    refine ⟨cached, arr, ?_, fun σ => ?_⟩
    · rw [← addrAdd_region ptr k, here]
    · rw [eval_byteOf, eval_loadTerm, addrAdd_off]
      exact Flat.bytesOf_read_zero _ _

theorem evalBytes_forall₂ {α : Type} {σ : Assignment} {f : α → Byte} {l : List α}
    {bs : List (Term (.bv 8))} (h : List.Forall₂ (fun x b => b.eval σ = f x) l bs) :
    evalBytes σ bs = l.map f := by
  induction h with
  | nil => rfl
  | cons first _ ih => exact congrArg₂ _ first ih

def windowBytes (m : BitVec 64 → Byte) (a : BitVec 64) (n : Nat) : List Byte :=
  (List.range n).map fun k => m (a + BitVec.ofNat 64 k)

theorem memBytes_returns {ptr : Val} {n : Nat} {bs : List (Term (.bv 8))}
    (h : Returns (memBytes cfg ptr n what) s bs s') :
    Cached cfg s s' ∧ n ≤ maxArg ∧ ∀ σ arr, curArr cfg s ptr.target.1 = some arr →
      evalBytes σ bs = windowBytes (arr.eval σ) (ptr.target.2.eval σ) n := by
  unfold memBytes at h
  split at h
  · exact h.throw
  rename_i fits
  obtain ⟨cached, bytes⟩ := returns_mapM (I := Cached cfg s)
    (Q := fun k b => ∀ σ arr, curArr cfg s ptr.target.1 = some arr →
      b.eval σ = arr.eval σ (ptr.target.2.eval σ + BitVec.ofNat 64 k))
    (fun k _ t b t' before read => by
      obtain ⟨cached, arr, here, value⟩ := loadByte_returns read
      refine ⟨before.trans cached, fun σ arr' here' => ?_⟩
      rw [before.arrs, here'] at here
      cases here
      exact value σ)
    (.refl s) h
  refine ⟨cached, by omega, fun σ arr here => ?_⟩
  exact evalBytes_forall₂ (bytes.imp fun _ _ value => value σ arr here)

/-! Events. -/

def eventRecord (hid : Int) (payload : List (Term (.bv 8))) : Log.Record :=
  ⟨BitVec.ofInt 8 hid, evalBytes σ payload⟩

theorem evalBytes_event (hid : Int) (payload : List (Term (.bv 8))) :
    evalBytes σ (eventHeader hid payload.length ++ payload) =
      (eventRecord σ hid payload).bytes := by
  have digit (n : Nat) : BitVec.ofNat 8 (n % 256) = BitVec.ofNat 8 n :=
    BitVec.eq_of_toNat_eq (by simp)
  simp only [evalBytes, eventHeader, byteVal, eventRecord, Log.Record.bytes, cons_append,
    nil_append, map_cons, Term.eval, length_map, digit]

theorem eval_storeList {σ : Assignment} {base : BitVec 64 → Byte}
    {arr : Term .arr} {old : List Byte} (before : arr.eval σ = Log.overlay old base)
    (room : old.length + bs.length ≤ 2 ^ 64) :
    (storeList arr old.length bs).eval σ = Log.overlay (old ++ evalBytes σ bs) base := by
  induction bs generalizing arr old with
  | nil => simpa [evalBytes, storeList] using before
  | cons b bs ih =>
    simp only [length_cons] at room
    have stored : (Term.store arr (bv64 old.length) b).eval σ =
        Log.overlay (old ++ [b.eval σ]) base := by
      rw [Log.overlay_snoc _ _ _ (by omega)]
      simp only [Term.eval, eval_bv64, before]
    have rest := ih stored (by simp; omega)
    simpa [evalBytes, storeList] using rest

structure Emitted (cfg : Config) (hid : Int) (payload : List (Term (.bv 8))) (s s' : St) :
    Prop where
  trace : ∃ arr, curArr cfg s .trace = some arr ∧ curArr cfg s' .trace =
    some (storeList arr s.counters.cursor (eventHeader hid payload.length ++ payload))
  arrs : ∀ r, r ≠ .trace → curArr cfg s' r = curArr cfg s r
  shadow : s'.mem.shadow = s.mem.shadow
  counters : s'.counters = { s.counters with cursor := s.counters.cursor + (payload.length + 3) }
  dynamicMaps : s'.exec.dynamicMaps = s.exec.dynamicMaps
  init : ∀ r, initTerm cfg s'.exec r = initTerm cfg s.exec r
  backed : Backed s → Backed s'
  grows : ∀ r, s.exec.sharedArr r ≠ none → s'.exec.sharedArr r ≠ none

theorem emitEvent_emitted {hid : Int} {payload : List (Term (.bv 8))} {u : Unit}
    (h : Returns (emitEvent cfg hid payload) s u s') : Emitted cfg hid payload s s' := by
  simp only [emitEvent] at h
  obtain ⟨arr, t, first, h⟩ := h.bind
  rw [returns_get_bind, modifyMem, returns_modify_bind, modifyCounters, returns_modify] at h
  subst h
  obtain ⟨here, used, cached⟩ := regionArray_cached first
  refine ⟨⟨arr, here, ?_⟩, fun r other => ?_, cached.shadow, ?_, cached.dynamicMaps, cached.init,
    fun backed => (cached.backed backed).setArr_used used, cached.grows⟩
  · simp [curArr, Mem.setArr, cached.counters]
  · simp only [curArr, Mem.setArr, Function.update_of_ne other]
    exact cached.arrs r
  · simp only [cached.counters, eventHeader, length_append, length_cons, length_nil]
    congr 1
    omega

/-! Bytes that determine what they encode. -/

def textBytes (name : String) : List Byte := BitVec.ofNat 8 (utf8 name).length :: utf8 name

theorem utf8_inj {a b : String} (h : utf8 a = utf8 b) : a = b := by
  have bytes : a.toUTF8.data.toList = b.toUTF8.data.toList :=
    map_injective_iff.mpr (fun x y same => UInt8.toBitVec_inj.mp same) h
  exact String.toByteArray_inj.mp (ByteArray.ext (Array.toList_inj.mp bytes))

theorem textBytes_append {a b : String} {bs cs : List Byte} (ha : (utf8 a).length < 256)
    (hb : (utf8 b).length < 256) (h : textBytes a ++ bs = textBytes b ++ cs) : a = b ∧ bs = cs := by
  simp only [textBytes, cons_append, List.cons.injEq] at h
  have length := congrArg BitVec.toNat h.1
  simp only [BitVec.toNat_ofNat] at length
  obtain ⟨same, rest⟩ := append_inj h.2 (by omega)
  exact ⟨utf8_inj same, rest⟩

theorem lowBytes_inj {x y : BitVec 64} (h : lowBytes 8 x = lowBytes 8 y) : x = y := by
  rw [← Flat.value_bytesOf x, ← Flat.value_bytesOf y]
  refine Flat.value_congr fun k hk => ?_
  have at' := congrArg (fun l => l[k]?) h
  simpa [lowBytes, hk] using at'

theorem lowBytes_append {x y : BitVec 64} {bs cs : List Byte}
    (h : lowBytes 8 x ++ bs = lowBytes 8 y ++ cs) : x = y ∧ bs = cs := by
  obtain ⟨same, rest⟩ := append_inj h (by simp [lowBytes])
  exact ⟨lowBytes_inj same, rest⟩

theorem evalBytes_nameBytes (σ : Assignment) (name : String) :
    evalBytes σ (nameBytes name) = textBytes name := by
  have digit (n : Nat) : BitVec.ofNat 8 (n % 256) = BitVec.ofNat 8 n :=
    BitVec.eq_of_toNat_eq (by simp)
  simp [evalBytes, nameBytes, textBytes, byteVal, Term.eval, digit, Function.comp_def]

end BpfEquiv
