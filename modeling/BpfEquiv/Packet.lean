import BpfEquiv.Asm
import BpfEquiv.CallSpec
import BpfEquiv.Operators

/-!
Packet data between bpf_skb_store_bytes and bpf_skb_load_bytes.

A store goes to the packet array of the path; a load reads the array the packet had at
the start. A load therefore delivers what the packet holds exactly when the bytes it
reads are still the initial ones.
-/
namespace BpfEquiv
open Smt Hoare List Option

def hSkbStoreBytes : Int := 9
def hSkbLoadBytes : Int := 26

/-- One action on a path: a call of one of the two helpers with the registers it is made
with, or a store of the program in between. -/
inductive PacketOp where
  | storeBytes (regs : Regs)
  | loadBytes (regs : Regs)
  | write (ptr : Val) (size : Size) (val : Val)

/-- The action as the executor runs it; a call gives r0. -/
def PacketOp.exec (cfg : Config) (what : String) : PacketOp → M Val
  | .storeBytes regs => do
    let regs' ← helperCall cfg hSkbStoreBytes regs what
    pure (regs' 0)
  | .loadBytes regs => do
    let regs' ← helperCall cfg hSkbLoadBytes regs what
    pure (regs' 0)
  | .write ptr size val => do
    store cfg ptr size val
    pure (.data (bv64 0))

/-! The packet itself. -/

def packetOff (σ : Assignment) (regs : Regs) : BitVec 64 :=
  (((regs 2).scalar σ).setWidth 32).setWidth 64

def packetLen (σ : Assignment) (regs : Regs) : Nat := ((regs 4).scalar σ).toNat % 2 ^ 32

def regionBytes (cfg : Config) (σ : Assignment) (s : St) (region : Region) : BitVec 64 → Byte :=
  ((curArr cfg s region).getD zeroArr).eval σ

def byteAt (cfg : Config) (σ : Assignment) (s : St) (v : Val) (k : Nat) : Byte :=
  regionBytes cfg σ s v.target.1 (v.target.2.eval σ + BitVec.ofNat 64 k)

/-- The packet after an action: a store replaces the bytes of its window by the bytes of
its buffer. -/
def PacketOp.packet (cfg : Config) (σ : Assignment) (s : St) (packet : BitVec 64 → Byte) :
    PacketOp → BitVec 64 → Byte
  | .storeBytes regs =>
    Flat.write packet (packetOff σ regs) (packetLen σ regs) (byteAt cfg σ s (regs 3))
  | _ => packet

/-- A load on a path: its window, what the buffer holds after it, and what the packet holds
there. -/
structure PacketLoad where
  off : BitVec 64
  len : Nat
  delivered : List Byte
  held : List Byte

def PacketOp.loads (cfg : Config) (σ : Assignment) (after : St) (packet : BitVec 64 → Byte) :
    PacketOp → List PacketLoad
  | .loadBytes regs =>
    let off := packetOff σ regs
    let len := packetLen σ regs
    [⟨off, len, (List.range len).map (byteAt cfg σ after (regs 3)), windowBytes packet off len⟩]
  | _ => []

/-- The buffer of a call and the target of a store are not the packet itself: no pointer
of the executor points there. -/
def PacketOp.Outside : PacketOp → Prop
  | .storeBytes regs | .loadBytes regs => (regs 3).target.1 ≠ .skbdata
  | .write ptr _ _ => ptr.target.1 ≠ .skbdata

/-- A run of actions whose calls all succeed, with the packet beside it and the loads made
on the way. -/
inductive PacketRun (cfg : Config) (σ : Assignment) (what : String) :
    St → (BitVec 64 → Byte) → List PacketOp → List PacketLoad → St → (BitVec 64 → Byte) → Prop
  | done {s : St} {packet : BitVec 64 → Byte} : PacketRun cfg σ what s packet [] [] s packet
  | act {s t s' : St} {packet packet' : BitVec 64 → Byte} {op : PacketOp} {ops : List PacketOp}
      {loads : List PacketLoad} {r0 : Val} (outside : op.Outside)
      (ran : Returns (op.exec cfg what) s r0 t) (succeeded : r0.scalar σ = 0)
      (rest : PacketRun cfg σ what t (op.packet cfg σ s packet) ops loads s' packet') :
      PacketRun cfg σ what s packet (op :: ops) (op.loads cfg σ t packet ++ loads) s' packet'

/-! The helpers. -/

variable {cfg : Config} {σ : Assignment} {s s' : St} {what : String}

theorem regionBytes_of_curArr {r : Region} {arr : Term .arr} (h : curArr cfg s r = some arr) :
    regionBytes cfg σ s r = arr.eval σ := by
  rw [regionBytes, h, getD_some]

theorem regionBytes_congr {r : Region} (h : curArr cfg s' r = curArr cfg s r) :
    regionBytes cfg σ s' r = regionBytes cfg σ s r := by
  rw [regionBytes, h, regionBytes]

theorem storeByte_stored {v : Val} {k : Nat} {b : Term (.bv 8)} {u : Unit}
    (h : Returns (storeByte cfg (addrAdd v k) b) s u s') :
    Stored cfg v.target.1 s s' ∧ regionBytes cfg σ s' v.target.1 =
      Flat.write (regionBytes cfg σ s v.target.1) (v.target.2.eval σ + BitVec.ofNat 64 k) 1
        fun _ => b.eval σ := by
  simp only [storeByte] at h
  split at h
  · obtain ⟨_, _, stopped, _⟩ := h.bind
    exact stopped.throw
  obtain ⟨stored, ⟨arr, here, after⟩, _⟩ := storeData_stored h
  rw [addrAdd_region] at stored here after
  refine ⟨stored, ?_⟩
  rw [regionBytes_of_curArr after, regionBytes_of_curArr here, eval_storeBytes σ _ _ _ (by decide),
    addrAdd_off]
  refine Flat.write_congr fun j hj => ?_
  obtain rfl : j = 0 := by omega
  simp [byteOf, Term.eval]

/-- A successful load leaves the given bytes in its buffer. -/
theorem fillOrZero_stored {v : Val} {n : Nat} {ok : Term .bool} {byte : Nat → Term (.bv 8)}
    {u : Unit} (short : n ≤ 2 ^ 64) (held : ok.eval σ = true)
    (h : Returns (fillOrZero cfg v n ok byte) s u s') :
    Stored cfg v.target.1 s s' ∧ ∀ j < n, byteAt cfg σ s' v j = (byte j).eval σ := by
  refine returns_forM_range (I := fun k t => Stored cfg v.target.1 s t ∧
    ∀ j < k, byteAt cfg σ t v j = (byte j).eval σ) ⟨.refl s, nofun⟩ ?_ h
  intro k t t' u' small ⟨stored, before⟩ wrote
  obtain ⟨next, bytes⟩ := storeByte_stored (σ := σ) wrote
  refine ⟨stored.trans next, fun j hj => ?_⟩
  rw [byteAt, bytes]
  by_cases last : j = k
  · subst last
    have value := Flat.write_in (m := regionBytes cfg σ t v.target.1) (a := v.target.2.eval σ +
      BitVec.ofNat 64 j) (b := fun _ => (Term.ite ok (byte j) (byteVal 0)).eval σ) (k := 0) (n := 1)
      (by omega) (by omega)
    rw [BitVec.add_zero] at value
    rw [value]
    simp [Term.eval, held]
  · rw [Flat.write_out ?_]
    · exact before j (by omega)
    have far := Flat.ne_of_offset_ne (v.target.2.eval σ) (i := j) (j := k)
      (by omega) (by omega) last
    simp only [Nat.lt_one_iff]
    intro zero
    exact far (sub_eq_zero.mp (BitVec.eq_of_toNat_eq zero))

/-- A successful store replaces the window of the packet by the bytes of its buffer. -/
theorem skbStoreLoop_returns {src : Val} {off : Term (.bv 64)} {ok : Term .bool} {m n : Nat}
    {skb skb' : Term .arr} (room : m + n ≤ 2 ^ 64) (held : ok.eval σ = true)
    (h : Returns (skbStoreLoop cfg src off ok (List.range' m n) skb) s skb' s') :
    Cached cfg s s' ∧ skb'.eval σ = Flat.write (skb.eval σ) (off.eval σ + BitVec.ofNat 64 m) n
      fun j => byteAt cfg σ s src (m + j) := by
  induction n generalizing m s skb with
  | zero =>
    obtain ⟨rfl, rfl⟩ := h.pure
    exact ⟨.refl _, (Flat.write_zero _ _ _).symm⟩
  | succ n ih =>
    rw [List.range'_succ] at h
    obtain ⟨b, t, read, rest⟩ := h.bind
    obtain ⟨cached, arr, here, value⟩ := loadByte_returns read
    obtain ⟨cached', bytes⟩ := ih (by omega) rest
    refine ⟨cached.trans cached', ?_⟩
    have one : (Term.store skb (off + bv64 m) (.ite ok b (.select skb (off + bv64 m)))).eval σ =
        Flat.write (skb.eval σ) (off.eval σ + BitVec.ofNat 64 m) 1 fun _ =>
          byteAt cfg σ s src m := by
      rw [Flat.write_succ _ _ _ (by decide), Flat.write_zero]
      simp only [Term.eval, eval_bv64, held, cond_true, value σ, byteAt,
        regionBytes_of_curArr here, BitVec.add_zero]
      rfl
    have next : off.eval σ + BitVec.ofNat 64 (m + 1) =
        off.eval σ + BitVec.ofNat 64 m + BitVec.ofNat 64 1 := by
      rw [BitVec.add_assoc, BitVec.ofNat_add]
    rw [bytes, one, next, Flat.write_append _ _ _ _ (by omega), Nat.add_comm 1]
    refine Flat.write_congr fun j _ => ?_
    simp only [byteAt, regionBytes, cached.arrs]
    split
    · rename_i first
      obtain rfl : j = 0 := by omega
      rfl
    · rename_i later
      rw [show m + 1 + (j - 1) = m + j by omega]

theorem requireSkb_returns {regs : Regs} {name : String} {u : Unit}
    (h : Returns (requireSkb regs name what) s u s') : s = s' := by
  unfold requireSkb at h
  split at h
  · rw [returns_get_bind] at h
    split at h
    · exact h.pure.2.symm
    · exact h.throw
  · exact h.throw

theorem packetOff_eval {regs : Regs} {t : Term (.bv 64)} (h : regs 2 = .data t) :
    (zext64 (lo32 t)).eval σ = packetOff σ regs := by
  simp only [zext64, Term.eval, eval_lo32, packetOff, h, Val.scalar]

theorem isZero64_eval {t : Term (.bv 64)} (h : t.eval σ = 0) : (isZero64 t).eval σ = true := by
  simp [isZero64, Term.eval, BvRel.eval, h, bv64]

theorem skbStoreBytes_returns {regs : Regs} {ret : Term (.bv 64)} (succeeded : ret.eval σ = 0)
    (h : Returns (skbStoreBytes cfg regs what) s ret s') :
    (∀ r, initTerm cfg s'.exec r = initTerm cfg s.exec r) ∧
      regionBytes cfg σ s' .skbdata = Flat.write (regionBytes cfg σ s .skbdata) (packetOff σ regs)
        (packetLen σ regs) (byteAt cfg σ s (regs 3)) := by
  obtain ⟨_, _, required, h₁⟩ := h.bind
  obtain rfl := requireSkb_returns required
  obtain ⟨t, _, data, h₂⟩ := h₁.bind
  obtain ⟨offset, rfl⟩ := needData_returns data
  obtain ⟨n, _, concrete, h₃⟩ := h₂.bind
  obtain ⟨rfl, length⟩ := concreteU64_returns concrete
  have len : packetLen σ regs = n % 2 ^ 32 := by rw [packetLen, length]
  dsimp only at h₃
  split at h₃
  · obtain ⟨_, _, stopped, _⟩ := h₃.bind
    exact stopped.throw
  next fits =>
  obtain ⟨skb, t₁, packet, h₄⟩ := h₃.bind
  obtain ⟨here, _, cached⟩ := regionArray_cached packet
  obtain ⟨skb', t₂, stored, h₅⟩ := h₄.bind
  rw [modifyMem, returns_modify_bind] at h₅
  obtain ⟨rfl, rfl⟩ := h₅.pure
  rw [range_eq_range'] at stored
  obtain ⟨cached', bytes⟩ := skbStoreLoop_returns (by omega) (isZero64_eval succeeded) stored
  have both := cached.trans cached'
  refine ⟨both.init, ?_⟩
  rw [@regionBytes_of_curArr cfg σ _ .skbdata skb' (by simp [curArr, Mem.setArr]), bytes,
    regionBytes_of_curArr here, packetOff_eval offset, len, BitVec.add_zero]
  refine Flat.write_congr fun j _ => ?_
  simp only [byteAt, regionBytes, cached.arrs, Nat.zero_add]

def initPacket (cfg : Config) (σ : Assignment) (s : St) : BitVec 64 → Byte :=
  ((initTerm cfg s.exec .skbdata).getD zeroArr).eval σ

/-- A successful load delivers the bytes of the initial packet. -/
theorem skbLoadBytes_returns {regs : Regs} {ret : Term (.bv 64)} (succeeded : ret.eval σ = 0)
    (h : Returns (skbLoadBytes cfg regs what) s ret s') :
    Stored cfg (regs 3).target.1 s s' ∧ ∀ j < packetLen σ regs,
      byteAt cfg σ s' (regs 3) j = initPacket cfg σ s (packetOff σ regs + BitVec.ofNat 64 j) := by
  obtain ⟨_, _, required, h₁⟩ := h.bind
  obtain rfl := requireSkb_returns required
  obtain ⟨t, _, data, h₂⟩ := h₁.bind
  obtain ⟨offset, rfl⟩ := needData_returns data
  obtain ⟨n, _, concrete, h₃⟩ := h₂.bind
  obtain ⟨rfl, length⟩ := concreteU64_returns concrete
  have len : packetLen σ regs = n % 2 ^ 32 := by rw [packetLen, length]
  dsimp only at h₃
  split at h₃
  · obtain ⟨_, _, stopped, _⟩ := h₃.bind
    exact stopped.throw
  rw [returns_get_bind] at h₃
  obtain ⟨_, _, filled, h₄⟩ := h₃.bind
  obtain ⟨rfl, rfl⟩ := h₄.pure
  obtain ⟨stored, bytes⟩ := fillOrZero_stored (by omega) (isZero64_eval succeeded) filled
  refine ⟨stored, fun j hj => ?_⟩
  rw [bytes j (len ▸ hj)]
  have init : initTerm cfg s.exec .skbdata = s.exec.sharedArr .skbdata := by
    unfold initTerm
    split <;> simp_all
  simp only [Term.eval, eval_bv64, initPacket, init, ← packetOff_eval offset]
  rfl

/-! Sequences. -/

/-- One action: the initial packet stays, the packet of the path is the packet itself, and
a load delivers from the initial one. -/
theorem PacketOp.exec_returns {op : PacketOp} {r0 : Val} (outside : op.Outside)
    (succeeded : r0.scalar σ = 0) (h : Returns (op.exec cfg what) s r0 s') :
    initPacket cfg σ s' = initPacket cfg σ s ∧
      regionBytes cfg σ s' .skbdata = op.packet cfg σ s (regionBytes cfg σ s .skbdata) ∧
      ∀ packet, ∀ l ∈ op.loads cfg σ s' packet,
        l.delivered = windowBytes (initPacket cfg σ s) l.off l.len := by
  cases op with
  | storeBytes regs =>
    obtain ⟨regs', _, called, last⟩ := h.bind
    obtain ⟨rfl, rfl⟩ := last.pure
    obtain ⟨ret, t, n, returned, result, rfl⟩ := helperCall_returns called
    rw [result] at succeeded
    obtain ⟨init, packet⟩ := skbStoreBytes_returns succeeded returned
    refine ⟨?_, packet, nofun⟩
    simp only [initPacket]
    rw [← show initTerm cfg t.exec .skbdata = initTerm cfg s.exec .skbdata from init _]
    rfl
  | loadBytes regs =>
    obtain ⟨regs', _, called, last⟩ := h.bind
    obtain ⟨rfl, rfl⟩ := last.pure
    obtain ⟨ret, t, n, returned, result, rfl⟩ := helperCall_returns called
    rw [result] at succeeded
    obtain ⟨stored, bytes⟩ := skbLoadBytes_returns succeeded returned
    refine ⟨?_, regionBytes_congr (stored.arrs _ (Ne.symm outside)), fun packet l member => ?_⟩
    · simp only [initPacket]
      rw [← show initTerm cfg t.exec .skbdata = initTerm cfg s.exec .skbdata from stored.init _]
      rfl
    · obtain rfl := mem_singleton.mp member
      exact map_congr_left fun j inside => bytes j (mem_range.mp inside)
  | write ptr size val =>
    obtain ⟨_, _, wrote, last⟩ := h.bind
    obtain ⟨rfl, rfl⟩ := last.pure
    have stored := store_stored wrote
    refine ⟨?_, regionBytes_congr (stored.arrs _ (Ne.symm outside)), nofun⟩
    simp only [initPacket, stored.init]

theorem PacketRun.delivers {ops : List PacketOp} {loads : List PacketLoad}
    {packet packet' : BitVec 64 → Byte} (run : PacketRun cfg σ what s packet ops loads s' packet')
    (start : regionBytes cfg σ s .skbdata = packet) :
    (∀ l ∈ loads, l.delivered = windowBytes (initPacket cfg σ s) l.off l.len) ∧
      regionBytes cfg σ s' .skbdata = packet' := by
  induction run with
  | done => exact ⟨nofun, start⟩
  | act outside ran succeeded rest ih =>
    obtain ⟨init, packet, loads⟩ := PacketOp.exec_returns outside succeeded ran
    obtain ⟨later, last⟩ := ih (start ▸ packet)
    refine ⟨fun l member => ?_, last⟩
    rcases mem_append.mp member with here | after
    · exact loads _ l here
    · rw [later l after, init]

/-- On a path whose packet calls all succeed, the packet array is the packet, and a load
delivers what the packet holds at the time exactly when the packet holds there what it
held when the path began. -/
theorem packet_loads_deliver (cfg : Config) (σ : Assignment) (what : String) (s s' : St)
    (packet' : BitVec 64 → Byte) (ops : List PacketOp) (loads : List PacketLoad)
    (start : curArr cfg s .skbdata = initTerm cfg s.exec .skbdata)
    (run : PacketRun cfg σ what s (initPacket cfg σ s) ops loads s' packet') :
    (∀ l ∈ loads, l.delivered = l.held ↔ l.held = windowBytes (initPacket cfg σ s) l.off l.len) ∧
      regionBytes cfg σ s' .skbdata = packet' := by
  obtain ⟨delivered, last⟩ := run.delivers (by rw [regionBytes, start, initPacket])
  refine ⟨fun l member => ?_, last⟩
  rw [delivered l member]
  exact eq_comm

/-! Runs on given actions. -/

instance (op : PacketOp) : Decidable op.Outside :=
  match op with
  | .storeBytes regs | .loadBytes regs => inferInstanceAs (Decidable ((regs 3).target.1 ≠ .skbdata))
  | .write ptr _ _ => inferInstanceAs (Decidable (ptr.target.1 ≠ .skbdata))

/-- The loads of a run, if every action returns and every call succeeds. -/
def packetRun? (cfg : Config) (σ : Assignment) (what : String) :
    List PacketOp → St → (BitVec 64 → Byte) → Option (List PacketLoad)
  | [], _, _ => some []
  | op :: ops, s, packet =>
    match (op.exec cfg what).run s with
    | .ok (r0, t) =>
      if op.Outside ∧ r0.scalar σ = 0 then
        (packetRun? cfg σ what ops t (op.packet cfg σ s packet)).map
          (op.loads cfg σ t packet ++ ·)
      else none
    | .error _ => none

theorem packetRun?_run {ops : List PacketOp} {packet : BitVec 64 → Byte} {loads : List PacketLoad}
    (h : packetRun? cfg σ what ops s packet = some loads) :
    ∃ s' packet', PacketRun cfg σ what s packet ops loads s' packet' := by
  induction ops generalizing s packet loads with
  | nil =>
    cases h
    exact ⟨s, packet, .done⟩
  | cons op ops ih =>
    simp only [packetRun?] at h
    split at h
    · rename_i r0 t ran
      split at h
      · rename_i fine
        obtain ⟨later, found, rfl⟩ := map_eq_some_iff.mp h
        obtain ⟨s', packet', rest⟩ := ih found
        exact ⟨s', packet', .act fine.1 ran fine.2 rest⟩
      · cases h
    · cases h

/-- Registers of a call on one byte of the packet, with the buffer on the stack. -/
def packetRegs (off buf : Int) : Regs := fun i =>
  [.data (bv64 0), .ptr ⟨.ctx, bv64 0⟩, .data (bv64 off), .ptr ⟨.stack "A" .main, bv64 buf⟩,
    .data (bv64 1), .data (bv64 0)].getD i (.data (bv64 0))

/-- The byte 1 is stored at offset zero of the packet, then a byte is loaded. -/
def storeThenLoad (off : Int) : List PacketOp :=
  [.write (.ptr ⟨.stack "A" .main, bv64 504⟩) .b (.data (bv64 1)), .storeBytes (packetRegs 0 504),
    .loadBytes (packetRegs off 508)]

def packetStart : St := ⟨.empty, .zero, baseExec⟩

def packetLoads (off : Int) : Option (List PacketLoad) :=
  packetRun? (plainConfig "tc" []) default "" (storeThenLoad off) packetStart
    (initPacket (plainConfig "tc" []) default packetStart)

theorem packet_loads_deliver_apart : ∃ l : PacketLoad, packetLoads 1 = some [l] ∧
    l.delivered = l.held := by
  have one : (packetLoads 1).map (·.map fun l => (l.off, l.len, l.held)) = some [(1, 1, [0])] := by
    decide +kernel
  obtain ⟨loads, found, shape⟩ := map_eq_some_iff.mp one
  obtain ⟨l, rfl, values⟩ := map_eq_singleton_iff.mp shape
  obtain ⟨s', packet', run⟩ := packetRun?_run found
  have exact' := (packet_loads_deliver _ _ _ _ _ _ _ _ rfl run).1 l (.head _)
  refine ⟨l, found, exact'.mpr ?_⟩
  simp only [Prod.mk.injEq] at values
  rw [values.1, values.2.1, values.2.2]
  rfl

/-- r0 = *(u8 *)(r10 - 4) after a store of the byte 1 at packet offset 0 and a load from
there, in one order or the other. -/
def packetWords (loadFirst : Bool) : List Word :=
  let call (buf helper : Int) : List Word :=
    [word 0xbf 1 6 0 0, word 0xb7 2 0 0 0, word 0xbf 3 10 0 0, word 0x07 3 0 0 buf,
      word 0xb7 4 0 0 1, word 0xb7 5 0 0 0, word 0x85 0 0 0 helper]
  [word 0xbf 6 1 0 0, word 0x72 10 0 (-8) 1] ++
    (if loadFirst then call (-4) 26 ++ call (-8) 9 else call (-8) 9 ++ call (-4) 26) ++
    [word 0x71 0 10 (-4) 0, word 0x95 0 0 0 0]

def packetSide (loadFirst : Bool) : Side :=
  let ws := packetWords loadFirst
  objectSide (object "tc" ws [] [] none) "tc" ws

/-- A load behind a store of the same byte delivers the byte from before the store, and a
program that loads first is declared EQUIV to one that loads afterwards. -/
theorem packet_load_misses_store :
    (∃ l : PacketLoad, packetLoads 0 = some [l] ∧ l.held = [1] ∧ l.delivered = [0]) ∧
      verdictOn (packetSide true) (packetSide false) = some .equiv := by
  refine ⟨?_, by decide +kernel⟩
  have one : (packetLoads 0).map (·.map fun l => (l.held, l.delivered)) = some [([1], [0])] := by
    decide +kernel
  obtain ⟨loads, found, shape⟩ := map_eq_some_iff.mp one
  obtain ⟨l, rfl, values⟩ := map_eq_singleton_iff.mp shape
  exact ⟨l, found, congrArg Prod.fst values, congrArg Prod.snd values⟩

end BpfEquiv
