import Mathlib.Data.BitVec
import Mathlib.Tactic.SplitIfs

/-!
The GUE header in `test_cls_redirect`, `test_cls_redirect_subprogs` and `test_cls_redirect_dynptr`:
what is accepted, and where the parse cursor stands when the verdict on the inner packet is taken.
The three programs differ in their cursor only. The map of the metrics has its one element.
-/
namespace BpfEquiv.ClsRedirect

def sizeofEth : Nat := 14
def sizeofIp : Nat := 20
def sizeofGre : Nat := 4
def sizeofEncap : Nat := 50
def tcActOk : Int := 0
def tcActShot : Int := 2

/-- A packet: its bytes, how many there are and how many are linear after the pull. -/
structure Skb where
  protocol : BitVec 32
  pulled : Bool
  len : Nat
  linear : Nat
  byte : Nat → BitVec 8

def Skb.u16 (skb : Skb) (off : Nat) : BitVec 16 := skb.byte (off + 1) ++ skb.byte off

def Skb.u32 (skb : Skb) (off : Nat) : BitVec 32 := skb.u16 (off + 2) ++ skb.u16 off

section Headers

variable (skb : Skb)

def ipIhl : BitVec 8 := skb.byte 14 &&& 0xf#8
def ipv4IsFragment : Bool := skb.u16 20 &&& 0x0020#16 ≠ 0 ∨ skb.u16 20 &&& 0xff1f#16 ≠ 0
def gueHlen : BitVec 8 := skb.byte 42 &&& 0x1f#8
def gueControl : BitVec 8 := skb.byte 42 >>> 5 &&& 1#8
def gueVariant : BitVec 8 := skb.byte 42 >>> 6 &&& 3#8
def gueProtoCtype : BitVec 8 := skb.byte 43
def gueFlags : BitVec 16 := skb.u16 44
def unigueVersion : BitVec 8 := skb.byte 46 >>> 4 &&& 0xf#8
def unigueReserved : BitVec 8 := skb.byte 47
def unigueNextHop : BitVec 8 := skb.byte 48
def unigueHopCount : BitVec 8 := skb.byte 49

end Headers

/-- The counters that the entry point changes. -/
inductive Counter where
  | processedPacketsTotal | acceptedPacketsTotalLastHop | errorsTotalFragmentedIp
  | errorsTotalMalformedEncapsulation | errorsTotalUnknownL3Proto
  deriving DecidableEq

abbrev Metrics := Counter → BitVec 64

def bump (m : Metrics) (c : Counter) : Metrics := Function.update m c (m c + 1)

/-- The cursor of a translation: over the headers, over a hop, and with a hop read. -/
structure Cursor where
  assign : Skb → Option Nat
  skip : Skb → Nat → Option Nat
  copy : Skb → Nat → Option (BitVec 32 × Nat)

def bufCopy (skb : Skb) (off : Nat) : Option (BitVec 32 × Nat) :=
  if off + 4 ≤ skb.len then some (skb.u32 off, off + 4) else none

def buf : Cursor where
  assign skb := if sizeofEncap ≤ skb.linear then some sizeofEncap else none
  skip skb off := if skb.len < off + 4 then none else some (off + 4)
  copy := bufCopy

def dynptr : Cursor where
  assign skb := if sizeofEncap ≤ skb.len then some sizeofEncap else none
  skip _ off := some (off + 4)
  copy := bufCopy

section Program

variable (cur : Cursor) (skb : Skb)

def skipNextHops (off : Nat) (n : BitVec 8) : Option Nat :=
  if n = 1 then cur.skip skb off else if n = 0 then some off else none

/-- The next hop and the cursor behind the list; `none` is `TC_ACT_SHOT`. -/
def getNextHop (off : Nat) : Option (BitVec 32 × Nat) :=
  if unigueHopCount skb < unigueNextHop skb then none else do
    let off ← skipNextHops cur skb off (unigueNextHop skb)
    if unigueNextHop skb = unigueHopCount skb then pure (0, off) else
    let (hop, off) ← cur.copy skb off
    let off ← skipNextHops cur skb off (unigueHopCount skb - unigueNextHop skb - 1)
    pure (hop, off)

/-- Up to the verdict on the inner packet, which is taken from the cursor on. -/
inductive Outcome where
  | ret (code : Int)
  | acceptLocally
  | verdict (off : Nat) (nextHop : BitVec 32)
  deriving DecidableEq

/-- `hops` is set once the list of hops is looked at. -/
structure Result where
  metrics : Metrics
  hops : Bool
  outcome : Outcome

def malformed (m : Metrics) : Result :=
  ⟨bump m .errorsTotalMalformedEncapsulation, false, .ret tcActShot⟩

/-- `cls_redirect` once the packet is known to be for the endpoint. -/
def gueHeader (m : Metrics) (off : Nat) : Result :=
  if gueVariant skb ≠ 0 then malformed m else
  if gueControl skb ≠ 0 then malformed m else
  if gueFlags skb ≠ 0 then malformed m else
  if gueHlen skb ≠ 1 + unigueHopCount skb then malformed m else
  if unigueVersion skb ≠ 0 then malformed m else
  if unigueReserved skb ≠ 0 then ⟨m, false, .ret tcActShot⟩ else
  match getNextHop cur skb off with
  | none => ⟨m, true, .ret tcActShot⟩
  | some (nextHop, off) =>
    if nextHop = 0 then ⟨bump m .acceptedPacketsTotalLastHop, true, .acceptLocally⟩ else
    if gueProtoCtype skb = 4 ∨ gueProtoCtype skb = 41 then ⟨m, true, .verdict off nextHop⟩ else
    ⟨bump m .errorsTotalUnknownL3Proto, true, .ret tcActShot⟩

/-- The endpoint; address and port as they lie in memory. -/
structure Endpoint where
  encapsulationIp : BitVec 32
  encapsulationPort : BitVec 16

def clsRedirect (e : Endpoint) (m : Metrics) : Result :=
  let m := bump m .processedPacketsTotal
  if skb.protocol ≠ 0x0008 then ⟨m, false, .ret tcActOk⟩ else
  if skb.pulled = false then ⟨m, false, .ret tcActOk⟩ else
  match cur.assign skb with
  | none => ⟨m, false, .ret tcActOk⟩
  | some off =>
    if ipIhl skb ≠ 5 then ⟨m, false, .ret tcActOk⟩ else
    if skb.u32 30 ≠ e.encapsulationIp ∨ skb.byte 23 ≠ 17 then ⟨m, false, .ret tcActOk⟩ else
    if skb.u16 36 ≠ e.encapsulationPort then ⟨m, false, .ret tcActOk⟩ else
    if ipv4IsFragment skb then ⟨bump m .errorsTotalFragmentedIp, false, .ret tcActShot⟩ else
    gueHeader cur skb m off

/-- An unfragmented packet for the endpoint. -/
structure Addressed (e : Endpoint) : Prop where
  protocol : skb.protocol = 0x0008
  pulled : skb.pulled = true
  linear : sizeofEncap ≤ skb.linear
  len : sizeofEncap ≤ skb.len
  ihl : ipIhl skb = 5
  udp : skb.u32 30 = e.encapsulationIp ∧ skb.byte 23 = 17
  port : skb.u16 36 = e.encapsulationPort
  whole : ipv4IsFragment skb = false

end Program

inductive Translation where
  | pointer | subprogs | dynptr

def Translation.cursor : Translation → Cursor
  | .pointer | .subprogs => buf
  | .dynptr => ClsRedirect.dynptr

def payloadOff (skb : Skb) : Nat := sizeofEncap + 4 * (unigueHopCount skb).toNat

/-- What `accept_locally` and `forward_with_gre` give to `bpf_skb_adjust_room`. -/
def acceptRoom (skb : Skb) : Int := -((payloadOff skb : Int) - sizeofEth)
def greRoom (skb : Skb) : Int := sizeofGre - ((payloadOff skb : Int) - sizeofEth - sizeofIp)

/-- The length field is one word and the hops, as numbers. -/
def LengthRight (skb : Skb) : Prop := (gueHlen skb).toNat = 1 + (unigueHopCount skb).toNat

/-- What is asked of a run: the hops are read behind a right length only, a wrong one is counted as
malformed and nothing else, and at the verdict the cursor is where the packet is cut later. -/
structure Accepts (skb : Skb) (m : Metrics) (res : Result) : Prop where
  hops : res.hops = true → LengthRight skb
  wrong : ¬ LengthRight skb → res.outcome = .ret tcActShot ∧
    res.metrics = bump (bump m .processedPacketsTotal) .errorsTotalMalformedEncapsulation
  cursor : ∀ off nextHop, res.outcome = .verdict off nextHop → off = payloadOff skb ∧
    acceptRoom skb = sizeofEth - off ∧ greRoom skb = sizeofGre + sizeofEth + sizeofIp - off

/-- The sum of the two bytes wraps to zero, and nothing else is wrong with the header. -/
def Wraps (skb : Skb) : Prop :=
  gueHlen skb = 0 ∧ unigueHopCount skb = 255 ∧ gueVariant skb = 0 ∧ gueControl skb = 0 ∧
    gueFlags skb = 0 ∧ unigueVersion skb = 0

variable {skb : Skb} {e : Endpoint} {m : Metrics} {off out : Nat} {hop : BitVec 32} {n : BitVec 8}

theorem clsRedirect_addressed (t : Translation) (addressed : Addressed skb e) :
    clsRedirect t.cursor skb e m =
      gueHeader t.cursor skb (bump m .processedPacketsTotal) sizeofEncap := by
  have assigned : t.cursor.assign skb = some sizeofEncap := by
    cases t with
    | pointer | subprogs => exact if_pos addressed.linear
    | dynptr => exact if_pos addressed.len
  simp only [clsRedirect, assigned, addressed.protocol, addressed.pulled, addressed.ihl,
    addressed.udp,
    addressed.port, addressed.whole, ne_eq, not_true_eq_false, or_self, if_false,
    Bool.true_eq_false,
    Bool.false_eq_true]

theorem skip_eq (t : Translation) (h : t.cursor.skip skb off = some out) : out = off + 4 := by
  cases t with
  | pointer | subprogs =>
    simp only [Translation.cursor, buf] at h
    split at h
    · cases h
    · exact (Option.some.inj h).symm
  | dynptr => exact (Option.some.inj h).symm

theorem skipNextHops_eq (t : Translation) (h : skipNextHops t.cursor skb off n = some out) :
    out = off + 4 * n.toNat := by
  unfold skipNextHops at h
  split_ifs at h with one zero
  · rw [one]
    exact skip_eq t h
  · rw [zero]
    exact (Option.some.inj h).symm

theorem copy_eq (t : Translation) (h : t.cursor.copy skb off = some (hop, out)) :
    out = off + 4 := by
  have copied : bufCopy skb off = some (hop, out) := by cases t <;> exact h
  unfold bufCopy at copied
  split at copied
  · cases copied
    rfl
  · cases copied

/-- A hop that is not the last leaves the cursor behind the list. -/
theorem getNextHop_cursor (t : Translation) (h : getNextHop t.cursor skb off = some (hop, out))
    (nonzero : hop ≠ 0) : out = off + 4 * (unigueHopCount skb).toNat := by
  unfold getNextHop at h
  split at h
  · cases h
  rename_i inside
  obtain ⟨off₁, skipped, h⟩ := Option.bind_eq_some_iff.mp h
  split at h
  · cases h
    exact absurd rfl nonzero
  rename_i differs
  obtain ⟨⟨hop', off₂⟩, copied, h⟩ := Option.bind_eq_some_iff.mp h
  obtain ⟨off₃, skipped', h⟩ := Option.bind_eq_some_iff.mp h
  cases h
  rw [skipNextHops_eq t skipped', copy_eq t copied, skipNextHops_eq t skipped]
  bv_omega

/-- With 255 hops the list is never read to its end. -/
theorem getNextHop_wraps (t : Translation) (many : unigueHopCount skb = 255) :
    getNextHop t.cursor skb off = none := by
  by_contra some_
  obtain ⟨⟨hop, out⟩, h⟩ := Option.ne_none_iff_exists'.mp some_
  unfold getNextHop at h
  split at h
  · cases h
  obtain ⟨off₁, skipped, h⟩ := Option.bind_eq_some_iff.mp h
  have few : unigueNextHop skb = 1 ∨ unigueNextHop skb = 0 := by
    unfold skipNextHops at skipped
    split_ifs at skipped with one zero
    · exact .inl one
    · exact .inr zero
  rw [many] at h
  rcases few with is | is
  all_goals
    rw [is] at h
    obtain ⟨⟨hop', off₂⟩, copied, h⟩ := Option.bind_eq_some_iff.mp h
    cases h

theorem lengthRight_iff (skb : Skb) : LengthRight skb ↔
    gueHlen skb = 1 + unigueHopCount skb ∧ ¬ (gueHlen skb = 0 ∧ unigueHopCount skb = 255) := by
  unfold LengthRight
  bv_omega

theorem accepts_malformed : Accepts skb m (malformed (bump m .processedPacketsTotal)) :=
  ⟨nofun, fun _ => ⟨rfl, rfl⟩, nofun⟩

theorem accepts_right (t : Translation) (right : LengthRight skb) :
    Accepts skb m (gueHeader t.cursor skb (bump m .processedPacketsTotal) sizeofEncap) := by
  refine ⟨fun _ => right, fun wrong => absurd right wrong, fun off nextHop is => ?_⟩
  have cursor : off = payloadOff skb := by
    unfold gueHeader at is
    cases found : getNextHop t.cursor skb sizeofEncap with
    | none =>
      rw [found] at is
      split_ifs at is <;> cases is
    | some hop =>
      obtain ⟨hop, out⟩ := hop
      rw [found] at is
      dsimp only at is
      split_ifs at is <;> cases is
      exact getNextHop_cursor t found ‹_›
  refine ⟨cursor, ?_, ?_⟩
  · rw [cursor, acceptRoom]
    omega
  · rw [cursor, greRoom]
    omega

/-- A header whose length wraps is let through, and dropped without being counted. -/
theorem gueHeader_wraps (t : Translation) (wraps : Wraps skb) :
    (gueHeader t.cursor skb m off).metrics = m := by
  obtain ⟨hlen, many, variant, control, flags, version⟩ := wraps
  have sum : gueHlen skb = 1 + unigueHopCount skb := by rw [hlen, many]; rfl
  simp only [gueHeader, variant, control, flags, version, sum, getNextHop_wraps t many, ne_eq,
    not_true_eq_false, if_false]
  split <;> rfl

/-- The header is treated as said just if it is not one whose length wraps. -/
theorem gue_acceptance_iff (t : Translation) (e : Endpoint) (m : Metrics) (skb : Skb)
    (addressed : Addressed skb e) : Accepts skb m (clsRedirect t.cursor skb e m) ↔ ¬ Wraps skb := by
  rw [clsRedirect_addressed t addressed]
  constructor
  · intro accepts wraps
    have wrong : ¬ LengthRight skb := fun right =>
      ((lengthRight_iff skb).mp right).2 ⟨wraps.1, wraps.2.1⟩
    have counted := congrFun ((accepts.wrong wrong).2.symm.trans (gueHeader_wraps t wraps))
      .errorsTotalMalformedEncapsulation
    rw [bump, Function.update_self] at counted
    bv_omega
  · intro fits
    by_cases right : LengthRight skb
    · exact accepts_right t right
    have refused : gueHeader t.cursor skb (bump m .processedPacketsTotal) sizeofEncap =
        malformed (bump m .processedPacketsTotal) := by
      unfold gueHeader
      split_ifs with variant control flags hlen version reserved <;> try rfl
      all_goals
        simp only [ne_eq, Decidable.not_not] at variant control flags hlen version
        have zero : gueHlen skb = 0 ∧ unigueHopCount skb = 255 := by
          by_contra other
          exact right ((lengthRight_iff skb).mpr ⟨hlen, other⟩)
        exact absurd ⟨zero.1, zero.2, variant, control, flags, version⟩ fits
    rw [refused]
    exact accepts_malformed

/-- A packet to port 6080 of 10.0.0.1 with the given length field and number of hops. -/
def packetWith (hlen hops : BitVec 8) : Skb where
  protocol := 0x0008
  pulled := true
  len := 100
  linear := 100
  byte off := if off = 14 then 0x45 else if off = 23 then 17 else if off = 30 then 10 else
    if off = 33 then 1 else if off = 36 then 0x17 else if off = 37 then 0xc0 else
    if off = 42 then hlen else if off = 49 then hops else 0

def endpoint : Endpoint := ⟨0x0100000a, 0xc017⟩

theorem addressed_packetWith (hlen hops : BitVec 8) :
    Addressed (packetWith hlen hops) endpoint := by
  constructor <;> simp [ipIhl, ipv4IsFragment, Skb.u16, Skb.u32, packetWith, endpoint, sizeofEncap]

theorem gue_acceptance_one : Addressed (packetWith 2 1) endpoint ∧
    Accepts (packetWith 2 1) (fun _ => 0)
      (clsRedirect Translation.pointer.cursor (packetWith 2 1) endpoint fun _ => 0) := by
  have addressed := addressed_packetWith 2 1
  exact ⟨addressed, (gue_acceptance_iff .pointer endpoint _ _ addressed).mpr
    (by unfold Wraps; decide)⟩

/-- A length of zero for 255 hops: all three programs read the list of hops, drop the packet and
count no error. -/
theorem gue_length_wraps : Addressed (packetWith 0 255) endpoint ∧
    ¬ LengthRight (packetWith 0 255) ∧ [Translation.pointer, .subprogs, .dynptr].all (fun t =>
      let res := clsRedirect t.cursor (packetWith 0 255) endpoint fun _ => 0
      res.hops && decide (res.outcome = .ret tcActShot) &&
        decide (res.metrics .errorsTotalMalformedEncapsulation = 0)) = true :=
  ⟨addressed_packetWith 0 255, by unfold LengthRight; decide, by decide⟩

end BpfEquiv.ClsRedirect
