import Mathlib.Data.BitVec
import Mathlib.Data.Fin.VecNotation
import Mathlib.Tactic.SplitIfs

/-!
SYN cookies of `test_tcp_custom_syncookie`: what is encoded from a SYN into the sequence number
and the time stamp of the answer, and what is decoded from the ACK of the connection.
-/
namespace BpfEquiv.SynCookie

abbrev Word := BitVec 32

def cookieMask : Word := 0xff
def bpfSyncookieWscaleMask : Word := 15
def bpfSyncookieSack : Word := 16
def bpfSyncookieEcn : Word := 32
def mssLocalIpv4 : BitVec 16 := 65495
def mssLocalIpv6 : BitVec 16 := 65476

def msstab4 : Fin 4 → BitVec 16 := ![536, 1300, 1460, mssLocalIpv4]
def msstab6 : Fin 4 → BitVec 16 := ![1280 - 60, 1480 - 60, 9000 - 60, mssLocalIpv6]

/-- The header that was found; addresses are words as they lie in memory. -/
inductive Ip where
  | ipv4 (saddr daddr : Word)
  | ipv6 (saddr daddr : Fin 4 → Word)

/-- `seq` and `ackSeq` are in host order, the ports as they lie in memory. -/
structure Tcp where
  source : BitVec 16
  dest : BitVec 16
  seq : Word
  ackSeq : Word
  flags : BitVec 8

structure Attrs where
  rcvTsval : Word
  rcvTsecr : Word
  mss : BitVec 16
  rcvWscale : BitVec 8
  sndWscale : BitVec 8
  ecnOk : BitVec 8
  wscaleOk : BitVec 8
  sackOk : BitVec 8
  tstampOk : BitVec 8

structure Ctx where
  ip : Ip
  tcp : Tcp
  attrs : Attrs
  cookie : Word

def tcpEce (tcp : Tcp) : Bool := tcp.flags &&& 0x40 ≠ 0
def tcpCwr (tcp : Tcp) : Bool := tcp.flags &&& 0x80 ≠ 0

/-! The hash of `lib/siphash.c`. -/

structure Sip where
  v0 : BitVec 64
  v1 : BitVec 64
  v2 : BitVec 64
  v3 : BitVec 64

def siphashRound (s : Sip) : Sip :=
  let a := s.v0 + s.v1
  let b := s.v1.rotateLeft 13 ^^^ a
  let a := a.rotateLeft 32
  let c := s.v2 + s.v3
  let d := s.v3.rotateLeft 16 ^^^ c
  let a := a + d
  let d := d.rotateLeft 21 ^^^ a
  let c := c + b
  let b := b.rotateLeft 17 ^^^ c
  ⟨a, b, c.rotateLeft 32, d⟩

def siphashAbsorb (s : Sip) (word : BitVec 64) : Sip :=
  let s := siphashRound (siphashRound { s with v3 := s.v3 ^^^ word })
  { s with v0 := s.v0 ^^^ word }

def siphash2u64 (first second key0 key1 : BitVec 64) : BitVec 64 :=
  let start : Sip := ⟨0x736f6d6570736575 ^^^ key0, 0x646f72616e646f6d ^^^ key1,
    0x6c7967656e657261 ^^^ key0, 0x7465646279746573 ^^^ key1⟩
  let s := [first, second, 16 <<< 56].foldl siphashAbsorb start
  let s := siphashRound^[4] { s with v2 := s.v2 ^^^ 0xff }
  (s.v0 ^^^ s.v1) ^^^ (s.v2 ^^^ s.v3)

/-! The two sides of the cookie. -/

def findMssindFrom (tab : Fin 4 → BitVec 16) (mss : BitVec 16) : (i : Nat) → i < 4 → Fin 4
  | 0, h => ⟨0, h⟩
  | i + 1, h => if tab ⟨i + 1, h⟩ ≤ mss then ⟨i + 1, h⟩ else findMssindFrom tab mss i (by omega)

def findMssind (tab : Fin 4 → BitVec 16) (mss : BitVec 16) : Fin 4 :=
  findMssindFrom tab mss 3 (by decide)

def tcpValidateSysctl (ctx : Ctx) : Int :=
  let localMss := match ctx.ip with
    | .ipv4 _ _ => mssLocalIpv4
    | .ipv6 _ _ => mssLocalIpv6
  if ctx.attrs.mss ≠ localMss then -1
  else if ctx.attrs.wscaleOk = 0 ∨ ctx.attrs.sndWscale = 0 ∨
      bpfSyncookieWscaleMask ≤ ctx.attrs.sndWscale.setWidth 32 then -1
  else if ctx.attrs.tstampOk = 0 then -1
  else if ctx.attrs.sackOk = 0 then -1
  else if !tcpEce ctx.tcp || !tcpCwr ctx.tcp then -1
  else 0

def Ip.msstab : Ip → Fin 4 → BitVec 16
  | ipv4 _ _ => msstab4
  | ipv6 _ _ => msstab6

def Ip.first : Ip → BitVec 64
  | ipv4 saddr daddr => saddr.setWidth 64 <<< 32 ||| daddr.setWidth 64
  | ipv6 saddr daddr => (saddr 0 &&& 0xff).setWidth 64 <<< 32 ||| (daddr 0).setWidth 64

def hashOf (ip : Ip) (tcp : Tcp) (seq : Word) : Word :=
  let second := seq.setWidth 64 <<< 32 ||| tcp.source.setWidth 64 <<< 16 ||| tcp.dest.setWidth 64
  (siphash2u64 ip.first second 0x0706050403020100 0x0f0e0d0c0b0a0908).setWidth 32

/-- `random` is what `bpf_get_prandom_u32` returns. -/
def tcpPrepareCookie (random : Word) (ctx : Ctx) : Ctx :=
  let mssind := findMssind ctx.ip.msstab ctx.attrs.mss
  let hash := hashOf ctx.ip ctx.tcp ctx.tcp.seq
  let cookie := hash &&& ~~~cookieMask
  let cookie := cookie ||| BitVec.ofNat 32 mssind <<< 6
  let cookie := if ctx.attrs.wscaleOk ≠ 0 then
    cookie ||| ctx.attrs.sndWscale.setWidth 32 &&& bpfSyncookieWscaleMask else cookie
  let cookie := if ctx.attrs.sackOk ≠ 0 then cookie ||| bpfSyncookieSack else cookie
  let cookie := if ctx.attrs.tstampOk ≠ 0 ∧ tcpEce ctx.tcp ∧ tcpCwr ctx.tcp then
    cookie ||| bpfSyncookieEcn else cookie
  { ctx with
    cookie := cookie
    attrs := { ctx.attrs with
      mss := ctx.ip.msstab mssind
      rcvTsecr := if ctx.attrs.tstampOk ≠ 0 then
        random &&& ~~~cookieMask ||| hash &&& cookieMask else ctx.attrs.rcvTsecr } }

/-- The hash minus what the ACK carries of it. -/
def hashLeft (ctx : Ctx) : Word :=
  let hash := hashOf ctx.ip ctx.tcp (ctx.tcp.seq - 1)
  let hash := if ctx.attrs.tstampOk ≠ 0 then hash - (ctx.attrs.rcvTsecr &&& cookieMask)
    else hash &&& ~~~cookieMask
  hash - (ctx.tcp.ackSeq - 1 &&& ~~~cookieMask)

def decodeCookie (ip : Ip) (cookie : Word) (attrs : Attrs) : Attrs :=
  let sndWscale := (cookie &&& bpfSyncookieWscaleMask).setWidth 8
  { attrs with
    mss := ip.msstab ⟨(cookie >>> 6 &&& 3#32).toNat % 4, Nat.mod_lt _ (by decide)⟩
    sndWscale := sndWscale
    rcvWscale := sndWscale
    wscaleOk := if sndWscale.setWidth 32 = bpfSyncookieWscaleMask then 1 else 0
    sackOk := (cookie &&& bpfSyncookieSack).setWidth 8
    ecnOk := (cookie &&& bpfSyncookieEcn).setWidth 8 }

def tcpValidateCookie (ctx : Ctx) : Int × Ctx :=
  if hashLeft ctx ≠ 0 then (-1, ctx)
  else (0, { ctx with attrs := decodeCookie ctx.ip (ctx.tcp.ackSeq - 1) ctx.attrs })

/-! Words in two parts. -/

/-- A word is the sum of two parts taken from others exactly when it has both parts. -/
theorem eq_add_parts (m h r c : Word) :
    h - (r &&& m) - (c &&& ~~~m) = 0 ↔ r &&& m = h &&& m ∧ c &&& ~~~m = h &&& ~~~m := by
  have apart : (r &&& m) &&& (c &&& ~~~m) = 0#32 := by
    ext i hi
    simp only [BitVec.getElem_and, BitVec.getElem_not, BitVec.getElem_zero]
    cases m[i] <;> simp
  have sum : h - (r &&& m) - (c &&& ~~~m) = 0 ↔ h = (r &&& m) ||| (c &&& ~~~m) := by
    rw [← BitVec.add_eq_or_of_and_eq_zero _ _ apart, BitVec.sub_sub]
    exact sub_eq_zero
  rw [sum]
  constructor
  · rintro rfl
    constructor <;> ext i hi <;>
      simp only [BitVec.getElem_and, BitVec.getElem_or, BitVec.getElem_not] <;> cases m[i] <;> simp
  rintro ⟨low, high⟩
  rw [low, high]
  ext i hi
  simp only [BitVec.getElem_and, BitVec.getElem_or, BitVec.getElem_not]
  cases m[i] <;> simp

theorem eq_high_part (m h c : Word) :
    (h &&& ~~~m) - (c &&& ~~~m) = 0 ↔ c &&& ~~~m = h &&& ~~~m :=
  sub_eq_zero.trans eq_comm

theorem high_of_parts {m f : Word} (h : Word) (inside : f &&& ~~~m = 0) :
    (h &&& ~~~m ||| f) &&& ~~~m = h &&& ~~~m := by
  rw [BitVec.and_or_distrib_right, inside, BitVec.and_assoc, BitVec.and_self]
  exact BitVec.or_zero

theorem low_of_parts {m mask : Word} (h f : Word) (inside : mask &&& ~~~m = 0) :
    (h &&& ~~~m ||| f) &&& mask = f &&& mask := by
  rw [BitVec.and_or_distrib_right, BitVec.and_assoc, BitVec.and_comm (~~~m), inside]
  simp

/-! A SYN that is accepted. -/

structure Accepted (syn : Ctx) : Prop where
  wscale : syn.attrs.wscaleOk ≠ 0
  small : syn.attrs.sndWscale.toNat < 15
  tstamp : syn.attrs.tstampOk ≠ 0
  sack : syn.attrs.sackOk ≠ 0
  ece : tcpEce syn.tcp = true
  cwr : tcpCwr syn.tcp = true

theorem accepted_of_sysctl {syn : Ctx} (h : tcpValidateSysctl syn = 0) : Accepted syn := by
  rw [tcpValidateSysctl] at h
  split_ifs at h with _ wscale tstamp sack ecn
  simp only [not_or, Bool.or_eq_true, Bool.not_eq_true', Bool.not_eq_false] at wscale ecn
  have small : syn.attrs.sndWscale.setWidth 32 < bpfSyncookieWscaleMask :=
    BitVec.not_le.mp wscale.2.2
  rw [BitVec.lt_def, BitVec.toNat_setWidth_of_le (by decide)] at small
  exact ⟨wscale.1, small, tstamp, sack, ecn.1, ecn.2⟩

/-- What the low bits of the cookie of an accepted SYN hold. -/
def fields (mssind : Fin 4) (wscale : BitVec 8) : Word :=
  BitVec.ofNat 32 mssind <<< 6 ||| wscale.setWidth 32 &&& bpfSyncookieWscaleMask |||
    bpfSyncookieSack ||| bpfSyncookieEcn

theorem fields_spec : ∀ (k : Fin 4) (w : Fin 15),
    let f := fields k (BitVec.ofNat 8 w)
    f &&& ~~~cookieMask = 0 ∧ (f >>> 6 &&& 3#32).toNat = k ∧
      (f &&& bpfSyncookieWscaleMask).setWidth 8 = BitVec.ofNat 8 w ∧
      f &&& bpfSyncookieSack = 16 ∧ f &&& bpfSyncookieEcn = 32 := by
  decide +kernel

section
variable {syn : Ctx}

theorem cookie_eq (accepted : Accepted syn) (random : Word) :
    (tcpPrepareCookie random syn).cookie =
      hashOf syn.ip syn.tcp syn.tcp.seq &&& ~~~cookieMask |||
        fields (findMssind syn.ip.msstab syn.attrs.mss) syn.attrs.sndWscale := by
  simp only [tcpPrepareCookie, fields, accepted.wscale, accepted.tstamp, accepted.sack,
    accepted.ece,
    accepted.cwr, ne_eq, not_false_eq_true, and_self, if_true, BitVec.or_assoc]

theorem tsecr_low (accepted : Accepted syn) (random : Word) :
    (tcpPrepareCookie random syn).attrs.rcvTsecr &&& cookieMask =
      hashOf syn.ip syn.tcp syn.tcp.seq &&& cookieMask := by
  have twice : cookieMask &&& ~~~cookieMask = 0 := by decide
  simp only [tcpPrepareCookie, if_pos accepted.tstamp]
  rw [low_of_parts _ _ twice, BitVec.and_assoc, BitVec.and_self]

theorem fields_of_accepted (accepted : Accepted syn) (k : Fin 4) :
    let f := fields k syn.attrs.sndWscale
    f &&& ~~~cookieMask = 0 ∧ (f >>> 6 &&& 3#32).toNat = k ∧
      (f &&& bpfSyncookieWscaleMask).setWidth 8 = syn.attrs.sndWscale ∧
      f &&& bpfSyncookieSack = 16 ∧ f &&& bpfSyncookieEcn = 32 := by
  have known := fields_spec k ⟨syn.attrs.sndWscale.toNat, accepted.small⟩
  rwa [BitVec.ofNat_toNat, BitVec.setWidth_eq] at known

/-- An ACK of the connection that the SYN asks for. -/
structure SameConnection (syn ack : Ctx) : Prop where
  ip : ack.ip = syn.ip
  source : ack.tcp.source = syn.tcp.source
  dest : ack.tcp.dest = syn.tcp.dest
  seq : ack.tcp.seq = syn.tcp.seq + 1

variable {ack : Ctx}

theorem SameConnection.hash (same : SameConnection syn ack) :
    hashOf ack.ip ack.tcp (ack.tcp.seq - 1) = hashOf syn.ip syn.tcp syn.tcp.seq := by
  simp only [hashOf, same.ip, same.source, same.dest, same.seq, BitVec.add_sub_cancel]

/-- The ACK carries the bits of the hash that the answer to the SYN had. -/
def CarriesHash (issued ack : Ctx) : Prop :=
  ack.tcp.ackSeq - 1 &&& ~~~cookieMask = issued.cookie &&& ~~~cookieMask ∧
    (ack.attrs.tstampOk ≠ 0 → ack.attrs.rcvTsecr &&& cookieMask =
      issued.attrs.rcvTsecr &&& cookieMask)

theorem hashLeft_eq_zero (accepted : Accepted syn) (same : SameConnection syn ack) (random : Word) :
    hashLeft ack = 0 ↔ CarriesHash (tcpPrepareCookie random syn) ack := by
  have high := high_of_parts (hashOf syn.ip syn.tcp syn.tcp.seq)
    (fields_of_accepted accepted (findMssind syn.ip.msstab syn.attrs.mss)).1
  rw [CarriesHash, cookie_eq accepted, high, tsecr_low accepted, hashLeft, same.hash]
  by_cases stamped : ack.attrs.tstampOk = 0
  · simp only [stamped, ne_eq, not_true_eq_false, if_false, false_imp_iff, and_true]
    exact eq_high_part _ _ _
  · simp only [stamped, ne_eq, not_false_eq_true, if_true, true_imp_iff]
    exact (eq_add_parts _ _ _ _).trans and_comm

theorem decode_issued (accepted : Accepted syn) (random : Word) (attrs : Attrs) :
    let issued := tcpPrepareCookie random syn
    let after := decodeCookie syn.ip issued.cookie attrs
    after.mss = issued.attrs.mss ∧ after.sndWscale = issued.attrs.sndWscale ∧ after.wscaleOk = 0 ∧
      after.sackOk = 16 ∧ after.ecnOk = 32 := by
  intro issued after
  obtain ⟨-, mssind, wscale, sack, ecn⟩ :=
    fields_of_accepted accepted (findMssind syn.ip.msstab syn.attrs.mss)
  have cookie := cookie_eq accepted random
  have field (mask : Word) (inside : mask &&& ~~~cookieMask = 0) :
      issued.cookie &&& mask = _ &&& mask := cookie ▸ low_of_parts _ _ inside
  have high : issued.cookie >>> 6 &&& 3#32 =
      fields (findMssind syn.ip.msstab syn.attrs.mss) syn.attrs.sndWscale >>> 6 &&& 3#32 := by
    have shifted (x : Word) : x >>> 6 &&& 3#32 = (x &&& 0xc0) >>> 6 := by
      rw [BitVec.ushiftRight_and_distrib]
      rfl
    rw [shifted, shifted, field _ (by decide)]
  have wscale' : after.sndWscale = syn.attrs.sndWscale := by
    rw [← wscale, ← field _ (by decide)]
    rfl
  refine ⟨?_, wscale', if_neg fun full => ?_, ?_, ?_⟩
  · change syn.ip.msstab _ = syn.ip.msstab _
    congr 1
    apply Fin.ext
    change (issued.cookie >>> 6 &&& 3#32).toNat % 4 = _
    rw [high, mssind]
    exact Nat.mod_eq_of_lt (Fin.is_lt _)
  · have small := accepted.small
    rw [← wscale', ← BitVec.toNat_setWidth_of_le (show 8 ≤ 32 by decide)] at small
    rw [show after.sndWscale.setWidth 32 = bpfSyncookieWscaleMask from full] at small
    exact absurd small (by decide)
  · change (issued.cookie &&& bpfSyncookieSack).setWidth 8 = 16
    rw [field _ (by decide), sack]
    rfl
  · change (issued.cookie &&& bpfSyncookieEcn).setWidth 8 = 32
    rw [field _ (by decide), ecn]
    rfl

/-- It acknowledges the cookie and echoes the time stamp. -/
structure Answers (syn issued ack : Ctx) : Prop extends SameConnection syn ack where
  ackSeq : ack.tcp.ackSeq = issued.cookie + 1
  tstamp : ack.attrs.tstampOk ≠ 0
  tsecr : ack.attrs.rcvTsecr = issued.attrs.rcvTsecr

theorem Answers.carriesHash {issued : Ctx} (answers : Answers syn issued ack) :
    CarriesHash issued ack := by
  rw [CarriesHash, answers.ackSeq, BitVec.add_sub_cancel, answers.tsecr]
  exact ⟨rfl, fun _ => rfl⟩

end

/-- The attributes that the cookie was made from are there again. -/
structure Survive (syn issued : Ctx) (after : Attrs) : Prop where
  mss : after.mss = issued.attrs.mss
  sndWscale : after.sndWscale = issued.attrs.sndWscale
  wscaleOk : after.wscaleOk ≠ 0 ↔ issued.attrs.wscaleOk ≠ 0
  sackOk : after.sackOk ≠ 0 ↔ issued.attrs.sackOk ≠ 0
  ecnOk : after.ecnOk ≠ 0 ↔ syn.attrs.tstampOk ≠ 0 ∧ tcpEce syn.tcp = true ∧ tcpCwr syn.tcp = true

/-- Every answered SYN is accepted again and all but window scaling comes back, which never does;
an ACK with another bit of the hash is rejected. -/
theorem cookie_loses_window_scaling {syn : Ctx} (accepted : tcpValidateSysctl syn = 0)
    (random : Word) :
    let issued := tcpPrepareCookie random syn
    (∀ ack, Answers syn issued ack → ∃ after,
      tcpValidateCookie ack = (0, { ack with attrs := after }) ∧
        Survive syn issued { after with wscaleOk := issued.attrs.wscaleOk } ∧
        after.wscaleOk = 0 ∧ issued.attrs.wscaleOk ≠ 0 ∧ ¬ Survive syn issued after) ∧
      ∀ ack, SameConnection syn ack → ¬ CarriesHash issued ack →
        tcpValidateCookie ack = (-1, ack) := by
  intro issued
  have known := accepted_of_sysctl accepted
  constructor
  · intro ack answers
    have noneLeft := (hashLeft_eq_zero known answers.toSameConnection random).mpr
      answers.carriesHash
    obtain ⟨mss, sndWscale, wscaleOk, sackOk, ecnOk⟩ := decode_issued known random ack.attrs
    refine ⟨_, ?_, ⟨mss, sndWscale, Iff.rfl, ?_, ?_⟩, wscaleOk, known.wscale, fun survive => ?_⟩
    · rw [tcpValidateCookie, if_neg (not_not_intro noneLeft), answers.ackSeq, BitVec.add_sub_cancel,
        answers.ip]
    · rw [sackOk]
      exact iff_of_true (by decide) known.sack
    · rw [ecnOk]
      exact iff_of_true (by decide) ⟨known.tstamp, known.ece, known.cwr⟩
    · exact survive.wscaleOk.mpr known.wscale wscaleOk
  · intro ack same other
    exact if_pos fun noneLeft => other ((hashLeft_eq_zero known same random).mp noneLeft)

/-- A SYN from the loopback device. -/
def loopbackSyn : Ctx :=
  { ip := .ipv4 0x0100007f 0x0100007f
    tcp := { source := 0x3930, dest := 0x5000, seq := 4096, ackSeq := 0, flags := 0xc2 }
    attrs := { rcvTsval := 1, rcvTsecr := 0, mss := 65495, rcvWscale := 0, sndWscale := 7,
               ecnOk := 0, wscaleOk := 1, sackOk := 1, tstampOk := 1 }
    cookie := 0 }

def answerTo (issued : Ctx) : Ctx :=
  { issued with tcp := { issued.tcp with seq := issued.tcp.seq + 1, ackSeq := issued.cookie + 1 } }

theorem answerTo_answers {syn : Ctx} (random : Word) (stamped : syn.attrs.tstampOk ≠ 0) :
    Answers syn (tcpPrepareCookie random syn) (answerTo (tcpPrepareCookie random syn)) :=
  ⟨⟨rfl, rfl, rfl, rfl⟩, rfl, stamped, rfl⟩

theorem cookie_loses_window_scaling_loopback :
    tcpValidateSysctl loopbackSyn = 0 ∧
      ¬ Survive loopbackSyn (tcpPrepareCookie 5 loopbackSyn)
        (tcpValidateCookie (answerTo (tcpPrepareCookie 5 loopbackSyn))).2.attrs := by
  refine ⟨by decide, ?_⟩
  obtain ⟨after, result, -, -, -, lost⟩ := (cookie_loses_window_scaling (by decide) 5).1
    _ (answerTo_answers 5 (show loopbackSyn.attrs.tstampOk ≠ 0 by decide))
  rw [result]
  exact lost

/-- Window scaling was offered and the decoded attributes deny it. -/
theorem window_scaling_lost :
    tcpValidateSysctl loopbackSyn = 0 ∧ (tcpPrepareCookie 5 loopbackSyn).attrs.wscaleOk = 1 ∧
      (tcpValidateCookie (answerTo (tcpPrepareCookie 5 loopbackSyn))).1 = 0 ∧
      (tcpValidateCookie (answerTo (tcpPrepareCookie 5 loopbackSyn))).2.attrs.sndWscale = 7 ∧
      (tcpValidateCookie (answerTo (tcpPrepareCookie 5 loopbackSyn))).2.attrs.wscaleOk = 0 := by
  decide +kernel

end BpfEquiv.SynCookie
