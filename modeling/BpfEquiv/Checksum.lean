import Mathlib

/-!
The checksums over the pseudo headers in `test_tcp_custom_syncookie` and `xdp_synproxy_kern`, and
the ones' complement sum of RFC 1071 that they compute. A number stands for its class modulo 65535
with the two zeros apart: only the sum of nothing but zeros is zero.
-/
namespace OnesComplement

/-- Addition with end-around carry. -/
def add (x y : Nat) : Nat := if x + y < 65536 then x + y else x + y - 65535

def sum (words : List Nat) : Nat := words.foldl add 0

/-- The value that carrying around leaves of a number. -/
def residue (n : Nat) : Nat := if n = 0 then 0 else (n - 1) % 65535 + 1

variable {x y : Nat}

theorem residue_congr (mod : x % 65535 = y % 65535) (zero : x = 0 ↔ y = 0) :
    residue x = residue y := by
  unfold residue
  split_ifs <;> omega

theorem residue_of_word (le : x ≤ 65535) : residue x = x := by
  unfold residue
  split_ifs <;> omega

theorem residue_le : residue x ≤ 65535 := by
  unfold residue
  split_ifs <;> omega

theorem residue_add : residue (residue x + y) = residue (x + y) := by
  apply residue_congr
  all_goals
    unfold residue
    split_ifs <;> omega

theorem residue_add_congr {z : Nat} (same : residue x = residue y) :
    residue (x + z) = residue (y + z) := by
  rw [← residue_add, same, residue_add]

theorem add_eq (hx : x ≤ 65535) (hy : y ≤ 65535) : add x y = residue (x + y) := by
  unfold add residue
  split_ifs <;> omega

theorem foldl_add {words : List Nat} (hx : x ≤ 65535) (each : ∀ w ∈ words, w ≤ 65535) :
    words.foldl add x = residue (x + words.sum) := by
  induction words generalizing x with
  | nil => exact (residue_of_word hx).symm
  | cons w words ih =>
    rw [List.foldl_cons, add_eq hx (each w List.mem_cons_self),
      ih residue_le fun v member => each v (List.mem_cons_of_mem _ member), residue_add,
      List.sum_cons,
      Nat.add_assoc]

end OnesComplement

namespace BpfEquiv.Checksum
open OnesComplement

/-- An addition or multiplication that must not overflow. -/
def fits (width n : Nat) : Option Nat := if n < 2 ^ width then some n else none

def csumFold (csum : Nat) : Option Nat := do
  let csum ← fits 32 (csum % 2 ^ 16 + csum / 2 ^ 16)
  let csum ← fits 32 (csum % 2 ^ 16 + csum / 2 ^ 16)
  pure ((2 ^ 32 - 1 - csum) % 2 ^ 16)

def from64to32 (x : Nat) : Option Nat := do
  let x ← fits 64 (x % 2 ^ 32 + x / 2 ^ 32)
  let x ← fits 64 (x % 2 ^ 32 + x / 2 ^ 32)
  pure (x % 2 ^ 32)

/-- `to_be` on a little-endian machine. -/
def toBe (n : Nat) : Nat :=
  n % 256 * 2 ^ 24 + n / 2 ^ 8 % 256 * 2 ^ 16 + n / 2 ^ 16 % 256 * 2 ^ 8 + n / 2 ^ 24

namespace Syncookie

def csumTcpudpNofold (saddr daddr len proto sum : Nat) : Option Nat := do
  let s ← fits 64 (sum + saddr)
  let s ← fits 64 (s + daddr)
  let t ← fits 32 (proto + len)
  let t ← fits 64 (t * 256)
  let s ← fits 64 (s + t)
  from64to32 s

def csumTcpudpMagic (saddr daddr len proto sum : Nat) : Option Nat := do
  let csum ← csumTcpudpNofold saddr daddr len proto sum
  csumFold csum

/-- `overflowing_add`, then the carry. -/
def addCarry (sum x : Nat) : Option Nat :=
  fits 32 ((sum + x) % 2 ^ 32 + if 2 ^ 32 ≤ sum + x then 1 else 0)

def csumIpv6Magic (saddr daddr : List Nat) (len proto csum : Nat) : Option Nat := do
  let sum ← saddr.foldlM addCarry csum
  let sum ← daddr.foldlM addCarry sum
  let sum ← addCarry sum (toBe len)
  let sum ← addCarry sum (toBe proto)
  csumFold sum

end Syncookie

namespace Synproxy

def csumTcpudpMagic (saddr daddr len proto csum : Nat) : Option Nat := do
  let s ← fits 64 (csum + saddr)
  let s ← fits 64 (s + daddr)
  let s ← fits 64 (s + ((proto + len) % 2 ^ 32 * 2 ^ 8) % 2 ^ 32)
  let s ← from64to32 s
  csumFold s

def csumIpv6Magic (saddr daddr : List Nat) (len proto csum : Nat) : Option Nat := do
  let sum ← saddr.foldlM (fun sum x => fits 64 (sum + x)) csum
  let sum ← daddr.foldlM (fun sum x => fits 64 (sum + x)) sum
  let sum ← fits 64 (sum + toBe len)
  let sum ← fits 64 (sum + toBe proto)
  let sum ← from64to32 sum
  csumFold sum

end Synproxy

def bytes (x : Nat) : List Nat := [x % 256, x / 2 ^ 8 % 256, x / 2 ^ 16 % 256, x / 2 ^ 24]

/-- The 16-bit words of a sequence of bytes, as the machine loads them. -/
def words : List Nat → List Nat
  | low :: high :: rest => (low + 256 * high) :: words rest
  | _ => []

def pseudo4 (saddr daddr len proto : Nat) : List Nat :=
  bytes saddr ++ bytes daddr ++ [0, proto, len / 256, len % 256]

def pseudo6 (saddr daddr : List Nat) (len proto : Nat) : List Nat :=
  saddr.flatMap bytes ++ daddr.flatMap bytes ++ [0, 0, len / 256, len % 256] ++ [0, 0, 0, proto]

/-- RFC 1071: the complement of the sum over a header and a partial sum. -/
def rfc1071 (header : List Nat) (csum : Nat) : Nat := 65535 - sum (words (header ++ bytes csum))

variable {x csum : Nat} {xs rest : List Nat}

theorem bind_of_eq {o : Option Nat} {f : Nat → Option Nat} (is : o = some x) : (o >>= f) = f x := by
  rw [is]
  rfl

theorem fits_of_lt {width n : Nat} (lt : n < 2 ^ width) : fits width n = some n := if_pos lt

theorem bind_fits {width n : Nat} {f : Nat → Option Nat} (lt : n < 2 ^ width) :
    (fits width n >>= f) = f n :=
  bind_of_eq (fits_of_lt lt)

theorem csumFold_eq (lt : x < 2 ^ 32) : csumFold x = some (65535 - residue x) := by
  have folded : residue x = (x % 2 ^ 16 + x / 2 ^ 16) % 2 ^ 16 +
      (x % 2 ^ 16 + x / 2 ^ 16) / 2 ^ 16 := by
    rw [← residue_of_word (x := _ + _ / 2 ^ 16) (by omega)]
    exact residue_congr (by omega) (by omega)
  rw [csumFold, bind_fits (by omega), bind_fits (by omega), ← folded]
  have := residue_le (x := x)
  exact congrArg some (by omega)

theorem residue_halves (x : Nat) : residue (x % 2 ^ 32 + x / 2 ^ 32) = residue x :=
  residue_congr (by omega) (by omega)

theorem from64to32_spec (lt : x < 2 ^ 64) :
    ∃ y, from64to32 x = some y ∧ y < 2 ^ 32 ∧ residue y = residue x := by
  have once := residue_halves x
  have lt' : x % 2 ^ 32 + x / 2 ^ 32 < 2 ^ 33 - 1 := by omega
  rw [from64to32, bind_fits (by omega)]
  revert once lt'
  generalize x % 2 ^ 32 + x / 2 ^ 32 = u
  intro once lt'
  rw [bind_fits (by omega), Nat.mod_eq_of_lt (by omega)]
  exact ⟨_, rfl, by omega, (residue_halves u).trans once⟩

theorem foldlM_fits (lt : x + xs.sum < 2 ^ 64) :
    xs.foldlM (fun sum x => fits 64 (sum + x)) x = some (x + xs.sum) := by
  induction xs generalizing x with
  | nil => rfl
  | cons y xs ih =>
    rw [List.sum_cons] at lt ⊢
    rw [List.foldlM_cons, bind_fits (by omega), ih (by omega), Nat.add_assoc]

theorem addCarry_spec {y : Nat} (hx : x < 2 ^ 32) (hy : y < 2 ^ 32) :
    ∃ z, Syncookie.addCarry x y = some z ∧ z < 2 ^ 32 ∧ residue z = residue (x + y) := by
  unfold Syncookie.addCarry
  split
  · exact ⟨_, fits_of_lt (by omega), by omega, residue_congr (by omega) (by omega)⟩
  · exact ⟨_, fits_of_lt (by omega), by omega, residue_congr (by omega) (by omega)⟩

theorem foldlM_addCarry (hx : x < 2 ^ 32) (each : ∀ y ∈ xs, y < 2 ^ 32) :
    ∃ z, xs.foldlM Syncookie.addCarry x = some z ∧ z < 2 ^ 32 ∧
      residue z = residue (x + xs.sum) := by
  induction xs generalizing x with
  | nil => exact ⟨x, rfl, hx, rfl⟩
  | cons y xs ih =>
    obtain ⟨z, is, lt, same⟩ := addCarry_spec hx (each y List.mem_cons_self)
    obtain ⟨t, is', lt', same'⟩ := ih lt fun y member => each y (List.mem_cons_of_mem _ member)
    refine ⟨t, by rw [List.foldlM_cons, bind_of_eq is, is'], lt', ?_⟩
    rw [same', residue_add_congr same, List.sum_cons, Nat.add_assoc]

theorem words_bytes : words (bytes x ++ rest) = x % 65536 :: x / 65536 :: words rest := by
  show _ :: _ :: words rest = _
  congr 1
  · omega
  · congr 1
    omega

theorem residue_words (k : Nat) :
    residue ((words (xs.flatMap bytes ++ rest)).sum + k) =
      residue (xs.sum + (words rest).sum + k) := by
  induction xs generalizing k with
  | nil => rw [List.flatMap_nil, List.nil_append, List.sum_nil, Nat.zero_add]
  | cons x xs ih =>
    rw [List.flatMap_cons, List.append_assoc, words_bytes, List.sum_cons, List.sum_cons,
      List.sum_cons]
    have tail := ih (x % 65536 + x / 65536 + k)
    rw [show _ + k = (words (xs.flatMap bytes ++ rest)).sum +
      (x % 65536 + x / 65536 + k) by omega, tail]
    exact residue_congr (by omega) (by omega)

theorem words_le {l : List Nat} (each : ∀ b ∈ l, b ≤ 255) : ∀ w ∈ words l, w ≤ 65535 := by
  fun_induction words l with
  | case1 low high rest ih =>
    simp only [List.mem_cons, forall_eq_or_imp] at each ⊢
    exact ⟨by omega, ih each.2.2⟩
  | case2 => nofun

theorem bytes_le (lt : x < 2 ^ 32) : ∀ b ∈ bytes x, b ≤ 255 := by
  simp only [bytes, List.mem_cons, List.not_mem_nil, or_false, forall_eq_or_imp, forall_eq]
  omega

theorem rfc1071_eq {header : List Nat} (each : ∀ b ∈ header, b ≤ 255) (lt : csum < 2 ^ 32) :
    rfc1071 header csum = 65535 - residue (words (header ++ bytes csum)).sum := by
  rw [rfc1071, sum, foldl_add (Nat.zero_le _), Nat.zero_add]
  exact words_le fun b member => (List.mem_append.mp member).elim (each b) (bytes_le lt b)

section Ipv4

variable {saddr daddr len proto : Nat} (hs : saddr < 2 ^ 32) (hd : daddr < 2 ^ 32)
  (hl : len < 2 ^ 16) (hp : proto < 2 ^ 8) (hc : csum < 2 ^ 32)
include hs hd hl hp hc

theorem syncookie_tcpudp : Syncookie.csumTcpudpMagic saddr daddr len proto csum =
    some (65535 - residue (saddr + daddr + (proto + len) * 256 + csum)) := by
  obtain ⟨y, is, lt, same⟩ :=
    from64to32_spec (x := csum + saddr + daddr + (proto + len) * 256) (by omega)
  rw [Syncookie.csumTcpudpMagic, Syncookie.csumTcpudpNofold, bind_fits (by omega),
    bind_fits (by omega),
    bind_fits (by omega), bind_fits (by omega), bind_fits (by omega), bind_of_eq is,
    csumFold_eq lt, same]
  exact congrArg (fun total => some (65535 - residue total)) (by omega)

theorem synproxy_tcpudp : Synproxy.csumTcpudpMagic saddr daddr len proto csum =
    some (65535 - residue (saddr + daddr + (proto + len) * 256 + csum)) := by
  obtain ⟨y, is, lt, same⟩ :=
    from64to32_spec (x := csum + saddr + daddr + (proto + len) * 256) (by omega)
  have shifted : (proto + len) % 2 ^ 32 * 2 ^ 8 % 2 ^ 32 = (proto + len) * 256 := by omega
  rw [Synproxy.csumTcpudpMagic, shifted, bind_fits (by omega), bind_fits (by omega),
    bind_fits (by omega),
    bind_of_eq is, csumFold_eq lt, same]
  exact congrArg (fun total => some (65535 - residue total)) (by omega)

theorem rfc1071_pseudo4 : rfc1071 (pseudo4 saddr daddr len proto) csum =
    65535 - residue (saddr + daddr + (proto + len) * 256 + csum) := by
  have each : ∀ b ∈ pseudo4 saddr daddr len proto, b ≤ 255 := by
    simp only [pseudo4, List.mem_append, or_imp, forall_and]
    exact ⟨⟨bytes_le hs, bytes_le hd⟩, by simp; omega⟩
  rw [rfc1071_eq each hc, pseudo4, List.append_assoc, List.append_assoc, words_bytes, words_bytes]
  have tail : words ([0, proto, len / 256, len % 256] ++ bytes csum)
      = [256 * proto, len / 256 + 256 * (len % 256), csum % 65536, csum / 65536] := by
    show _ :: _ :: words (bytes csum) = _
    rw [← List.append_nil (bytes csum), words_bytes, Nat.zero_add]
    rfl
  rw [tail]
  simp only [List.sum_cons, List.sum_nil]
  exact congrArg (65535 - ·) (residue_congr (by omega) (by omega))

end Ipv4

section Ipv6

variable {saddr daddr : List Nat} {len proto : Nat} (hs : ∀ x ∈ saddr, x < 2 ^ 32)
  (hd : ∀ x ∈ daddr, x < 2 ^ 32) (ls : saddr.length = 4) (ld : daddr.length = 4) (hl : len < 2 ^ 16)
  (hp : proto < 2 ^ 8) (hc : csum < 2 ^ 32)

theorem sum_lt (hs : ∀ x ∈ saddr, x < 2 ^ 32) (ls : saddr.length = 4) : saddr.sum ≤ 2 ^ 34 := by
  have := List.sum_le_card_nsmul saddr (2 ^ 32) fun x member => (hs x member).le
  rw [ls, smul_eq_mul] at this
  omega

theorem toBe_of_lt {n : Nat} (lt : n < 2 ^ 16) : toBe n = n % 256 * 2 ^ 24 + n / 256 * 2 ^ 16 := by
  have low : n / 2 ^ 8 % 256 = n / 256 := by omega
  have none_ : n / 2 ^ 16 = 0 ∧ n / 2 ^ 24 = 0 := by omega
  rw [toBe, low, none_.1, none_.2, Nat.zero_mod, Nat.zero_mul, Nat.add_zero]

theorem toBe_lt {n : Nat} (lt : n < 2 ^ 16) : toBe n < 2 ^ 32 := by
  rw [toBe_of_lt lt]
  omega

include hs hd hl hp hc

theorem syncookie_ipv6 : Syncookie.csumIpv6Magic saddr daddr len proto csum =
    some (65535 - residue (saddr.sum + daddr.sum + toBe len + toBe proto + csum)) := by
  have ulen := toBe_lt hl
  have uproto := toBe_lt (n := proto) (by omega)
  rw [Syncookie.csumIpv6Magic]
  revert ulen uproto
  generalize toBe len = l, toBe proto = p
  intro ulen uproto
  obtain ⟨a, is_a, lt_a, same_a⟩ := foldlM_addCarry hc hs
  obtain ⟨b, is_b, lt_b, same_b⟩ := foldlM_addCarry lt_a hd
  obtain ⟨c, is_c, lt_c, same_c⟩ := addCarry_spec lt_b ulen
  obtain ⟨d, is_d, lt_d, same_d⟩ := addCarry_spec lt_c uproto
  rw [bind_of_eq is_a, bind_of_eq is_b, bind_of_eq is_c, bind_of_eq is_d, csumFold_eq lt_d,
    same_d, residue_add_congr same_c, residue_add_congr (residue_add_congr same_b),
    residue_add_congr (residue_add_congr (residue_add_congr same_a))]
  exact congrArg (fun total => some (65535 - residue total)) (by omega)

include ls ld in
theorem synproxy_ipv6 : Synproxy.csumIpv6Magic saddr daddr len proto csum =
    some (65535 - residue (saddr.sum + daddr.sum + toBe len + toBe proto + csum)) := by
  have from_ := sum_lt hs ls
  have upto := sum_lt hd ld
  have ulen := toBe_lt hl
  have uproto := toBe_lt (n := proto) (by omega)
  rw [Synproxy.csumIpv6Magic]
  revert ulen uproto
  generalize toBe len = l, toBe proto = p
  intro ulen uproto
  obtain ⟨y, is, lt, same⟩ := from64to32_spec (x := csum + saddr.sum + daddr.sum + l + p) (by omega)
  rw [bind_of_eq (foldlM_fits (by omega)), bind_of_eq (foldlM_fits (by omega)),
    bind_fits (by omega),
    bind_fits (by omega), bind_of_eq is, csumFold_eq lt, same]
  exact congrArg (fun total => some (65535 - residue total)) (by omega)

theorem rfc1071_pseudo6 : rfc1071 (pseudo6 saddr daddr len proto) csum =
    65535 - residue (saddr.sum + daddr.sum + toBe len + toBe proto + csum) := by
  have each : ∀ b ∈ pseudo6 saddr daddr len proto, b ≤ 255 := by
    simp only [pseudo6, List.mem_append, or_imp, forall_and, List.mem_flatMap]
    refine ⟨⟨⟨?_, ?_⟩, by simp; omega⟩, by simp; omega⟩
    · rintro b ⟨x, member, here⟩
      exact bytes_le (hs x member) b here
    · rintro b ⟨x, member, here⟩
      exact bytes_le (hd x member) b here
  have tail : words ([0, 0, len / 256, len % 256] ++ ([0, 0, 0, proto] ++ bytes csum))
      = [0, len / 256 + 256 * (len % 256), 0, 256 * proto, csum % 65536, csum / 65536] := by
    show _ :: _ :: _ :: _ :: words (bytes csum) = _
    rw [← List.append_nil (bytes csum), words_bytes, Nat.zero_add, Nat.zero_add, Nat.mul_zero]
    rfl
  rw [rfc1071_eq each hc, pseudo6, List.append_assoc, List.append_assoc, List.append_assoc]
  apply congrArg (65535 - ·)
  rw [← Nat.add_zero (words _).sum, residue_words, Nat.add_zero, Nat.add_comm,
    residue_words, tail]
  simp only [List.sum_cons, List.sum_nil]
  rw [toBe_of_lt hl, toBe_of_lt (n := proto) (by omega)]
  exact residue_congr (by omega) (by omega)

end Ipv6

/-- The partial sum of the same data with the checksum field filled in. -/
def Filled (csum check filled : Nat) : Prop :=
  sum (words (bytes filled)) = sum (words (bytes csum ++ [check % 256, check / 256]))

theorem filled_verifies {total filled : Nat} (hc : csum < 2 ^ 32) (hf : filled < 2 ^ 32)
    (is : Filled csum (65535 - residue (total + csum)) filled) :
    65535 - residue (total + filled) = 0 := by
  have le := residue_le (x := total + csum)
  have word {x : Nat} (lt : x < 2 ^ 32) {rest : List Nat} (each : ∀ b ∈ rest, b ≤ 255) :
      sum (words (bytes x ++ rest)) = residue (x % 65536 + (x / 65536 + (words rest).sum)) := by
    rw [sum, foldl_add (Nat.zero_le _), words_bytes, Nat.zero_add]
    · rfl
    · exact words_le fun b member => (List.mem_append.mp member).elim (bytes_le lt b) (each b)
  have same : residue filled = residue (csum + (65535 - residue (total + csum))) := by
    have eq := is
    rw [Filled, ← List.append_nil (bytes filled), word hf (by nofun), word hc (by simp; omega)]
      at eq
    calc residue filled = residue (filled % 65536 + (filled / 65536 + 0)) :=
          residue_congr (by omega) (by omega)
      _ = residue (csum % 65536 + (csum / 65536 + _)) := eq
      _ = residue (csum + (65535 - residue (total + csum))) := by
        simp only [words, List.sum_cons, List.sum_nil]
        exact residue_congr (by omega) (by omega)
  have full : residue (total + filled) = 65535 := by
    rw [Nat.add_comm, residue_add_congr same, show _ + total = total + csum +
      (65535 - residue (total + csum)) by omega, ← residue_add, Nat.add_sub_cancel' le]
    rfl
  omega

def address (a : Fin 4 → BitVec 32) : List Nat := List.ofFn fun i => (a i).toNat

theorem address_lt (a : Fin 4 → BitVec 32) : ∀ x ∈ address a, x < 2 ^ 32 := by
  intro x member
  obtain ⟨i, rfl⟩ := List.mem_ofFn.mp member
  exact (a i).isLt

/-- The checksum of RFC 1071 over a header and any partial sum, which verifies once it is filled
in. -/
def Computes (magic : Nat → Option Nat) (header : List Nat) : Prop :=
  ∀ csum : BitVec 32, magic csum.toNat = some (rfc1071 header csum.toNat) ∧
    ∀ filled : BitVec 32, Filled csum.toNat (rfc1071 header csum.toNat) filled.toNat →
      magic filled.toNat = some 0

theorem computes_of {magic : Nat → Option Nat} {header : List Nat} {total : Nat}
    (is : ∀ csum < 2 ^ 32, magic csum = some (65535 - residue (total + csum)))
    (rfc : ∀ csum < 2 ^ 32, rfc1071 header csum = 65535 - residue (total + csum)) :
    Computes magic header := by
  intro csum
  rw [is _ csum.isLt, rfc _ csum.isLt]
  refine ⟨rfl, fun filled fills => ?_⟩
  rw [is _ filled.isLt, filled_verifies csum.isLt filled.isLt fills]

/-- Both programs compute the RFC 1071 checksum over the pseudo header and the partial sum,
without an overflow on the way. -/
theorem checksums_agree (saddr daddr : BitVec 32) (saddr6 daddr6 : Fin 4 → BitVec 32)
    (len : BitVec 16) (proto : BitVec 8) :
    Computes (Syncookie.csumTcpudpMagic saddr.toNat daddr.toNat len.toNat proto.toNat)
        (pseudo4 saddr.toNat daddr.toNat len.toNat proto.toNat) ∧
      Computes (Synproxy.csumTcpudpMagic saddr.toNat daddr.toNat len.toNat proto.toNat)
        (pseudo4 saddr.toNat daddr.toNat len.toNat proto.toNat) ∧
      Computes (Syncookie.csumIpv6Magic (address saddr6) (address daddr6) len.toNat proto.toNat)
        (pseudo6 (address saddr6) (address daddr6) len.toNat proto.toNat) ∧
      Computes (Synproxy.csumIpv6Magic (address saddr6) (address daddr6) len.toNat proto.toNat)
        (pseudo6 (address saddr6) (address daddr6) len.toNat proto.toNat) := by
  have hs := address_lt saddr6
  have hd := address_lt daddr6
  have length (a : Fin 4 → BitVec 32) : (address a).length = 4 := List.length_ofFn
  refine ⟨?_, ?_, ?_, ?_⟩
  · exact computes_of (fun _ => syncookie_tcpudp saddr.isLt daddr.isLt len.isLt proto.isLt)
      fun _ => rfc1071_pseudo4 saddr.isLt daddr.isLt len.isLt proto.isLt
  · exact computes_of (fun _ => synproxy_tcpudp saddr.isLt daddr.isLt len.isLt proto.isLt)
      fun _ => rfc1071_pseudo4 saddr.isLt daddr.isLt len.isLt proto.isLt
  · exact computes_of (fun _ => syncookie_ipv6 hs hd len.isLt proto.isLt)
      fun _ => rfc1071_pseudo6 hs hd len.isLt proto.isLt
  · exact computes_of (fun _ => synproxy_ipv6 hs hd (length _) (length _) len.isLt proto.isLt)
      fun _ => rfc1071_pseudo6 hs hd len.isLt proto.isLt

end BpfEquiv.Checksum
