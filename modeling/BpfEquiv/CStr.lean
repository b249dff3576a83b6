import BpfEquiv.TraceSpec
import BpfEquiv.MemoryModel

/-!
Capture of string arguments.

The capture of a string is its bytes up to the NUL if the executor knows them all, and a
window of fixed size otherwise. In both cases it is a mode byte and the first bytes of
the memory the argument points to.
-/
namespace BpfEquiv
open Smt Hoare List

variable {cfg cfgA cfgB : Config} {s s' : St} {what : String}

/-! Strings. -/

/-- Bytes up to and including the first NUL. -/
def uptoNul : List Byte → Option (List Byte)
  | [] => none
  | b :: bs => if b = 0 then some [b] else (uptoNul bs).map (b :: ·)

theorem uptoNul_append (xs ys : List Byte) :
    uptoNul (xs ++ ys) = if 0 ∈ xs then uptoNul xs else (uptoNul ys).map (xs ++ ·) := by
  induction xs with
  | nil => simp
  | cons x xs ih =>
    rw [cons_append, uptoNul, uptoNul, ih]
    by_cases nul : x = 0
    · rw [nul, if_pos rfl, if_pos mem_cons_self, if_pos rfl]
    have head : 0 ∈ x :: xs ↔ 0 ∈ xs :=
      mem_cons.trans (or_iff_right (Ne.symm nul))
    rw [if_neg nul, if_neg nul]
    by_cases later : 0 ∈ xs
    · rw [if_pos later, if_pos (head.mpr later)]
    · rw [if_neg later, if_neg (mt head.mp later), Option.map_map]
      rfl

theorem uptoNul_cut (n : Nat) (xs : List Byte) :
    uptoNul xs = if 0 ∈ xs.take n then uptoNul (xs.take n)
      else (uptoNul (xs.drop n)).map (xs.take n ++ ·) := by
  rw [← uptoNul_append, take_append_drop]

theorem uptoNul_of_take {xs : List Byte} {n : Nat} (nul : 0 ∈ xs.take n) :
    uptoNul xs = uptoNul (xs.take n) := by
  rw [uptoNul_cut n xs, if_pos nul]

theorem uptoNul_eq_none {xs : List Byte} : uptoNul xs = none ↔ 0 ∉ xs := by
  induction xs with
  | nil => simp [uptoNul]
  | cons x xs ih =>
    by_cases nul : x = 0
    · simp [uptoNul, nul]
    · rw [uptoNul, if_neg nul, Option.map_eq_none_iff, ih, mem_cons, not_or]
      exact (and_iff_right (Ne.symm nul)).symm

/-- Equal strings end in their first bytes, or go on in the same way. -/
theorem uptoNul_drop {xs ys : List Byte} (same : uptoNul xs = uptoNul ys) (n : Nat) :
    0 ∈ xs.take n ∨ uptoNul (xs.drop n) = uptoNul (ys.drop n) := by
  induction n generalizing xs ys with
  | zero => exact .inr same
  | succ n ih =>
    have rest {zs : List Byte} (free : uptoNul zs = none) : uptoNul (zs.drop (n + 1)) = none :=
      uptoNul_eq_none.mpr fun inside => uptoNul_eq_none.mp free (mem_of_mem_drop inside)
    cases xs with
    | nil => exact .inr (rest same.symm).symm
    | cons x xs =>
      by_cases nul : x = 0
      · exact .inl (nul ▸ .head _)
      rw [uptoNul, if_neg nul] at same
      cases ys with
      | nil => exact .inr (rest (by rw [uptoNul, if_neg nul]; exact same))
      | cons y ys =>
        rw [uptoNul] at same
        split at same
        · next isNul =>
          obtain ⟨_, _, head⟩ := Option.map_eq_some_iff.mp same
          exact absurd (isNul ▸ (List.cons.inj head).1) nul
        · have later : uptoNul xs = uptoNul ys := by
            cases a : uptoNul xs <;> cases b : uptoNul ys <;> simp_all
          exact (ih later).imp (.tail x) id

/-- The memory an argument points to, as far as strings are followed. -/
def textBehind (cfg : Config) (s : St) (v : Val) (σ : Assignment) : List Byte :=
  match curArr cfg s v.target.1 with
  | some arr => windowBytes (arr.eval σ) (v.target.2.eval σ) maxCopy
  | none => []

def stringAt (cfg : Config) (s : St) (v : Val) (σ : Assignment) : Option (List Byte) :=
  uptoNul (textBehind cfg s v σ)

def stringBehind (n : Nat) (cfg : Config) (s : St) (v : Val) (σ : Assignment) :
    Option (List Byte) :=
  uptoNul ((textBehind cfg s v σ).drop n)

/-! The capture. -/

theorem windowBytes_succ (m : BitVec 64 → Byte) (a : BitVec 64) (n : Nat) :
    windowBytes m a (n + 1) = windowBytes m a n ++ [m (a + BitVec.ofNat 64 n)] := by
  rw [windowBytes, range_succ, map_append]
  rfl

theorem take_windowBytes (m : BitVec 64 → Byte) (a : BitVec 64) {n k : Nat} (le : n ≤ k) :
    (windowBytes m a k).take n = windowBytes m a n := by
  rw [windowBytes, ← map_take, take_range, Nat.min_eq_left le]
  rfl

/-- Mode byte and number of captured bytes: all up to a NUL, or a window. -/
structure Captures (mode : Byte) (n : Nat) (text : Assignment → List Byte) : Prop where
  inside : n ≤ maxCopy
  known : mode = 1 ∧ (∀ σ, 0 ∈ (text σ).take n) ∨ mode = 2 ∧ n = strCap

/-- The loop with the bytes read so far: they are the first ones of the memory. -/
theorem cstrLoop_returns {v : Val} {fuel k : Nat} {acc out : List (Term (.bv 8))} {t : St}
    {arr : Term .arr} (cached : Cached cfg s t) (here : curArr cfg s v.target.1 = some arr)
    (bound : k + fuel = maxCopy)
    (read : ∀ σ, evalBytes σ acc = 1 :: windowBytes (arr.eval σ) (v.target.2.eval σ) k)
    (h : Returns (cstrLoop cfg v what fuel k acc) t out s') :
    ∃ mode n, Captures mode n (textBehind cfg s v) ∧
      ∀ σ, evalBytes σ out = mode :: (textBehind cfg s v σ).take n := by
  have text (σ : Assignment) {n : Nat} (le : n ≤ maxCopy) :
      (textBehind cfg s v σ).take n = windowBytes (arr.eval σ) (v.target.2.eval σ) n := by
    simp only [textBehind, here]
    exact take_windowBytes _ _ le
  induction fuel generalizing k acc t with
  | zero => exact h.throw
  | succ fuel ih =>
    obtain ⟨b, t₁, loaded, rest⟩ := h.bind
    obtain ⟨step, arr', here', value⟩ := loadByte_returns loaded
    rw [cached.arrs, here] at here'
    cases here'
    have cached₁ := cached.trans step
    split at rest
    · obtain ⟨window, t₂, bytes, last⟩ := rest.bind
      obtain ⟨rfl, _⟩ := last.pure
      obtain ⟨_, _, contents⟩ := memBytes_returns bytes
      refine ⟨2, strCap, ⟨by decide, .inr ⟨rfl, rfl⟩⟩, fun σ => ?_⟩
      rw [text σ (by decide), ← contents σ arr (by rw [cached₁.arrs, here])]
      rfl
    · rename_i x const
      have longer (σ : Assignment) : evalBytes σ (acc ++ [.bvVal x]) =
          1 :: windowBytes (arr.eval σ) (v.target.2.eval σ) (k + 1) := by
        rw [evalBytes_append, read, windowBytes_succ, ← value σ, cfg.z3.constOf_eval const σ]
        rfl
      dsimp only at rest
      split at rest
      · rename_i nul
        obtain ⟨rfl, _⟩ := rest.pure
        have terminated (σ : Assignment) : 0 ∈ (textBehind cfg s v σ).take (k + 1) := by
          rw [text σ (by omega), windowBytes_succ, ← value σ, cfg.z3.constOf_eval const σ, nul]
          exact mem_append_right _ (.head _)
        refine ⟨1, k + 1, ⟨by omega, .inl ⟨rfl, terminated⟩⟩, fun σ => ?_⟩
        rw [longer σ, text σ (by omega)]
      · exact ih cached₁ (by omega) longer rest

theorem cstrBytes_returns {v : Val} {out : List (Term (.bv 8))}
    (h : Returns (cstrBytes cfg v what) s out s') :
    ∃ mode n, Captures mode n (textBehind cfg s v) ∧
      ∀ σ, evalBytes σ out = mode :: (textBehind cfg s v σ).take n := by
  have known : ∃ arr, curArr cfg s v.target.1 = some arr := by
    obtain ⟨b, t, loaded, _⟩ := h.bind
    obtain ⟨_, arr, here, _⟩ := loadByte_returns loaded
    exact ⟨arr, here⟩
  obtain ⟨arr, here⟩ := known
  exact cstrLoop_returns (.refl s) here rfl (fun σ => rfl) h

/-- Equal captures under one assignment: the strings are equal if they end in the window, and
otherwise if they go on in the same way behind it. -/
theorem stringAt_eq_iff {t t' : St} {v w : Val} {what' : String} {as bs : List (Term (.bv 8))}
    (hA : Returns (cstrBytes cfgA v what) s as s') (hB : Returns (cstrBytes cfgB w what') t bs t')
    {σ : Assignment} (same : evalBytes σ as = evalBytes σ bs) :
    stringAt cfgA s v σ = stringAt cfgB t w σ ↔ 0 ∈ (textBehind cfgA s v σ).take strCap ∨
      stringBehind strCap cfgA s v σ = stringBehind strCap cfgB t w σ := by
  obtain ⟨mode, n, captureA, bytesA⟩ := cstrBytes_returns hA
  obtain ⟨mode', n', captureB, bytesB⟩ := cstrBytes_returns hB
  rw [bytesA, bytesB, List.cons.injEq] at same
  refine ⟨fun equal => uptoNul_drop equal strCap, fun ends => ?_⟩
  rw [stringAt, stringAt]
  rcases captureA.known with ⟨rfl, nul⟩ | ⟨rfl, rfl⟩
  · -- all bytes up to the NUL are captured on both sides
    obtain ⟨_, nul'⟩ := captureB.known.resolve_right fun window => absurd (same.1.trans window.1)
      (by decide)
    rw [uptoNul_of_take (nul σ), uptoNul_of_take (nul' σ), same.2]
  · obtain ⟨_, rfl⟩ := captureB.known.resolve_left fun all =>
      absurd (same.1.trans all.1) (by decide)
    rw [uptoNul_cut strCap (textBehind cfgA s v σ), uptoNul_cut strCap (textBehind cfgB t w σ),
      ← same.2]
    split
    · rfl
    · next free => exact congrArg _ (ends.resolve_left free)

/-- What equal captures say about the strings, which are those of the memory before the calls. -/
theorem string_capture_exact_iff (cfgA cfgB : Config) (s s' t t' : St) (v w : Val)
    (what what' : String) (as bs : List (Term (.bv 8)))
    (hA : Returns (cstrBytes cfgA v what) s as s') (hB : Returns (cstrBytes cfgB w what') t bs t')
    (same : ∀ σ, evalBytes σ as = evalBytes σ bs) :
    (∀ σ, stringAt cfgA s v σ = stringAt cfgB t w σ) ↔
      ∀ σ, 0 ∈ (textBehind cfgA s v σ).take strCap ∨
        stringBehind strCap cfgA s v σ = stringBehind strCap cfgB t w σ :=
  forall_congr' fun σ => stringAt_eq_iff hA hB (same σ)

/-! States of a global buffer. -/

def buffer : Val := .ptr ⟨.g "buf", bv64 0⟩

def bufferSt (arr : Term .arr) : St := { freshSt with mem := freshSt.mem.setArr (.g "buf") arr }

def captureBuffer : M (List (Term (.bv 8))) := cstrBytes (plainConfig "tc" []) buffer "tc"

theorem textBehind_buffer (arr : Term .arr) (σ : Assignment) :
    textBehind (plainConfig "tc" []) (bufferSt arr) buffer σ =
      windowBytes (arr.eval σ) 0 maxCopy := by
  have stored : (bufferSt arr).mem.arrs (.g "buf") = some arr := by simp [bufferSt, Mem.setArr]
  have here : curArr (plainConfig "tc" []) (bufferSt arr) buffer.target.1 = some arr :=
    curArr_of_mem stored
  rw [textBehind, here]
  rfl

def greeting : Term .arr := storeConsts true 0 [0x68, 0x69, 0] zeroArr

theorem string_capture_greeting :
    stringAt (plainConfig "tc" []) (bufferSt greeting) buffer =
      stringAt (plainConfig "tc" []) (bufferSt (.store greeting (bv64 5) (byteVal 0x21)))
        buffer := by
  have runA : ∃ s', Returns captureBuffer (bufferSt greeting)
      [byteVal 1, .bvVal 0x68, .bvVal 0x69, .bvVal 0] s' := ⟨_, rfl⟩
  have runB : ∃ s', Returns captureBuffer (bufferSt (.store greeting (bv64 5) (byteVal 0x21)))
      [byteVal 1, .bvVal 0x68, .bvVal 0x69, .bvVal 0] s' := ⟨_, rfl⟩
  obtain ⟨s', hA⟩ := runA
  obtain ⟨t', hB⟩ := runB
  apply funext
  refine (string_capture_exact_iff _ _ _ s' _ t' buffer buffer "tc" "tc" _ _ hA hB
    fun σ => rfl).mpr fun σ => .inl ?_
  rw [textBehind_buffer, take_windowBytes _ _ (by decide)]
  exact mem_map.mpr ⟨2, by decide, rfl⟩

/-- Contents from user space as they are, and with a byte changed behind the window. -/
def input : Term .arr := .arrVar "init_g_buf"

def patched : Term .arr := .store input (bv64 100) (byteVal 0x5a)

/-- If some contents hold no NUL, the capture is a window. -/
theorem capture_window {arr : Term .arr} {out : List (Term (.bv 8))} {s' : St}
    (h : Returns captureBuffer (bufferSt arr) out s') (full : Assignment)
    (free : 0 ∉ windowBytes (arr.eval full) 0 maxCopy) (σ : Assignment) :
    evalBytes σ out = 2 :: windowBytes (arr.eval σ) 0 strCap := by
  obtain ⟨mode, n, capture, bytes⟩ := cstrBytes_returns h
  rcases capture.known with ⟨_, nul⟩ | ⟨rfl, rfl⟩
  · have inside := mem_of_mem_take (nul full)
    rw [textBehind_buffer] at inside
    exact absurd inside free
  · rw [bytes, textBehind_buffer, take_windowBytes _ _ (by decide)]

def onesThen (n : Nat) : Assignment :=
  { (default : Assignment) with arrs := fun _ a => if a.toNat < n then 1 else 0 }

/-- The captures agree for all contents, the strings do not. -/
theorem string_capture_misses : ∃ as bs s' t',
    Returns captureBuffer (bufferSt input) as s' ∧
      Returns captureBuffer (bufferSt patched) bs t' ∧
      (∀ σ, evalBytes σ as = evalBytes σ bs) ∧
      ∃ σ, stringAt (plainConfig "tc" []) (bufferSt input) buffer σ ≠
        stringAt (plainConfig "tc" []) (bufferSt patched) buffer σ := by
  have runs (arr : Term .arr) (ok : (captureBuffer.run (bufferSt arr)).toBool = true) :
      ∃ out s', Returns captureBuffer (bufferSt arr) out s' := by
    cases run : captureBuffer.run (bufferSt arr) with
    | error e => rw [run] at ok; cases ok
    | ok r => exact ⟨r.1, r.2, run⟩
  obtain ⟨as, s', hA⟩ := runs input (by decide +kernel)
  obtain ⟨bs, t', hB⟩ := runs patched (by decide +kernel)
  refine ⟨as, bs, s', t', hA, hB, fun σ => ?_, onesThen 200, by decide +kernel⟩
  rw [capture_window hA (onesThen 600) (by decide +kernel),
    capture_window hB (onesThen 600) (by decide +kernel)]
  refine congrArg _ (map_congr_left fun k member => ?_)
  have inside : k < 64 := mem_range.mp member
  have other : (0 : BitVec 64) + BitVec.ofNat 64 k ≠ BitVec.ofNat 64 100 := by
    intro same
    have number := congrArg BitVec.toNat ((BitVec.zero_add _).symm.trans same)
    simp only [BitVec.toNat_ofNat] at number
    omega
  exact (if_neg other).symm

end BpfEquiv
