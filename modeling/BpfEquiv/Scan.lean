import Mathlib

/-!
All places of a text at which a pattern matches, from left to right and without overlap.

A pattern is a function of the element before a place and of the text from there on. It gives a
value and what is left of the text after the match. Every match is a place of the text where the
pattern matches; a place where it does is found unless an earlier match reaches over it.
-/
namespace Scan

open List

variable {α β : Type}

structure Found (β : Type) where
  value : β
  start : Nat
  stop : Nat
  deriving DecidableEq

/-- The search from a place on, with the number of elements that the last match still covers. -/
def finditerFrom (m : Option α → List α → Option (β × List α)) :
    Nat → Nat → Option α → List α → List (Found β)
  | _, _, _, [] => []
  | pos, skip + 1, _, c :: cs => finditerFrom m (pos + 1) skip (some c) cs
  | pos, 0, prev, c :: cs =>
    match m prev (c :: cs) with
    | none => finditerFrom m (pos + 1) 0 (some c) cs
    | some (value, rest) =>
      let length := (c :: cs).length - rest.length
      ⟨value, pos, pos + length⟩ :: finditerFrom m (pos + 1) (length - 1) (some c) cs

def finditer (m : Option α → List α → Option (β × List α)) (s : List α) : List (Found β) :=
  finditerFrom m 0 0 none s

variable {m : Option α → List α → Option (β × List α)}

/-- A match at the place between two parts of a text. -/
structure MatchAt (m : Option α → List α → Option (β × List α)) (before s : List α)
    (x : Found β) : Prop where
  ne : s ≠ []
  found : ∃ rest, m before.getLast? s = some (x.value, rest) ∧
    x.stop = before.length + (s.length - rest.length)
  start : x.start = before.length

theorem finditerFrom_snoc (before : List α) (c : α) (skip : Nat) (cs : List α) :
    finditerFrom m (before.length + 1) skip (some c) cs =
      finditerFrom m (before ++ [c]).length skip (before ++ [c]).getLast? cs := by
  rw [length_append, List.getLast?_append_of_ne_nil _ (cons_ne_nil c [])]
  rfl

theorem finditerFrom_sound {before s : List α} {skip : Nat} {x : Found β}
    (h : x ∈ finditerFrom m before.length skip before.getLast? s) :
    before.length + skip ≤ x.start ∧
      ∃ mid rest, s = mid ++ rest ∧ MatchAt m (before ++ mid) rest x := by
  induction s generalizing before skip with
  | nil => cases h
  | cons c cs ih =>
    have step {skip' : Nat} (h : x ∈ finditerFrom m (before.length + 1) skip' (some c) cs) :
        before.length + 1 + skip' ≤ x.start ∧
          ∃ mid rest, c :: cs = mid ++ rest ∧ MatchAt m (before ++ mid) rest x := by
      rw [finditerFrom_snoc] at h
      obtain ⟨bound, mid, rest, rfl, found⟩ := ih h
      rw [length_append, length_singleton] at bound
      refine ⟨bound, c :: mid, rest, rfl, ?_⟩
      rw [append_assoc] at found
      exact found
    cases skip with
    | succ skip =>
      rw [finditerFrom] at h
      obtain ⟨bound, found⟩ := step h
      exact ⟨by omega, found⟩
    | zero =>
      rw [finditerFrom] at h
      split at h
      · obtain ⟨bound, found⟩ := step h
        exact ⟨by omega, found⟩
      rename_i value rest isMatch
      rcases mem_cons.mp h with rfl | later
      · refine ⟨Nat.le_refl _, [], c :: cs, rfl, ?_⟩
        rw [append_nil]
        exact ⟨cons_ne_nil c cs, ⟨rest, isMatch, rfl⟩, rfl⟩
      · obtain ⟨bound, found⟩ := step later
        exact ⟨by omega, found⟩

theorem matchAt_of_mem {s : List α} {x : Found β} (h : x ∈ finditer m s) :
    ∃ before rest, s = before ++ rest ∧ MatchAt m before rest x := by
  have ⟨_, mid, rest, split, found⟩ := @finditerFrom_sound α β m [] s 0 x h
  exact ⟨mid, rest, split, found⟩

theorem finditerFrom_pairwise (before s : List α) (skip : Nat) :
    (finditerFrom m before.length skip before.getLast? s).Pairwise (·.start < ·.start) := by
  induction s generalizing before skip with
  | nil => exact .nil
  | cons c cs ih =>
    have step (skip' : Nat) :
        (finditerFrom m (before.length + 1) skip' (some c) cs).Pairwise (·.start < ·.start) := by
      rw [finditerFrom_snoc]
      exact ih (before ++ [c]) skip'
    cases skip with
    | succ skip => exact step skip
    | zero =>
      rw [finditerFrom]
      split
      · exact step 0
      rename_i value rest isMatch
      refine pairwise_cons.mpr ⟨fun x later => ?_, step _⟩
      rw [finditerFrom_snoc] at later
      have bound := (finditerFrom_sound later).1
      rw [length_append, length_singleton] at bound
      exact Nat.lt_of_lt_of_le (Nat.lt_succ_self _) (Nat.le_trans (Nat.le_add_right _ _) bound)

theorem finditer_pairwise (s : List α) : (finditer m s).Pairwise (·.start < ·.start) :=
  finditerFrom_pairwise [] s 0

/-- No match from before a place reaches over it. -/
def Reached (m : Option α → List α → Option (β × List α)) (before s : List α) : Prop :=
  ∀ front mid, before = front ++ mid → mid ≠ [] → ∀ value rest,
    m front.getLast? (mid ++ s) = some (value, rest) → s.length ≤ rest.length

theorem mem_finditerFrom {before mid s rest : List α} {skip : Nat} {value : β}
    (ne : s ≠ []) (found : m (before ++ mid).getLast? s = some (value, rest))
    (reached : Reached m (before ++ mid) s) (covered : skip ≤ mid.length) :
    ⟨value, before.length + mid.length, before.length + mid.length + (s.length - rest.length)⟩ ∈
      finditerFrom m before.length skip before.getLast? (mid ++ s) := by
  induction mid generalizing before skip with
  | nil =>
    cases s with
    | nil => exact absurd rfl ne
    | cons c cs =>
      cases skip with
      | succ skip => exact absurd covered (Nat.not_succ_le_zero skip)
      | zero =>
        rw [append_nil] at found
        rw [nil_append, finditerFrom, found]
        exact .head _
  | cons c mid ih =>
    have step {skip' : Nat} (covered : skip' ≤ mid.length) :
        ⟨value, before.length + (c :: mid).length,
          before.length + (c :: mid).length + (s.length - rest.length)⟩ ∈
          finditerFrom m (before.length + 1) skip' (some c) (mid ++ s) := by
      have joined : (before ++ [c]) ++ mid = before ++ c :: mid := by
        rw [append_assoc, singleton_append]
      have shifted := @ih (before ++ [c]) skip' (joined ▸ found) (joined ▸ reached) covered
      rw [← finditerFrom_snoc, length_append, length_singleton] at shifted
      rw [length_cons, Nat.add_comm mid.length 1, ← Nat.add_assoc]
      exact shifted
    rw [length_cons] at covered
    rw [cons_append]
    cases skip with
    | succ skip => exact step (Nat.le_of_succ_le_succ covered)
    | zero =>
      rw [finditerFrom]
      split
      · exact step (Nat.zero_le _)
      rename_i value' rest' isMatch
      have stops := reached before (c :: mid) rfl (cons_ne_nil c mid) value' rest' isMatch
      refine .tail _ (step ?_)
      rw [length_cons, length_append]
      omega

theorem mem_finditer {before s rest : List α} {value : β} (ne : s ≠ [])
    (found : m before.getLast? s = some (value, rest)) (reached : Reached m before s) :
    ⟨value, before.length, before.length + (s.length - rest.length)⟩ ∈
      finditer m (before ++ s) := by
  have inside := @mem_finditerFrom α β m [] before s rest 0 value ne found reached (Nat.zero_le _)
  rw [length_nil, Nat.zero_add] at inside
  exact inside

end Scan
