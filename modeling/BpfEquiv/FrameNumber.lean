import BpfEquiv.Effects
import BpfEquiv.Follow

/-!
Numbers of frames.

Each call of a function takes the next number for its frame. The number of the last frame
never goes down along a path, so a new frame has a number that no earlier one has.
-/
namespace BpfEquiv
open Smt Hoare List

def FrameLe (s s' : St) : Prop := s.counters.frame ≤ s'.counters.frame

instance : IsPreorder St FrameLe where
  refl _ := Nat.le_refl _
  trans _ _ _ h h' := Nat.le_trans h h'

instance : Footprint FrameLe where
  mem _ _ := Nat.le_refl _
  counters _ _ up := up
  exec _ _ _ := Nat.le_refl _
  first _ _ _ _ := Nat.le_refl _

/-- From a state with at least n frames on, the items of the result have at least n. -/
def Above (n : Nat) {α : Type} (v : α → List Item) (m : M α) : Prop :=
  ∀ s a s', Returns m s a s' → n ≤ s.counters.frame →
    n ≤ s'.counters.frame ∧ ∀ it ∈ v a, n ≤ it.counters.frame

section Above
variable {n : Nat} {α β : Type} {v : α → List Item} {v' : β → List Item}

theorem Above.pure {a : α} (h : ∀ it ∈ v a, n ≤ it.counters.frame) :
    Above n v (Pure.pure a : M α) := by
  intro s b s' returned above
  obtain ⟨rfl, rfl⟩ := returned.pure
  exact ⟨above, h⟩

theorem Above.throw (e : Err) : Above n v (MonadExcept.throw e : M α) :=
  fun _ _ _ returned => returned.throw

theorem Above.bind {m : M α} {f : α → M β} (first : Above n v m)
    (rest : ∀ a, (∀ it ∈ v a, n ≤ it.counters.frame) → Above n v' (f a)) :
    Above n v' (m >>= f) := by
  intro s b s' returned above
  obtain ⟨a, t, here, there⟩ := returned.bind
  obtain ⟨higher, mine⟩ := first s a t here above
  exact rest a mine t b s' there higher

theorem Above.after {m : M α} {f : α → M β} (moves : Moves FrameLe m)
    (rest : ∀ a, Above n v' (f a)) : Above n v' (m >>= f) := by
  intro s b s' returned above
  obtain ⟨a, t, here, there⟩ := returned.bind
  exact rest a t b s' there (Nat.le_trans above (moves s a t here))

theorem Above.ite {c : Prop} [Decidable c] {m m' : M α} (yes : Above n v m)
    (no : Above n v m') : Above n v (if c then m else m') := by
  split
  · exact yes
  · exact no

theorem Above.guard {c : Prop} [Decidable c] {e : Err} {m : M α} {k : β → M α}
    (rest : Above n v m) :
    Above n v (if c then (MonadExcept.throw e : M β) >>= k else m) :=
  .ite (fun _ _ _ returned => absurd returned.bind fun ⟨_, _, thrown, _⟩ =>
    thrown.throw) rest

end Above

/-! Steps. -/

variable {n : Nat} {cfg : Config} {it : Item} {ins : Insn} {what : String}

end BpfEquiv
