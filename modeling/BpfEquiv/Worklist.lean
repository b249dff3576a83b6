import Mathlib

/-!
Closing a list of nodes under successors with a list of nodes still to do.

A node is taken from the end of the work, and each of its successors that is not listed yet is
added to both lists. With a bound that counts the work and the nodes that may still be added,
nothing is left to do, and the listed nodes are closed under successors.
-/
namespace Worklist

open List

variable {α : Type}

structure State (α : Type) where
  hit : List α
  queue : List α

/-- Nothing is lost, and what is new in one list is in the other too. -/
structure Grows (s s' : State α) : Prop where
  hit : ∀ x ∈ s.hit, x ∈ s'.hit
  queue : ∀ x ∈ s.queue, x ∈ s'.queue
  newHit : ∀ x ∈ s'.hit, x ∈ s.hit ∨ x ∈ s'.queue
  newQueue : ∀ x ∈ s'.queue, x ∈ s.queue ∨ x ∈ s'.hit

theorem Grows.refl (s : State α) : Grows s s :=
  ⟨fun _ h => h, fun _ h => h, fun _ h => .inl h, fun _ h => .inl h⟩

theorem Grows.trans {s t u : State α} (first : Grows s t) (second : Grows t u) : Grows s u where
  hit x h := second.hit x (first.hit x h)
  queue x h := second.queue x (first.queue x h)
  newHit x h :=
    (second.newHit x h).elim (fun old => (first.newHit x old).imp id (second.queue x)) .inr
  newQueue x h :=
    (second.newQueue x h).elim (fun old => (first.newQueue x old).imp id (second.hit x)) .inr

variable [DecidableEq α]

def add (s : State α) (y : α) : State α :=
  if y ∈ s.hit then s else ⟨s.hit ++ [y], s.queue ++ [y]⟩

/-- The last node of the work, replaced by its new successors. -/
def visit (next : α → List α) (s : State α) (x : α) : State α :=
  (next x).foldl add ⟨s.hit, s.queue.dropLast⟩

def loop (next : α → List α) : Nat → State α → List α
  | 0, s => s.hit
  | fuel + 1, s =>
    match s.queue.getLast? with
    | none => s.hit
    | some x => loop next fuel (visit next s x)

variable {next : α → List α}

/-- Every listed node is still to do, or its successors are listed. -/
structure Inv (next : α → List α) (s : State α) : Prop where
  queued : ∀ x ∈ s.queue, x ∈ s.hit
  done : ∀ x ∈ s.hit, x ∈ s.queue ∨ ∀ y ∈ next x, y ∈ s.hit

/-- The nodes of a list that are not listed yet, and the work. -/
def measure (all : List α) (s : State α) : Nat :=
  s.queue.length + (all.filter (· ∉ s.hit)).length

theorem add_grows (s : State α) (y : α) : Grows s (add s y) := by
  unfold add
  split
  · exact Grows.refl s
  · exact ⟨fun x h => mem_append_left [y] h, fun x h => mem_append_left [y] h,
      fun x h => (mem_append.mp h).imp id (mem_append_right s.queue),
      fun x h => (mem_append.mp h).imp id (mem_append_right s.hit)⟩

theorem mem_add (s : State α) (y : α) : y ∈ (add s y).hit := by
  unfold add
  split
  · next old => exact old
  · exact mem_append_right s.hit (.head _)

theorem foldl_add_grows (ys : List α) (s : State α) :
    Grows s (ys.foldl add s) ∧ ∀ y ∈ ys, y ∈ (ys.foldl add s).hit := by
  induction ys generalizing s with
  | nil => exact ⟨Grows.refl s, fun y none => nomatch none⟩
  | cons y ys ih =>
    obtain ⟨grows, listed⟩ := ih (add s y)
    refine ⟨(add_grows s y).trans grows, fun z member => ?_⟩
    rcases mem_cons.mp member with rfl | later
    · exact grows.hit z (mem_add s z)
    · exact listed z later

theorem visit_inv {s : State α} {x : α} (inv : Inv next s) (last : s.queue.getLast? = some x) :
    Inv next (visit next s x) := by
  have split : s.queue = s.queue.dropLast ++ [x] := (dropLast_append_getLast? x last).symm
  obtain ⟨grows, listed⟩ := foldl_add_grows (next x) ⟨s.hit, s.queue.dropLast⟩
  refine ⟨fun z queued => ?_, fun z hit => ?_⟩
  · rcases grows.newQueue z queued with old | hit
    · exact grows.hit z (inv.queued z (mem_of_mem_dropLast old))
    · exact hit
  rcases grows.newHit z hit with old | queued
  · rcases inv.done z old with waiting | closed
    · rw [split] at waiting
      rcases mem_append.mp waiting with waits | isLast
      · exact .inl (grows.queue z waits)
      · rw [mem_singleton.mp isLast]
        exact .inr listed
    · exact .inr fun y edge => grows.hit y (closed y edge)
  · exact .inl queued

theorem measure_add_le {all : List α} {y : α} (member : y ∈ all) (s : State α) :
    measure all (add s y) ≤ measure all s := by
  unfold add
  split
  · exact Nat.le_refl _
  rename_i new
  -- The node moves from the ones that may be added to the work.
  have fewer : (all.filter (· ∉ s.hit ++ [y])).length < (all.filter (· ∉ s.hit)).length := by
    have parts : all.filter (· ∉ s.hit ++ [y]) = (all.filter (· ∉ s.hit)).filter (· ≠ y) := by
      rw [filter_filter]
      refine filter_congr fun z _ => ?_
      simp [not_or, and_comm]
    rw [parts]
    refine length_filter_lt_length_iff_exists.mpr ⟨y, ?_, by simp⟩
    exact mem_filter.mpr ⟨member, decide_eq_true new⟩
  simp only [measure, length_append, length_singleton]
  omega

theorem measure_foldl_le {all ys : List α} (members : ∀ y ∈ ys, y ∈ all) (s : State α) :
    measure all (ys.foldl add s) ≤ measure all s := by
  induction ys generalizing s with
  | nil => exact Nat.le_refl _
  | cons y ys ih =>
    have first := measure_add_le (members y (.head _)) s
    exact Nat.le_trans (ih (fun z later => members z (.tail y later)) _) first

theorem loop_closed {all : List α} (members : ∀ x, ∀ y ∈ next x, y ∈ all) {fuel : Nat} {s : State α}
    (inv : Inv next s) (enough : measure all s ≤ fuel) :
    (∀ x ∈ s.hit, x ∈ loop next fuel s) ∧
      ∀ x ∈ loop next fuel s, ∀ y ∈ next x, y ∈ loop next fuel s := by
  induction fuel generalizing s with
  | zero =>
    have idle : s.queue = [] := by
      unfold measure at enough
      exact length_eq_zero_iff.mp (by omega)
    refine ⟨fun x h => h, fun x h => ?_⟩
    rcases inv.done x h with waiting | closed
    · rw [idle] at waiting
      cases waiting
    · exact closed
  | succ fuel ih =>
    rw [loop]
    cases last : s.queue.getLast? with
    | none =>
      refine ⟨fun x h => h, fun x h => ?_⟩
      rcases inv.done x h with waiting | closed
      · rw [List.getLast?_eq_none_iff.mp last] at waiting
        cases waiting
      · exact closed
    | some x =>
      have smaller : measure all ⟨s.hit, s.queue.dropLast⟩ < measure all s := by
        have some' : s.queue ≠ [] := fun idle => by simp [idle] at last
        have length := length_pos_iff.mpr some'
        simp only [measure, length_dropLast]
        omega
      have visited : measure all (visit next s x) ≤ fuel := by
        have le := measure_foldl_le (members x) ⟨s.hit, s.queue.dropLast⟩
        unfold visit
        omega
      obtain ⟨kept, closed⟩ := ih (visit_inv inv last) visited
      refine ⟨fun z h => kept z ?_, closed⟩
      exact (foldl_add_grows (next x) ⟨s.hit, s.queue.dropLast⟩).1.hit z h

/-- What holds of the first nodes and passes on to successors holds of every listed node. -/
theorem loop_forall {P : α → Prop} (step : ∀ x, P x → ∀ y ∈ next x, P y) {fuel : Nat} {s : State α}
    (hit : ∀ x ∈ s.hit, P x) (queued : ∀ x ∈ s.queue, P x) : ∀ x ∈ loop next fuel s, P x := by
  induction fuel generalizing s with
  | zero => exact hit
  | succ fuel ih =>
    rw [loop]
    split
    · exact hit
    rename_i x last
    have added (ys : List α) (all : ∀ y ∈ ys, P y) (t : State α) (hit : ∀ x ∈ t.hit, P x)
        (queued : ∀ x ∈ t.queue, P x) :
        (∀ x ∈ (ys.foldl add t).hit, P x) ∧ ∀ x ∈ (ys.foldl add t).queue, P x := by
      induction ys generalizing t with
      | nil => exact ⟨hit, queued⟩
      | cons y ys ih =>
        have new (l : List α) (old : ∀ x ∈ l, P x) : ∀ x ∈ l ++ [y], P x := fun x member =>
          (mem_append.mp member).elim (old x) fun same => mem_singleton.mp same ▸ all y (.head _)
        refine ih (fun z later => all z (.tail y later)) (add t y) ?_ ?_
        · unfold add
          split
          · exact hit
          · exact new _ hit
        · unfold add
          split
          · exact queued
          · exact new _ queued
    have here : P x := queued x (mem_of_getLast? last)
    obtain ⟨hit', queued'⟩ := added (next x) (step x here) ⟨s.hit, s.queue.dropLast⟩ hit
      fun y member => queued y (mem_of_mem_dropLast member)
    exact ih hit' queued'

end Worklist
