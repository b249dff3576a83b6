import Mathlib

/-!
Depth-first placement of the nodes of a graph, each after its successors.

A node is marked when it is first met, its successors are placed, and then it is placed itself.
With a bound that counts the nodes still unmarked, every node is placed exactly once, on any
graph. Without cycles each node comes after its successors, and a list in such an order is
placed as it stands.
-/
namespace DepthFirst

open List Relation

variable {α : Type}

structure Placed (α : Type) where
  seen : List α
  order : List α

/-- Every node comes after its successors. -/
def Sorted (next : α → List α) (l : List α) : Prop :=
  ∀ before x after, l = before ++ x :: after → ∀ y ∈ next x, y ∈ before

/-- The nodes placed by a computation, in their order. -/
structure Adds (all : List α) (st st' : Placed α) (new : List α) : Prop where
  order : st'.order = st.order ++ new
  seen : ∀ y, y ∈ st'.seen ↔ y ∈ st.seen ∨ y ∈ new
  fresh : ∀ y ∈ new, y ∈ all ∧ y ∉ st.seen
  nodup : new.Nodup

theorem Adds.trans {all new new' : List α} {st st' st'' : Placed α} (first : Adds all st st' new)
    (second : Adds all st' st'' new') : Adds all st st'' (new ++ new') where
  order := by rw [second.order, first.order, append_assoc]
  seen y := by rw [second.seen, first.seen, mem_append, or_assoc]
  fresh y h := by
    rcases mem_append.mp h with h | h
    · exact first.fresh y h
    · exact ⟨(second.fresh y h).1, fun old => (second.fresh y h).2 ((first.seen y).mpr (.inl old))⟩
  nodup := by
    refine first.nodup.append second.nodup fun y h h' => ?_
    exact (second.fresh y h').2 ((first.seen y).mpr (.inr h))

/-- Marked, but not placed yet. -/
def Placed.IsOpen (st : Placed α) (x : α) : Prop := x ∈ st.seen ∧ x ∉ st.order

theorem Adds.isOpen {all new : List α} {st st' : Placed α} {x : α} (adds : Adds all st st' new)
    (h : st'.IsOpen x) : st.IsOpen x := by
  have out := h.2
  rw [adds.order, mem_append, not_or] at out
  exact ⟨((adds.seen x).mp h.1).resolve_right out.2, out.1⟩

theorem Sorted.snoc {next : α → List α} {l : List α} {x : α} (h : Sorted next l)
    (below : ∀ y ∈ next x, y ∈ l) : Sorted next (l ++ [x]) := by
  intro before z after same y edge
  rcases after.eq_nil_or_concat with rfl | ⟨after, w, rfl⟩
  · obtain ⟨rfl, rfl⟩ := append_inj' same rfl |>.imp id fun h => (cons.inj h).1
    exact below y edge
  · rw [concat_eq_append, ← cons_append, ← append_assoc] at same
    exact h before z after (append_inj' same rfl).1 y edge

variable [DecidableEq α] (next : α → List α)

def place : Nat → Placed α → α → Option (Placed α)
  | 0, _, _ => none
  | fuel + 1, st, x =>
    if x ∈ st.seen then some st
    else ((next x).foldlM (place fuel) ⟨x :: st.seen, st.order⟩).map fun st =>
      ⟨st.seen, st.order ++ [x]⟩

def sort (all : List α) : Option (List α) :=
  (all.foldlM (place next (all.length + 1)) ⟨[], []⟩).map (·.order)

def unseen (all : List α) (st : Placed α) : Nat := (all.filter (· ∉ st.seen)).length

/-- Without cycles: where the open nodes lead to the one at hand, the order stays sorted. -/
def KeepsSorted (next : α → List α) (st st' : Placed α) (l : List α) : Prop :=
  (∀ x, ¬ TransGen (fun a b => b ∈ next a) x x) →
    (∀ y, st.IsOpen y → ∀ x ∈ l, TransGen (fun a b => b ∈ next a) y x) →
    Sorted next st.order → Sorted next st'.order

variable {next} {all : List α}

theorem filter_unseen {seen seen' : List α} (more : seen ⊆ seen') :
    all.filter (· ∉ seen') <+ all.filter (· ∉ seen) := by
  refine monotone_filter_right all fun y h => ?_
  rw [decide_eq_true_eq] at h ⊢
  exact fun old => h (more old)

theorem Adds.unseen_le {new : List α} {st st' : Placed α} (adds : Adds all st st' new) :
    unseen all st' ≤ unseen all st :=
  (filter_unseen fun y old => (adds.seen y).mpr (.inl old)).length_le

/-- Where each node of a list can be placed, the nodes are placed one after the other. -/
theorem foldlM_adds {fuel : Nat} {l : List α}
    (one : ∀ x ∈ l, ∀ st, unseen all st < fuel → ∃ st' new, place next fuel st x = some st' ∧
      Adds all st st' new ∧ x ∈ st'.seen ∧ KeepsSorted next st st' [x])
    {st : Placed α} (enough : unseen all st < fuel) :
    ∃ st' new, l.foldlM (place next fuel) st = some st' ∧ Adds all st st' new ∧
      (∀ x ∈ l, x ∈ st'.seen) ∧ KeepsSorted next st st' l := by
  induction l generalizing st with
  | nil => exact ⟨st, [], rfl, ⟨by simp, by simp, by simp, nodup_nil⟩, by simp, fun _ _ h => h⟩
  | cons x l ih =>
    obtain ⟨st₁, new₁, placed, adds₁, here, sorted₁⟩ := one x (.head l) st enough
    obtain ⟨st₂, new₂, rest, adds₂, later, sorted₂⟩ :=
      ih (fun y member => one y (.tail x member)) (adds₁.unseen_le.trans_lt enough)
    refine ⟨st₂, new₁ ++ new₂, ?_, adds₁.trans adds₂, ?_, fun acyclic opens sorted => ?_⟩
    · rw [foldlM_cons, placed]
      exact rest
    · exact forall_mem_cons.mpr ⟨(adds₂.seen x).mpr (.inl here), later⟩
    · refine sorted₂ acyclic (fun y h z member => ?_)
        (sorted₁ acyclic (fun y h z member => ?_) sorted)
      · exact opens y (adds₁.isOpen h) z (.tail x member)
      · exact opens y h z (mem_singleton.mp member ▸ .head l)

theorem place_adds (closed : ∀ x ∈ all, ∀ y ∈ next x, y ∈ all) (fuel : Nat) {x : α}
    (inside : x ∈ all) (st : Placed α) (enough : unseen all st < fuel) :
    ∃ st' new, place next fuel st x = some st' ∧ Adds all st st' new ∧ x ∈ st'.seen ∧
      KeepsSorted next st st' [x] := by
  induction fuel generalizing x st with
  | zero => cases enough
  | succ fuel ih =>
    rw [place]
    by_cases old : x ∈ st.seen
    · rw [if_pos old]
      exact ⟨st, [], rfl, ⟨by simp, by simp, by simp, nodup_nil⟩, old, fun _ _ h => h⟩
    have fewer : unseen all ⟨x :: st.seen, st.order⟩ < fuel := by
      have sub := @filter_unseen α _ all _ _ (subset_cons_self x st.seen)
      refine Nat.lt_of_lt_of_le (sub.length_le.lt_of_ne fun same => ?_) (Nat.lt_succ_iff.mp enough)
      have member : x ∈ all.filter (· ∉ x :: st.seen) := by
        rw [sub.eq_of_length same]
        exact mem_filter.mpr ⟨inside, decide_eq_true old⟩
      exact of_decide_eq_true (mem_filter.mp member).2 (.head _)
    obtain ⟨st₁, new, placed, adds, below, sorted₁⟩ :=
      foldlM_adds (fun y edge st => ih (closed x inside y edge) st) fewer
    have apart : x ∉ new := fun h => (adds.fresh x h).2 (.head _)
    refine ⟨⟨st₁.seen, st₁.order ++ [x]⟩, new ++ [x], by rw [if_neg old, placed]; rfl, ?_, ?_, ?_⟩
    · refine ⟨by simp [adds.order], fun y => ?_, fun y h => ?_, ?_⟩
      · rw [adds.seen, mem_cons, mem_append, mem_singleton]
        tauto
      · rcases mem_append.mp h with h | h
        · exact ⟨(adds.fresh y h).1, fun o => (adds.fresh y h).2 (.tail x o)⟩
        · exact mem_singleton.mp h ▸ ⟨inside, old⟩
      · exact adds.nodup.append (nodup_singleton x) (disjoint_singleton.mpr apart)
    · exact (adds.seen x).mpr (.inl (.head _))
    · intro acyclic opens sorted
      -- an open successor would lead back to the node
      have leads : ∀ z, Placed.IsOpen ⟨x :: st.seen, st.order⟩ z →
          ReflTransGen (fun a b => b ∈ next a) z x := by
        intro z h
        rcases mem_cons.mp h.1 with rfl | before
        · exact .refl
        · exact (opens z ⟨before, h.2⟩ x (.head _)).to_reflTransGen
      refine (sorted₁ acyclic (fun z h y edge => .tail' (leads z h) edge) sorted).snoc
        fun y edge => ?_
      by_contra out
      exact acyclic x (.head' edge (leads y (adds.isOpen ⟨below y edge, out⟩)))

/-- Every node is placed once, and after its successors if there is no cycle. -/
theorem sort_spec (closed : ∀ x ∈ all, ∀ y ∈ next x, y ∈ all) (nodup : all.Nodup) :
    ∃ order, sort next all = some order ∧ order ~ all ∧
      ((∀ x, ¬ TransGen (fun a b => b ∈ next a) x x) → Sorted next order) := by
  have enough : unseen all ⟨[], []⟩ < all.length + 1 :=
    Nat.lt_succ_of_le (length_filter_le _ all)
  obtain ⟨st, new, placed, adds, every, sorted⟩ :=
    foldlM_adds (fun x inside => place_adds closed _ inside) enough
  have order : st.order = new := adds.order
  refine ⟨new, by rw [sort, placed, Option.map_some, order], ?_, fun acyclic => ?_⟩
  · refine (perm_ext_iff_of_nodup adds.nodup nodup).mpr fun x => ⟨fun h => (adds.fresh x h).1, ?_⟩
    exact fun h => ((adds.seen x).mp (every x h)).resolve_left not_mem_nil
  · refine order ▸ sorted acyclic (fun y h => absurd h.1 not_mem_nil) fun before x after same => ?_
    exact absurd same (by simp)

theorem sort_of_sorted (sorted : Sorted next all) (nodup : all.Nodup) :
    sort next all = some all := by
  have stays (fuel : Nat) (l : List α) (st : Placed α) (seen : ∀ x ∈ l, x ∈ st.seen) :
      l.foldlM (place next (fuel + 1)) st = some st := by
    induction l with
    | nil => rfl
    | cons x l ih =>
      rw [foldlM_cons, place, if_pos (seen x (.head l))]
      exact ih fun y h => seen y (.tail x h)
  have run (fuel : Nat) (l : List α) (st : Placed α) (whole : st.order ++ l = all)
      (seen : ∀ x, x ∈ st.seen ↔ x ∈ st.order) :
      ∃ st', l.foldlM (place next (fuel + 2)) st = some st' ∧ st'.order = all := by
    induction l generalizing st with
    | nil => exact ⟨st, rfl, by rw [← whole, append_nil]⟩
    | cons x l ih =>
      have new : x ∉ st.seen := by
        rw [seen]
        rw [← whole] at nodup
        exact fun old => disjoint_of_nodup_append nodup old (.head l)
      rw [foldlM_cons, place, if_neg new, stays fuel _ _ fun y edge =>
        .tail x ((seen y).mpr (sorted st.order x l whole.symm y edge))]
      refine ih ⟨x :: st.seen, st.order ++ [x]⟩ (by rw [append_assoc]; exact whole) fun y => ?_
      rw [mem_cons, seen, mem_append, mem_singleton, or_comm]
  cases all with
  | nil => rfl
  | cons x l =>
    obtain ⟨st, placed, order⟩ := run l.length (x :: l) ⟨[], []⟩ rfl (by simp)
    rw [sort, length_cons, placed, Option.map_some, order]

end DepthFirst
