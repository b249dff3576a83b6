import Mathlib

/-!
Computations that may fail. A sequence succeeds if its parts do; a fold keeps what each of
its steps keeps, and ends with what one of its steps establishes and the others keep.
-/
namespace Exc

open List

variable {ε α β : Type}

theorem bind_eq_ok {x : Except ε α} {f : α → Except ε β} {b : β} :
    x >>= f = .ok b ↔ ∃ a, x = .ok a ∧ f a = .ok b := by
  cases x with
  | error e => simp [bind, Except.bind]
  | ok a => simp [bind, Except.bind]

section Fold
variable {f : β → α → Except ε β} {l : List α} {b b' : β} {I P : β → Prop}

theorem foldlM_keeps (step : ∀ a ∈ l, ∀ b b', f b a = .ok b' → I b → I b')
    (h : l.foldlM f b = .ok b') (start : I b) : I b' := by
  induction l generalizing b with
  | nil =>
    cases h
    exact start
  | cons a l ih =>
    rw [foldlM_cons] at h
    obtain ⟨c, first, rest⟩ := bind_eq_ok.mp h
    exact ih (fun x member => step x (.tail a member)) rest
      (step a (.head _) b c first start)

theorem foldlM_establishes (inv : ∀ a ∈ l, ∀ b b', f b a = .ok b' → I b → I b')
    (keep : ∀ a ∈ l, ∀ b b', f b a = .ok b' → P b → P b') {a : α} (member : a ∈ l)
    (est : ∀ b b', f b a = .ok b' → I b → P b') (h : l.foldlM f b = .ok b') (start : I b) :
    P b' := by
  induction l generalizing b with
  | nil => exact absurd member not_mem_nil
  | cons x l ih =>
    rw [foldlM_cons] at h
    obtain ⟨c, first, rest⟩ := bind_eq_ok.mp h
    have keepRest := fun y inside => keep y (.tail x inside)
    cases mem_cons.mp member with
    | inl here =>
      subst here
      exact foldlM_keeps keepRest rest (est b c first start)
    | inr later =>
      exact ih (fun y inside => inv y (.tail x inside)) keepRest later rest
        (inv x (.head _) b c first start)

end Fold

theorem mapM_ok {f : α → Except ε β} {l : List α} {bs : List β} (h : l.mapM f = .ok bs) :
    l.map f = bs.map .ok := by
  induction l generalizing bs with
  | nil =>
    cases h
    rfl
  | cons a l ih =>
    rw [mapM_cons] at h
    obtain ⟨b, first, h⟩ := bind_eq_ok.mp h
    obtain ⟨bs', rest, h⟩ := bind_eq_ok.mp h
    cases h
    rw [map_cons, map_cons, first, ih rest]

/-- The results of a list, each from its own element. -/
theorem mapM_eq_some_iff {f : α → Option β} {l : List α} {bs : List β} :
    l.mapM f = some bs ↔ List.Forall₂ (fun a b => f a = some b) l bs := by
  constructor
  · intro h
    induction l generalizing bs with
    | nil =>
      cases h
      exact .nil
    | cons a l ih =>
      rw [mapM_cons] at h
      obtain ⟨b, first, h⟩ := Option.bind_eq_some_iff.mp h
      obtain ⟨bs', rest, h⟩ := Option.bind_eq_some_iff.mp h
      cases h
      exact .cons first (ih rest)
  · intro h
    induction h with
    | nil => rfl
    | cons first _ ih =>
      rw [mapM_cons, first, ih]
      rfl

theorem exists_of_forall₂ {R : α → β → Prop} {l : List α} {bs : List β} (h : Forall₂ R l bs)
    {a : α} (member : a ∈ l) : ∃ b ∈ bs, R a b := by
  induction h with
  | nil => cases member
  | cons first _ ih =>
    rcases mem_cons.mp member with rfl | later
    · exact ⟨_, .head _, first⟩
    · obtain ⟨b, inside, related⟩ := ih later
      exact ⟨b, .tail _ inside, related⟩

theorem exists_of_mapM {f : α → Option β} {l : List α} {bs : List β} (h : l.mapM f = some bs)
    {a : α} (member : a ∈ l) : ∃ b ∈ bs, f a = some b :=
  exists_of_forall₂ (mapM_eq_some_iff.mp h) member

end Exc
