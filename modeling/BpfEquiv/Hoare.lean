import Mathlib

/-!
Partial correctness for computations with a state and exceptions.

Returns relates a computation and its initial state to a normal result. The rules
below take such a run apart along the structure of the computation. Ensures is the
special case of a fact about the result alone, from every initial state, and Moves that
of a preorder between the initial and the final state, whatever the result. Raises is
the other outcome; OnlyRaises bounds the exceptions a run can end with.
-/
namespace Hoare

open List

variable {σ ε α β : Type}

def Returns (m : StateT σ (Except ε) α) (s : σ) (a : α) (s' : σ) : Prop :=
  m.run s = .ok (a, s')

section Returns
variable {m : StateT σ (Except ε) α} {s s' : σ}

@[simp] theorem returns_pure {a b : α} :
    Returns (pure a : StateT σ (Except ε) α) s b s' ↔ b = a ∧ s' = s := by
  simp only [Returns, StateT.run_pure]
  constructor
  · intro h
    cases h
    exact ⟨rfl, rfl⟩
  · rintro ⟨rfl, rfl⟩
    rfl

theorem returns_bind {f : α → StateT σ (Except ε) β} {b : β} :
    Returns (m >>= f) s b s' ↔ ∃ a t, Returns m s a t ∧ Returns (f a) t b s' := by
  simp only [Returns, StateT.run_bind]
  constructor
  · intro h
    cases hm : m.run s with
    | error e => simp [hm, bind, Except.bind] at h
    | ok r =>
      rw [hm] at h
      exact ⟨r.1, r.2, rfl, h⟩
  · rintro ⟨a, t, hm, hf⟩
    rw [hm]
    exact hf

@[simp] theorem returns_get {a : σ} :
    Returns (get : StateT σ (Except ε) σ) s a s' ↔ a = s ∧ s' = s := by
  change (Except.ok (s, s) : Except ε (σ × σ)) = .ok (a, s') ↔ _
  simp [eq_comm]

@[simp] theorem returns_modify {f : σ → σ} {u : PUnit} :
    Returns (modify f : StateT σ (Except ε) PUnit) s u s' ↔ s' = f s := by
  change (Except.ok (PUnit.unit, f s) : Except ε (PUnit × σ)) = .ok (u, s') ↔ _
  simp [eq_comm]

@[simp] theorem returns_throw {e : ε} {a : α} :
    ¬ Returns (throw e : StateT σ (Except ε) α) s a s' := by
  intro h
  cases h

theorem Returns.pure {a b : α} (h : Returns (pure a : StateT σ (Except ε) α) s b s') :
    b = a ∧ s' = s :=
  returns_pure.mp h

theorem Returns.bind {f : α → StateT σ (Except ε) β} {b : β} (h : Returns (m >>= f) s b s') :
    ∃ a t, Returns m s a t ∧ Returns (f a) t b s' :=
  returns_bind.mp h

theorem Returns.throw {e : ε} {a : α} {p : Prop}
    (h : Returns (throw e : StateT σ (Except ε) α) s a s') : p :=
  absurd h returns_throw

theorem returns_get_bind {f : σ → StateT σ (Except ε) β} {b : β} :
    Returns (get >>= f) s b s' ↔ Returns (f s) s b s' := by
  rw [returns_bind]
  constructor
  · rintro ⟨_, _, first, rest⟩
    obtain ⟨rfl, rfl⟩ := returns_get.mp first
    exact rest
  · exact fun rest => ⟨s, s, returns_get.mpr ⟨rfl, rfl⟩, rest⟩

theorem returns_modify_bind {g : σ → σ} {f : PUnit → StateT σ (Except ε) β} {b : β} :
    Returns (modify g >>= f) s b s' ↔ Returns (f ⟨⟩) (g s) b s' := by
  rw [returns_bind]
  constructor
  · rintro ⟨_, _, first, rest⟩
    rw [returns_modify.mp first] at rest
    exact rest
  · exact fun rest => ⟨⟨⟩, g s, returns_modify.mpr rfl, rest⟩

/-- An invariant of the elements' computations holds along the list, and each result is
as its own computation leaves it. -/
theorem returns_mapM {γ : Type} {f : γ → StateT σ (Except ε) α} {I : σ → Prop}
    {Q : γ → α → Prop} {l : List γ} {as : List α}
    (each : ∀ x ∈ l, ∀ t a t', I t → Returns (f x) t a t' → I t' ∧ Q x a) (start : I s)
    (h : Returns (l.mapM f) s as s') : I s' ∧ List.Forall₂ Q l as := by
  induction l generalizing s as with
  | nil =>
    rw [mapM_nil] at h
    obtain ⟨rfl, rfl⟩ := returns_pure.mp h
    exact ⟨start, .nil⟩
  | cons x xs ih =>
    rw [mapM_cons] at h
    obtain ⟨a, t, first, h⟩ := returns_bind.mp h
    obtain ⟨as', t', rest, h⟩ := returns_bind.mp h
    obtain ⟨rfl, rfl⟩ := returns_pure.mp h
    obtain ⟨kept, result⟩ := each x (.head _) s a t start first
    obtain ⟨kept', results⟩ :=
      ih (fun y later => each y (.tail x later)) kept rest
    exact ⟨kept', .cons result results⟩

/-- A loop over the numbers below a bound, with an invariant that counts the rounds. -/
theorem returns_forM_range {f : Nat → StateT σ (Except ε) PUnit} {I : Nat → σ → Prop} {n : Nat}
    {u : PUnit} (start : I 0 s)
    (round : ∀ k t t' v, k < n → I k t → Returns (f k) t v t' → I (k + 1) t')
    (h : Returns ((List.range n).forM f) s u s') : I n s' := by
  induction n generalizing s' with
  | zero =>
    simp only [range_zero, forM_eq_forM, forM_nil] at h
    rw [(returns_pure.mp h).2]
    exact start
  | succ n ih =>
    simp only [range_succ, forM_eq_forM, forM_append, forM_cons,
      forM_nil] at h
    obtain ⟨_, t, first, last⟩ := returns_bind.mp h
    obtain ⟨_, t', once, last⟩ := returns_bind.mp last
    rw [(returns_pure.mp last).2]
    exact round n t t' _ (Nat.lt_succ_self n)
      (ih (fun k t t' v hk => round k t t' v (Nat.lt_succ_of_lt hk)) first) once

end Returns

/-- Every normal result satisfies a property. -/
def Ensures (m : StateT σ (Except ε) α) (Q : α → Prop) : Prop :=
  ∀ s a s', Returns m s a s' → Q a

namespace Ensures
variable {m : StateT σ (Except ε) α} {P Q : α → Prop}

theorem pure {a : α} (h : Q a) : Ensures (Pure.pure a : StateT σ (Except ε) α) Q := by
  intro s b s' returned
  rw [(returns_pure.mp returned).1]
  exact h

theorem throw (e : ε) : Ensures (MonadExcept.throw e : StateT σ (Except ε) α) Q :=
  fun _ _ _ returned => absurd returned returns_throw

theorem bind {f : α → StateT σ (Except ε) β} {R : β → Prop} (hm : Ensures m Q)
    (hf : ∀ a, Q a → Ensures (f a) R) : Ensures (m >>= f) R := by
  intro s b s' returned
  obtain ⟨a, t, first, rest⟩ := returns_bind.mp returned
  exact hf a (hm s a t first) t b s' rest

/-- The result of the first part does not matter. -/
theorem andThen {f : α → StateT σ (Except ε) β} {R : β → Prop} (hf : ∀ a, Ensures (f a) R) :
    Ensures (m >>= f) R :=
  bind (Q := fun _ => True) (fun _ _ _ _ => trivial) fun a _ => hf a

theorem ite {c : Prop} [Decidable c] {m n : StateT σ (Except ε) α} (hm : c → Ensures m Q)
    (hn : ¬ c → Ensures n Q) : Ensures (if c then m else n) Q := by
  split
  · next h => exact hm h
  · next h => exact hn h

/-- A check that stops the computation leaves only the rest to prove. -/
theorem guard {c : Prop} [Decidable c] {stop : StateT σ (Except ε) β}
    {rest : StateT σ (Except ε) α} (h : Ensures rest Q) :
    Ensures (if c then stop >>= fun _ => rest else rest) Q :=
  ite (fun _ => andThen fun _ => h) fun _ => h

theorem mono (hm : Ensures m P) (h : ∀ a, P a → Q a) : Ensures m Q :=
  fun s a s' returned => h a (hm s a s' returned)

/-- What is known of each result is known of the list of results. -/
theorem mapM {γ δ : Type} {f : γ → StateT σ (Except ε) α} {g : α → δ} {h : γ → δ}
    (hf : ∀ x, Ensures (f x) fun a => g a = h x) (l : List γ) :
    Ensures (l.mapM f) fun as => as.map g = l.map h := by
  induction l with
  | nil =>
    rw [mapM_nil]
    exact pure rfl
  | cons x xs ih =>
    rw [mapM_cons]
    refine bind (hf x) fun a ha => bind ih fun as has => pure ?_
    rw [map_cons, map_cons, ha, has]

theorem mapM_all {γ : Type} {f : γ → StateT σ (Except ε) α} {l : List γ}
    (hf : ∀ x ∈ l, Ensures (f x) Q) : Ensures (l.mapM f) fun as => ∀ a ∈ as, Q a := by
  induction l with
  | nil =>
    rw [mapM_nil]
    exact pure nofun
  | cons x xs ih =>
    rw [mapM_cons]
    refine bind (hf x (.head _)) fun a ha =>
      bind (ih fun y later => hf y (.tail x later)) fun as has => pure ?_
    exact forall_mem_cons.mpr ⟨ha, has⟩

end Ensures

/-- Every normal result leaves the state further along a preorder. -/
def Moves (R : σ → σ → Prop) (m : StateT σ (Except ε) α) : Prop :=
  ∀ s a s', Returns m s a s' → R s s'

namespace Moves
variable {R : σ → σ → Prop} [IsPreorder σ R]

@[grind ←] theorem pure (a : α) : Moves R (Pure.pure a : StateT σ (Except ε) α) := by
  intro s b s' returned
  rw [(returns_pure.mp returned).2]
  exact refl_of R s

omit [IsPreorder σ R] in
@[grind ←] theorem throw (e : ε) : Moves R (MonadExcept.throw e : StateT σ (Except ε) α) :=
  fun _ _ _ returned => absurd returned returns_throw

@[grind ←] theorem get : Moves R (MonadState.get : StateT σ (Except ε) σ) := by
  intro s b s' returned
  rw [(returns_get.mp returned).2]
  exact refl_of R s

omit [IsPreorder σ R] in
theorem update {f : σ → σ} (h : ∀ s, R s (f s)) :
    Moves R (modify f : StateT σ (Except ε) PUnit) := by
  intro s b s' returned
  rw [returns_modify.mp returned]
  exact h s

@[grind ←] theorem bind {m : StateT σ (Except ε) α} {f : α → StateT σ (Except ε) β}
    (hm : Moves R m) (hf : ∀ a, Moves R (f a)) : Moves R (m >>= f) := by
  intro s b s' returned
  obtain ⟨a, t, first, rest⟩ := returns_bind.mp returned
  exact trans_of R (hm s a t first) (hf a t b s' rest)

omit [IsPreorder σ R] in
theorem ite {c : Prop} [Decidable c] {m n : StateT σ (Except ε) α} (hm : Moves R m)
    (hn : Moves R n) : Moves R (if c then m else n) := by
  split
  · exact hm
  · exact hn

/-- A check that throws leaves only the rest to prove. -/
theorem guard {c : Prop} [Decidable c] {e : ε} {rest : StateT σ (Except ε) α}
    (h : Moves R rest) :
    Moves R (if c then (MonadExcept.throw e : StateT σ (Except ε) β) >>= fun _ => rest else rest) :=
  ite (bind (throw e) fun _ => h) h

@[grind ←] theorem mapM {γ : Type} {f : γ → StateT σ (Except ε) α} {l : List γ}
    (hf : ∀ x, Moves R (f x)) : Moves R (l.mapM f) := by
  induction l with
  | nil =>
    rw [mapM_nil]
    exact pure []
  | cons x xs ih =>
    rw [mapM_cons]
    exact bind (hf x) fun a => bind ih fun as => pure (a :: as)

@[grind ←] theorem forM {γ : Type} {f : γ → StateT σ (Except ε) PUnit} {l : List γ}
    (hf : ∀ x, Moves R (f x)) : Moves R (l.forM f) := by
  induction l with
  | nil => exact pure PUnit.unit
  | cons x xs ih => exact bind (hf x) fun _ => ih

end Moves

/-- The computation ends with an exception. -/
def Raises (m : StateT σ (Except ε) α) (s : σ) (e : ε) : Prop := m.run s = .error e

section Raises
variable {m : StateT σ (Except ε) α} {s : σ} {e : ε}

theorem returns_or_raises (m : StateT σ (Except ε) α) (s : σ) :
    (∃ a s', Returns m s a s') ∨ ∃ e, Raises m s e := by
  cases h : m.run s with
  | error e => exact .inr ⟨e, h⟩
  | ok r => exact .inl ⟨r.1, r.2, h⟩

theorem Raises.not_returns (h : Raises m s e) {a : α} {s' : σ} : ¬ Returns m s a s' := by
  intro returned
  cases h.symm.trans returned

theorem Raises.unique {e' : ε} (h : Raises m s e) (h' : Raises m s e') : e = e' := by
  cases h.symm.trans h'
  rfl

theorem Raises.bind {f : α → StateT σ (Except ε) β} (h : Raises m s e) :
    Raises (m >>= f) s e := by
  simp only [Raises, StateT.run_bind] at h ⊢
  rw [h]
  rfl

theorem Returns.raises_bind {f : α → StateT σ (Except ε) β} {a : α} {s' : σ}
    (h : Returns m s a s') : Raises (m >>= f) s e ↔ Raises (f a) s' e := by
  simp only [Raises, Returns, StateT.run_bind] at h ⊢
  rw [h]
  rfl

end Raises

/-- No other exceptions end the run. -/
def OnlyRaises (P : ε → Prop) (m : StateT σ (Except ε) α) (s : σ) : Prop :=
  ∀ e, Raises m s e → P e

namespace OnlyRaises
variable {P : ε → Prop} {m : StateT σ (Except ε) α} {s : σ}

theorem of_returns {a : α} {s' : σ} (h : Returns m s a s') : OnlyRaises P m s :=
  fun _ raised => absurd h raised.not_returns

theorem pure (a : α) : OnlyRaises P (Pure.pure a : StateT σ (Except ε) α) s :=
  of_returns (returns_pure.mpr ⟨rfl, rfl⟩)

theorem throw {e : ε} (h : P e) :
    OnlyRaises P (MonadExcept.throw e : StateT σ (Except ε) α) s := by
  intro e' raised
  cases raised
  exact h

theorem bind {f : α → StateT σ (Except ε) β} (hm : OnlyRaises P m s)
    (hf : ∀ a s', Returns m s a s' → OnlyRaises P (f a) s') : OnlyRaises P (m >>= f) s := by
  intro e raised
  rcases returns_or_raises m s with ⟨a, s', returned⟩ | ⟨e', stopped⟩
  · exact hf a s' returned e (returned.raises_bind.mp raised)
  · cases stopped.bind.unique raised
    exact hm e stopped

theorem get_bind {f : σ → StateT σ (Except ε) β} (h : OnlyRaises P (f s) s) :
    OnlyRaises P (get >>= f) s := by
  refine bind (of_returns (returns_get.mpr ⟨rfl, rfl⟩)) fun a t got => ?_
  obtain ⟨rfl, rfl⟩ := returns_get.mp got
  exact h

theorem ite {c : Prop} [Decidable c] {m n : StateT σ (Except ε) α} (hm : c → OnlyRaises P m s)
    (hn : ¬ c → OnlyRaises P n s) : OnlyRaises P (if c then m else n) s := by
  split
  · next h => exact hm h
  · next h => exact hn h

/-- A run that can only end in the given exceptions ends in one of them or returns. -/
theorem returns_or (h : OnlyRaises P m s) :
    (∃ e, P e ∧ Raises m s e) ∨ ∃ a s', Returns m s a s' := by
  rcases returns_or_raises m s with returned | ⟨e, raised⟩
  · exact .inr returned
  · exact .inl ⟨e, h e raised, raised⟩

end OnlyRaises
end Hoare
