import BpfEquiv.Hoare

/-!
One computation that does what another does.

A computation mirrors another one when every normal result of the first is the image of a
result of the second, from the same state and to the same state. The second may succeed
more often. The rules take the two computations apart side by side.
-/
namespace Hoare

open List

variable {σ ε α β γ δ : Type}

def Mirrors (h : β → α) (m : StateT σ (Except ε) α) (n : StateT σ (Except ε) β) : Prop :=
  ∀ s a s', Returns m s a s' → ∃ b, Returns n s b s' ∧ a = h b

namespace Mirrors
variable {h : β → α}

theorem pure {a : α} {b : β} (same : a = h b) :
    Mirrors h (Pure.pure a : StateT σ (Except ε) α) (Pure.pure b) := by
  intro s a' s' returned
  obtain ⟨rfl, rfl⟩ := returned.pure
  exact ⟨b, returns_pure.mpr ⟨rfl, rfl⟩, same⟩

theorem throw (e : ε) (n : StateT σ (Except ε) β) : Mirrors h (MonadExcept.throw e) n :=
  fun _ _ _ returned => returned.throw

theorem bind {m : StateT σ (Except ε) α} {n : StateT σ (Except ε) β}
    {f : α → StateT σ (Except ε) γ} {g : β → StateT σ (Except ε) δ} {k : δ → γ}
    (first : Mirrors h m n) (rest : ∀ b, Mirrors k (f (h b)) (g b)) :
    Mirrors k (m >>= f) (n >>= g) := by
  intro s c s' returned
  obtain ⟨a, t, here, there⟩ := returned.bind
  obtain ⟨b, mirrored, rfl⟩ := first s a t here
  obtain ⟨d, mirrored', same⟩ := rest b t c s' there
  exact ⟨d, returns_bind.mpr ⟨b, t, mirrored, mirrored'⟩, same⟩

/-- Both begin alike. -/
theorem after {m : StateT σ (Except ε) γ} {f : γ → StateT σ (Except ε) α}
    {g : γ → StateT σ (Except ε) β} (rest : ∀ c, Mirrors h (f c) (g c)) :
    Mirrors h (m >>= f) (m >>= g) := by
  intro s a s' returned
  obtain ⟨c, t, here, there⟩ := returned.bind
  obtain ⟨b, mirrored, same⟩ := rest c t a s' there
  exact ⟨b, returns_bind.mpr ⟨c, t, here, mirrored⟩, same⟩

theorem ite {c : Prop} [Decidable c] {m m' : StateT σ (Except ε) α} {n n' : StateT σ (Except ε) β}
    (yes : c → Mirrors h m n) (no : ¬ c → Mirrors h m' n') :
    Mirrors h (if c then m else m') (if c then n else n') := by
  split
  · next holds => exact yes holds
  · next fails => exact no fails

/-- A check of the second computation that implies the check of the first. -/
theorem guard {c c' : Prop} [Decidable c] [Decidable c'] {e : ε} {n : StateT σ (Except ε) δ}
    {m : StateT σ (Except ε) α} {k : γ → StateT σ (Except ε) α} {m' : StateT σ (Except ε) β}
    {k' : δ → StateT σ (Except ε) β} (weaker : c' → c) (rest : Mirrors h m m') :
    Mirrors h (if c then (MonadExcept.throw e : StateT σ (Except ε) γ) >>= k else m)
      (if c' then n >>= k' else m') := by
  split
  · intro s a s' returned
    obtain ⟨_, _, thrown, _⟩ := returned.bind
    exact thrown.throw
  · rename_i passed
    rw [if_neg (mt weaker passed)]
    exact rest

theorem mapM {f : γ → StateT σ (Except ε) α} {g : γ → StateT σ (Except ε) β}
    (each : ∀ x, Mirrors h (f x) (g x)) (l : List γ) :
    Mirrors (List.map h) (l.mapM f) (l.mapM g) := by
  induction l with
  | nil =>
    rw [mapM_nil, mapM_nil]
    exact pure rfl
  | cons x xs ih =>
    rw [mapM_cons, mapM_cons]
    exact bind (each x) fun b => bind ih fun bs => pure rfl

end Mirrors
end Hoare
