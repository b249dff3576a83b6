import BpfEquiv.Memory

/-!
Names put together from parts. The number at the end of a name can be read back, since
decimal digits contain no separator.
-/
namespace BpfEquiv
open Smt List

theorem cut_first {α : Type} {c : α} {a b d e : List α} (h : a ++ c :: d = b ++ c :: e) (ha : c ∉ a)
    (hb : c ∉ b) : a = b ∧ d = e := by
  induction a generalizing b with
  | nil =>
    cases b with
    | nil => exact ⟨rfl, (cons.inj h).2⟩
    | cons y b => exact absurd (mem_cons.mpr (.inl (cons.inj h).1)) hb
  | cons x a ih =>
    cases b with
    | nil => exact absurd (mem_cons.mpr (.inl (cons.inj h).1.symm)) ha
    | cons y b =>
      obtain ⟨rfl, rest⟩ := cons.inj h
      rw [mem_cons, not_or] at ha hb
      exact (ih rest ha.2 hb.2).imp_left (congrArg (x :: ·))

theorem cut_last {α : Type} {c : α} {a b d e : List α} (h : a ++ c :: d = b ++ c :: e) (hd : c ∉ d)
    (he : c ∉ e) : a = b ∧ d = e := by
  have back := congrArg reverse h
  simp only [reverse_append, reverse_cons, append_assoc, singleton_append] at back
  obtain ⟨last, front⟩ := cut_first back (mt mem_reverse.mp hd) (mt mem_reverse.mp he)
  exact ⟨reverse_injective front, reverse_injective last⟩

theorem isDigit_of_mem_repr {n : Nat} {c : Char} (member : c ∈ n.repr.toList) :
    c.isDigit = true := by
  rw [Nat.toList_repr] at member
  exact Nat.isDigit_of_mem_toDigits (by decide) (by decide) member

end BpfEquiv
