import BpfEquiv.Memory

/-!
Canonical names of regions, field by field. A name is a list of fields between colons;
the canonical name has the same fields, except that the run's tag in the second one is
neutralized.
-/
namespace BpfEquiv

open List

theorem splitOn_eq (sep : Char) (cs : List Char) : splitOn sep cs = cs.splitOn sep := by
  induction cs with
  | nil => rfl
  | cons c cs ih =>
    simp only [splitOn, List.splitOn, splitOnP_cons_eq_if_modifyHead, beq_iff_eq] at ih ⊢
    split
    · rw [ih]
    rw [ih]
    cases fields : List.splitOnP (fun x => x == sep) cs with
    | nil => exact absurd fields (splitOnP_ne_nil _ cs)
    | cons f fs => rfl

theorem joinWith_eq (sep : Char) (fs : List (List Char)) :
    joinWith sep fs = [sep].intercalate fs := by
  induction fs with
  | nil => rfl
  | cons f fs ih =>
    cases fs with
    | nil => simp [joinWith, List.intercalate]
    | cons g gs =>
      rw [joinWith, ih]
      · simp [List.intercalate]
      · exact cons_ne_nil g gs

theorem splitOn_ne_nil (sep : Char) (cs : List Char) : splitOn sep cs ≠ [] := by
  rw [splitOn_eq]
  exact splitOnP_ne_nil _ _

theorem joinWith_splitOn (sep : Char) (cs : List Char) : joinWith sep (splitOn sep cs) = cs := by
  rw [joinWith_eq, splitOn_eq, intercalate_splitOn]

theorem splitOn_joinWith {sep : Char} {fs : List (List Char)} (some' : fs ≠ [])
    (free : ∀ f ∈ fs, sep ∉ f) : splitOn sep (joinWith sep fs) = fs := by
  rw [joinWith_eq, splitOn_eq, splitOn_intercalate sep free some']

theorem not_mem_splitOn {sep : Char} {cs f : List Char} (member : f ∈ splitOn sep cs) :
    sep ∉ f := by
  induction cs generalizing f with
  | nil =>
    obtain rfl := mem_singleton.mp member
    exact not_mem_nil
  | cons c cs ih =>
    simp only [splitOn] at member
    split at member
    · rcases mem_cons.mp member with rfl | later
      · exact not_mem_nil
      · exact ih later
    rename_i other
    cases rest : splitOn sep cs with
    | nil => exact absurd rest (splitOn_ne_nil sep cs)
    | cons g gs =>
      simp only [rest] at member ih
      rcases mem_cons.mp member with rfl | later
      · rintro (_ | ⟨_, inside⟩)
        · exact other rfl
        · exact ih (.head _) inside
      · exact ih (.tail g later)

/-! Fields. -/

def Region.fields (r : Region) : List (List Char) := splitOn ':' r.name.toList

def canonFields (tag : List Char) : List (List Char) → List (List Char)
  | p0 :: p1 :: rest => p0 :: (if p1 = tag then ['T'] else p1) :: rest
  | fs => fs

theorem canonFields_length (tag : List Char) (fs : List (List Char)) :
    (canonFields tag fs).length = fs.length := by
  unfold canonFields
  split <;> rfl

theorem fields_canonRegion (cfg : Config) (r : Region) :
    splitOn ':' (canonRegion cfg r).toList = canonFields cfg.tag.toList r.fields := by
  unfold canonRegion
  split
  · rename_i p0 p1 rest shape
    have free (f : List Char) (member : f ∈ r.fields) : ':' ∉ f := not_mem_splitOn member
    have fields : r.fields = p0 :: p1 :: rest := shape
    rw [String.toList_ofList, splitOn_joinWith (cons_ne_nil _ _), fields]
    · rfl
    rw [fields] at free
    simp only [forall_mem_cons] at free ⊢
    refine ⟨free.1, ?_, free.2.2⟩
    split
    · decide
    · exact free.2.1
  · rename_i short
    have same : canonFields cfg.tag.toList r.fields = r.fields := by
      unfold canonFields
      split
      · next p0 p1 rest shape => exact absurd shape (short p0 p1 rest)
      · rfl
    exact same.symm

theorem canonRegion_eq_iff (cfg cfg' : Config) (r r' : Region) :
    canonRegion cfg r = canonRegion cfg' r' ↔
      canonFields cfg.tag.toList r.fields = canonFields cfg'.tag.toList r'.fields := by
  rw [← fields_canonRegion, ← fields_canonRegion]
  refine ⟨fun same => by rw [same], fun same => ?_⟩
  have joined := congrArg (joinWith ':') same
  rw [joinWith_splitOn, joinWith_splitOn] at joined
  exact String.toList_inj.mp joined

end BpfEquiv
