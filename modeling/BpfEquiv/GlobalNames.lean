import BpfEquiv.Asm
import BpfEquiv.Driver
import BpfEquiv.Exc
import BpfEquiv.RegionNames
import BpfEquiv.TraceSpec
import BpfEquiv.Verdict

/-!
Regions of globals.

A variable in writable memory has one region, named after its symbol without the
compilers' decoration, in the table of shared arrays as in the relocations. The
decoration tells the statics of different functions apart, so two of them can have one
region.
-/
namespace BpfEquiv
open Smt Hoare List Bool

variable {elf : Elf} {sec : Section} {g g' : Globals} {sym : Symbol}
  {regions : List (Region × Term .arr)}

/-! The table of shared arrays. -/

/-- A named variable in writable memory. -/
structure DataSymbol (elf : Elf) (sym : Symbol) (sec : Section) : Prop where
  object : sym.type = sttObject
  named : sym.name ≠ ""
  place : elf.sections[sym.shndx]? = some sec
  writable : holdsGlobals sec = true

/-- Every array of the table is named after its region. -/
def NamedArrays (regions : List (Region × Term .arr)) : Prop :=
  ∀ x a, regions.lookup (.g x) = some a → a = .arrVar ("g_" ++ x)

theorem sectionAt_eq_ok {shndx : Nat}
    (h : elf.sectionAt shndx = .ok sec) : elf.sections[shndx]? = some sec := by
  unfold Elf.sectionAt at h
  split at h
  · rename_i found
    cases h
    exact found
  · cases h

/-- The regions with that of a name, which keeps the array it has. -/
def withRegion (regions : List (Region × Term .arr)) (x : String) : List (Region × Term .arr) :=
  if (regions.lookup (.g x)).isSome then regions else regions ++ [(.g x, .arrVar ("g_" ++ x))]

/-- The table after one symbol: unchanged if it is no variable, and with its region
otherwise. -/
theorem addGlobal_cases
    (h : addGlobal elf g sym = .ok g') :
    (g' = g ∧ ∀ sec, ¬ DataSymbol elf sym sec) ∨
      g'.regions = withRegion g.regions (normalizeName sym.name) := by
  simp only [addGlobal] at h
  by_cases skip : sym.type ≠ sttObject ∨ sym.name = ""
  · rw [if_pos skip] at h
    cases h
    exact .inl ⟨rfl, fun sec data => skip.elim (· data.object) data.named⟩
  rw [if_neg skip] at h
  obtain ⟨sec, place, h⟩ := Exc.bind_eq_ok.mp h
  by_cases writable : holdsGlobals sec = true
  · rw [writable] at h
    cases h
    exact .inr rfl
  rw [eq_false_iff.mpr writable] at h
  cases h
  refine .inl ⟨rfl, fun sec' data => writable ?_⟩
  have same := (sectionAt_eq_ok place).symm.trans data.place
  cases same
  exact data.writable

theorem withRegion_has
    (named : NamedArrays regions) (x : String) :
    (withRegion regions x).lookup (.g x) = some (.arrVar ("g_" ++ x)) := by
  unfold withRegion
  cases found : regions.lookup (.g x) with
  | some a =>
    rw [Option.isSome_some, if_pos rfl, found, named x a found]
  | none =>
    rw [Option.isSome_none, if_neg Bool.false_ne_true, lookup_append, found]
    simp

theorem withRegion_keeps {y : String} {a : Term .arr}
    (found : regions.lookup (.g y) = some a) (x : String) :
    (withRegion regions x).lookup (.g y) = some a := by
  unfold withRegion
  split
  · exact found
  · rw [lookup_append, found]
    rfl

theorem withRegion_named (named : NamedArrays regions)
    (x : String) : NamedArrays (withRegion regions x) := by
  intro y a found
  cases old : regions.lookup (.g y) with
  | some b =>
    rw [withRegion_keeps old x] at found
    cases found
    exact named y _ old
  | none =>
    by_cases same : y = x
    · subst same
      rw [withRegion_has named] at found
      cases found
      rfl
    unfold withRegion at found
    split at found
    · exact named y a found
    · have other : (Region.g y == Region.g x) = false := by simp [same]
      rw [lookup_append, old] at found
      simp [List.lookup, other] at found

theorem addGlobal_named
    (h : addGlobal elf g sym = .ok g') (named : NamedArrays g.regions) :
    NamedArrays g'.regions := by
  obtain ⟨rfl, _⟩ | regions := addGlobal_cases h
  · exact named
  · rw [regions]
    exact withRegion_named named _

theorem addGlobal_keeps {x : String} {a : Term .arr}
    (h : addGlobal elf g sym = .ok g') (found : g.regions.lookup (.g x) = some a) :
    g'.regions.lookup (.g x) = some a := by
  obtain ⟨rfl, _⟩ | regions := addGlobal_cases h
  · exact found
  · rw [regions]
    exact withRegion_keeps found _

def Globals.Has (g : Globals) (x : String) : Prop :=
  g.regions.lookup (.g x) = some (.arrVar ("g_" ++ x))

theorem symbols_has (h : elf.symbols.foldlM (addGlobal elf) g = .ok g')
    (named : NamedArrays g.regions) (inside : sym ∈ elf.symbols)
    (data : DataSymbol elf sym sec) : g'.Has (normalizeName sym.name) := by
  refine Exc.foldlM_establishes (I := fun g => NamedArrays g.regions)
    (P := fun g => g.Has (normalizeName sym.name)) (fun _ _ _ _ one => addGlobal_named one)
    (fun _ _ _ _ one => addGlobal_keeps one) inside (fun c c' one named => ?_) h named
  obtain ⟨_, other⟩ | regions := addGlobal_cases one
  · exact absurd data (other sec)
  · rw [Globals.Has, regions]
    exact withRegion_has named _

/-- Every variable of both objects has the array of its normalized name. -/
theorem globalRegions_has {elves : List Elf} (table : globalRegions elves = .ok g)
    (member : elf ∈ elves) (inside : sym ∈ elf.symbols)
    (data : DataSymbol elf sym sec) : g.Has (normalizeName sym.name) := by
  refine Exc.foldlM_establishes (I := fun g => NamedArrays g.regions)
    (P := fun g => g.Has (normalizeName sym.name)) (fun _ _ _ _ one => ?_) (fun _ _ _ _ one => ?_)
    member (fun _ _ one named => symbols_has one named inside data) table
    fun x a found => by cases found
  · exact Exc.foldlM_keeps (I := fun g => NamedArrays g.regions)
      (fun _ _ _ _ step => addGlobal_named step) one
  · exact Exc.foldlM_keeps (I := fun g => g.Has (normalizeName sym.name))
      (fun _ _ _ _ step => addGlobal_keeps step) one

/-! Relocations. -/

end BpfEquiv
