import BpfEquiv.Exc

/-!
Types as the BTF of an object or of a kernel describes them.

A type has a number, and refers to others by their numbers. Number zero is void. A type
that cannot be measured has no size; an array that contains itself makes the measuring
function call itself without end, which is an exception of its own here.
-/
namespace BpfEquiv.Core

/-- An error that the relocation code reports itself, or an exception that it does not catch. -/
inductive Fail where
  | core (msg : String)
  | crash (exn : String)
  deriving DecidableEq

abbrev R := Except Fail

def coreError {α : Type} (msg : String) : R α := .error (.core msg)

def recursionError : Fail := .crash "RecursionError: maximum recursion depth exceeded"

inductive Kind where
  | void | int | ptr | array | struct | union | enum | fwd | typedef | volatile | const
  | restrict | func | funcProto | var | datasec | float | declTag | typeTag | enum64
  | reserved (n : Nat)
  deriving DecidableEq

def Kind.number : Kind → Nat
  | .void => 0 | .int => 1 | .ptr => 2 | .array => 3 | .struct => 4 | .union => 5 | .enum => 6
  | .fwd => 7 | .typedef => 8 | .volatile => 9 | .const => 10 | .restrict => 11 | .func => 12
  | .funcProto => 13 | .var => 14 | .datasec => 15 | .float => 16 | .declTag => 17 | .typeTag => 18
  | .enum64 => 19 | .reserved n => n

def Kind.isModifier : Kind → Bool
  | .typedef | .volatile | .const | .restrict | .typeTag => true
  | _ => false

def Kind.isComposite : Kind → Bool
  | .struct | .union => true
  | _ => false

def Kind.isEnum : Kind → Bool
  | .enum | .enum64 => true
  | _ => false

structure BtfMember where
  name : String
  type : Nat
  bitOffset : Nat
  bitfieldSize : Nat
  deriving DecidableEq

/-- A type. What belongs to other kinds than its own is left at its default and not read. -/
structure BtfType where
  id : Nat := 0
  kind : Kind
  name : String := ""
  kflag : Bool := false
  size : Nat := 0
  type : Nat := 0
  members : List BtfMember := []
  enums : List (String × Int) := []
  array : Nat × Nat := (0, 0)
  intSigned : Bool := false
  proto : Nat × List Nat := (0, [])
  deriving DecidableEq

def BtfType.void : BtfType := { kind := .void }

/-- The types of a BTF with those of its base in front. -/
structure Btf where
  types : List BtfType
  startId : Nat
  first : types[0]? = some .void
  ids : ∀ (i : Nat) (t : BtfType), types[i]? = some t → t.id = i

def number : Nat → List BtfType → List BtfType
  | _, [] => []
  | i, t :: ts => { t with id := i } :: number (i + 1) ts

theorem number_ids (start : Nat) (ts : List BtfType) (i : Nat) (t : BtfType)
    (h : (number start ts)[i]? = some t) : t.id = start + i := by
  induction ts generalizing start i with
  | nil => cases h
  | cons x ts ih =>
    cases i with
    | zero =>
      cases h
      rfl
    | succ i =>
      rw [ih (start + 1) i h]
      omega

def Btf.ofTypes (own : List BtfType) : Btf where
  types := .void :: number 1 own
  startId := 1
  first := rfl
  ids i t h := by
    cases i with
    | zero =>
      cases h
      rfl
    | succ i =>
      rw [number_ids 1 own i t h]
      omega

/-- The split BTF of a module, whose numbers go on after those of its base. -/
def Btf.split (base : Btf) (own : List BtfType) : Btf where
  types := base.types ++ number base.types.length own
  startId := base.types.length
  first := by
    rw [List.getElem?_append_left, base.first]
    exact (List.getElem?_eq_some_iff.mp base.first).1
  ids i t h := by
    by_cases old : i < base.types.length
    · rw [List.getElem?_append_left old] at h
      exact base.ids i t h
    · rw [List.getElem?_append_right (Nat.le_of_not_lt old)] at h
      rw [number_ids _ _ _ t h]
      omega

def Btf.resolveFrom (btf : Btf) : Nat → Nat → BtfType
  | 0, _ => .void
  | fuel + 1, tid =>
    match btf.types[tid]? with
    | none => .void
    | some t => if t.kind.isModifier then btf.resolveFrom fuel t.type else t

/-- Skips modifiers and typedefs; void for an unknown number. -/
def Btf.resolve (btf : Btf) (tid : Nat) : BtfType := btf.resolveFrom 64 tid

def Btf.sizeFrom (btf : Btf) : Nat → Nat → R (Option Nat)
  | 0, _ => .error recursionError
  | fuel + 1, tid =>
    let t := btf.resolve tid
    match t.kind with
    | .int | .struct | .union | .enum | .enum64 | .float | .datasec => pure (some t.size)
    | .ptr => pure (some 8)
    | .array => do
      match ← btf.sizeFrom fuel t.array.1 with
      | none => pure none
      | some es => pure (some (es * t.array.2))
    | _ => pure none

/-- Byte size; none for what cannot be measured. More arrays inside each other than there
are types repeat one. -/
def Btf.typeSize (btf : Btf) (tid : Nat) : R (Option Nat) := btf.sizeFrom (btf.types.length + 1) tid

def essentialChars : List Char → List Char
  | '_' :: '_' :: '_' :: _ => []
  | c :: cs => c :: essentialChars cs
  | [] => []

/-- A name without its flavor. -/
def essentialName (name : String) : String := String.ofList (essentialChars name.toList)

def Btf.byName (btf : Btf) (essential : String) : List Nat :=
  (btf.types.filter fun t => t.name ≠ "" ∧ essentialName t.name = essential).map (·.id)

end BpfEquiv.Core
