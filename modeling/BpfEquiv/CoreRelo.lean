import BpfEquiv.Alu
import BpfEquiv.Btf

/-!
CO-RE relocations: the access a record describes in the object's own types, the access it
stands for in a target's types, the value that follows and the instruction it is patched
into.
-/
namespace BpfEquiv.Core

/-! Records. -/

inductive ReloKind where
  | fieldByteOffset | fieldByteSize | fieldExists | fieldSigned | fieldLshiftU64 | fieldRshiftU64
  | typeIdLocal | typeIdTarget | typeExists | typeSize | enumvalExists | enumvalValue | typeMatches
  | other (n : Nat)
  deriving DecidableEq

def ReloKind.name : ReloKind → String
  | .fieldByteOffset => "byte_off" | .fieldByteSize => "byte_sz" | .fieldExists => "field_exists"
  | .fieldSigned => "signed" | .fieldLshiftU64 => "lshift_u64" | .fieldRshiftU64 => "rshift_u64"
  | .typeIdLocal => "local_type_id" | .typeIdTarget => "target_type_id"
  | .typeExists => "type_exists" | .typeSize => "type_size" | .enumvalExists => "enumval_exists"
  | .enumvalValue => "enumval_value" | .typeMatches => "type_matches" | .other n => toString n

def ReloKind.isField : ReloKind → Bool
  | .fieldByteOffset | .fieldByteSize | .fieldExists | .fieldSigned | .fieldLshiftU64
  | .fieldRshiftU64 => true
  | _ => false

def ReloKind.isType : ReloKind → Bool
  | .typeIdLocal | .typeIdTarget | .typeExists | .typeSize | .typeMatches => true
  | _ => false

def ReloKind.isEnumval : ReloKind → Bool
  | .enumvalExists | .enumvalValue => true
  | _ => false

def ReloKind.asksExists : ReloKind → Bool
  | .fieldExists | .typeExists | .enumvalExists | .typeMatches => true
  | _ => false

variable (buf : List Byte) (btf lbtf : Btf) (typeId : Nat) (idxs : List Nat) (kind : ReloKind)

def accessStr : String := ":".intercalate (idxs.map toString)

/-! Access specs. -/

/-- One step of an access: an index, the name of the member if it has one, and the type it
leads to. -/
structure Accessor where
  idx : Nat
  name : Option String
  typeId : Nat
  deriving DecidableEq

structure Spec where
  rootId : Nat
  accessors : List Accessor
  bitOffset : Nat
  deriving DecidableEq

def Spec.push (spec : Spec) (acc : Accessor) (bits : Nat) : Spec :=
  { spec with accessors := spec.accessors ++ [acc], bitOffset := spec.bitOffset + bits }

def nameOrNone (name : String) : Option String := if name = "" then none else some name

/-- The steps after the first, through members and array elements. -/
def parseSteps (btf : Btf) : List Nat → BtfType → Spec → R Spec
  | [], _, spec => pure spec
  | idx :: idxs, t, spec =>
    if t.kind.isComposite then
      match t.members[idx]? with
      | none => coreError "member index oob"
      | some m =>
        parseSteps btf idxs (btf.resolve m.type)
          (spec.push ⟨idx, nameOrNone m.name, m.type⟩ m.bitOffset)
    else if t.kind = .array then
      if t.array.2 ≠ 0 ∧ idx ≥ t.array.2 then coreError "array index oob (local)"
      else do
        match ← btf.typeSize t.array.1 with
        | none => coreError "array elem unsizeable"
        | some es =>
          parseSteps btf idxs (btf.resolve t.array.1)
            (spec.push ⟨idx, none, t.array.1⟩ (idx * es * 8))
    else coreError ("access through kind " ++ toString t.kind.number)

def parseSpec : R Spec :=
  let spec : Spec := ⟨typeId, [], 0⟩
  let t := btf.resolve typeId
  match idxs with
  | [] => .error (.crash "ValueError: invalid literal for int() with base 10: ''")
  | idx :: rest =>
    if kind.isType then
      if idxs ≠ [0] then coreError ("type relo with access '" ++ accessStr idxs ++ "'")
      else pure spec
    else if kind.isEnumval then
      if rest ≠ [] then coreError ("enumval relo with access '" ++ accessStr idxs ++ "'")
      else
        match (if t.kind.isEnum then t.enums[idx]? else none) with
        | none => coreError "enumval relo on non-enum/oob"
        | some e => pure { spec with accessors := [⟨idx, some e.1, t.id⟩] }
    else do
      match ← btf.typeSize typeId with
      | none => coreError "root type unsizeable"
      | some sz => parseSteps btf rest t (spec.push ⟨idx, none, typeId⟩ (idx * sz * 8))

/-! Compatibility. -/

/-- Names agree unless one is empty. -/
def looselyNamed (l t : BtfType) : Bool :=
  l.name = "" || t.name = "" || essentialName l.name = essentialName t.name

def fieldsCompatFrom (lbtf tbtf : Btf) : Nat → Nat → Nat → Bool
  | 0, _, _ => false
  | fuel + 1, lid, tid =>
    let lt := lbtf.resolve lid
    let tt := tbtf.resolve tid
    if lt.kind.isComposite ∧ tt.kind.isComposite then true
    else if lt.kind ≠ tt.kind then
      if lt.kind.isEnum ∧ tt.kind.isEnum then looselyNamed lt tt else false
    else
      match lt.kind with
      | .ptr | .int | .float => true
      | .enum | .enum64 | .fwd => looselyNamed lt tt
      | .array => fieldsCompatFrom lbtf tbtf fuel lt.array.1 tt.array.1
      | _ => false

/-- The check of the type that a step leads to. -/
def fieldsAreCompat (lid : Nat) (tbtf : Btf) (tid : Nat) : Bool :=
  fieldsCompatFrom lbtf tbtf 32 lid tid

/-- Kinds that must agree in their names where both have one. -/
def Kind.isNamed : Kind → Bool
  | .struct | .union | .enum | .enum64 | .fwd => true
  | _ => false

def typesCompatFrom (lbtf tbtf : Btf) : Nat → Nat → Nat → Bool
  | 0, _, _ => false
  | fuel + 1, lid, tid =>
    let lt := lbtf.resolve lid
    let tt := tbtf.resolve tid
    if lt.kind ≠ tt.kind then lt.kind.isEnum && tt.kind.isEnum
    else if !looselyNamed lt tt && lt.kind.isNamed then false
    else
      match lt.kind with
      | .struct | .union | .enum | .enum64 | .fwd | .int | .float => true
      | .ptr => typesCompatFrom lbtf tbtf fuel lt.type tt.type
      | .array => typesCompatFrom lbtf tbtf fuel lt.array.1 tt.array.1
      | .funcProto =>
        decide (lt.proto.2.length = tt.proto.2.length) &&
          typesCompatFrom lbtf tbtf fuel lt.proto.1 tt.proto.1 &&
          (lt.proto.2.zip tt.proto.2).all fun (a, b) => typesCompatFrom lbtf tbtf fuel a b
      | _ => false

/-- The check of a whole type for its existence. -/
def typesAreCompat (lid : Nat) (tbtf : Btf) (tid : Nat) : Bool :=
  typesCompatFrom lbtf tbtf 33 lid tid

/-- An empty target name stands for an empty local name only. -/
def namesMatch (ln tn : String) : Bool :=
  if tn = "" then ln = "" else essentialName ln = essentialName tn

def enumsMatch (lt tt : BtfType) : Bool :=
  if lt.size ≠ tt.size ∨ lt.enums.length > tt.enums.length then false
  else lt.enums.all fun l => tt.enums.any fun t => namesMatch l.1 t.1

def typesMatchFrom (lbtf tbtf : Btf) : Nat → Nat → Nat → Bool → Bool
  | 0, _, _, _ => false
  | fuel + 1, lid, tid, behindPtr =>
    let lt := lbtf.resolve lid
    let tt := tbtf.resolve tid
    if !namesMatch lt.name tt.name then false
    else
      match lt.kind with
      | .fwd =>
        if behindPtr then
          if tt.kind = .fwd then lt.kflag = tt.kflag
          else (tt.kind = .struct && !lt.kflag) || (tt.kind = .union && lt.kflag)
        else tt.kind = .fwd && lt.kflag = tt.kflag
      | .enum | .enum64 => if tt.kind.isEnum then enumsMatch lt tt else false
      | .struct | .union =>
        if behindPtr then
          if tt.kind = lt.kind then true
          else if tt.kind ≠ .fwd then false
          else (lt.kind = .union) == tt.kflag
        else if tt.kind ≠ lt.kind then false
        else if lt.members.length > tt.members.length then false
        else lt.members.all fun lm => tt.members.any fun tm =>
          namesMatch lm.name tm.name && typesMatchFrom lbtf tbtf fuel lm.type tm.type behindPtr
      | lk =>
        if lk ≠ tt.kind then false
        else
          match lk with
          | .int => lt.size = tt.size && lt.intSigned = tt.intSigned
          | .float => lt.size = tt.size
          | .ptr => typesMatchFrom lbtf tbtf fuel lt.type tt.type true
          | .array =>
            if lt.array.2 ≠ tt.array.2 then false
            else typesMatchFrom lbtf tbtf fuel lt.array.1 tt.array.1 behindPtr
          | .funcProto =>
            decide (lt.proto.2.length = tt.proto.2.length) &&
              typesMatchFrom lbtf tbtf fuel lt.proto.1 tt.proto.1 behindPtr &&
              (lt.proto.2.zip tt.proto.2).all fun (a, b) =>
                typesMatchFrom lbtf tbtf fuel a b behindPtr
          | .void => true
          | _ => false

def typesMatch (lid : Nat) (tbtf : Btf) (tid : Nat) : Bool :=
  typesMatchFrom lbtf tbtf 33 lid tid false

/-! Matching. -/

/-- A member found by its name and the access that leads to it. -/
abbrev Found := BtfMember × Spec

/-- The members from the i-th on. An anonymous one is searched in turn; a member of the
right name and an incompatible type ends the search at its own level. -/
def searchMembers (descend : Nat → Spec → R (Option Found)) (lbtf : Btf) (lacc : Accessor)
    (tbtf : Btf) (tspec : Spec) : Nat → List BtfMember → R (Option Found)
  | _, [] => pure none
  | i, m :: ms =>
    if m.name = "" then do
      match ← descend m.type { tspec with bitOffset := tspec.bitOffset + m.bitOffset } with
      | some found => pure (some found)
      | none => searchMembers descend lbtf lacc tbtf tspec (i + 1) ms
    else if some m.name = lacc.name then
      if !fieldsAreCompat lbtf lacc.typeId tbtf m.type then pure none
      else pure (some (m, tspec.push ⟨i, some m.name, m.type⟩ m.bitOffset))
    else searchMembers descend lbtf lacc tbtf tspec (i + 1) ms

def matchMemberFrom (lbtf : Btf) (lacc : Accessor) (tbtf : Btf) :
    Nat → Nat → Spec → R (Option Found)
  | 0, _, _ => .error recursionError
  | fuel + 1, tTid, tspec =>
    let t := tbtf.resolve tTid
    if !t.kind.isComposite then pure none
    else searchMembers (matchMemberFrom lbtf lacc tbtf fuel) lbtf lacc tbtf tspec 0 t.members

/-- Finds the member with the name of a local step, through anonymous members. More of them
inside each other than there are types repeat one. -/
def matchMember (lacc : Accessor) (tbtf : Btf) (tTid : Nat) (tspec : Spec) :
    R (Option Found) :=
  matchMemberFrom lbtf lacc tbtf (tbtf.types.length + 1) tTid tspec

/-- A step without a name: an array element, or the member at the same place. -/
def matchIndex (lacc : Accessor) (tbtf : Btf) (tTid : Nat) (tspec : Spec) :
    R (Option (Nat × Spec)) :=
  let t := tbtf.resolve tTid
  if t.kind = .array then
    if t.array.2 ≠ 0 ∧ lacc.idx ≥ t.array.2 then pure none
    else do
      match ← tbtf.typeSize t.array.1 with
      | none => pure none
      | some es =>
        pure (some (t.array.1, tspec.push ⟨lacc.idx, none, t.array.1⟩ (lacc.idx * es * 8)))
  else if t.kind.isComposite then
    match t.members[lacc.idx]? with
    | none => pure none
    | some m =>
      if !fieldsAreCompat lbtf lacc.typeId tbtf m.type then pure none
      else pure (some (m.type, tspec.push ⟨lacc.idx, none, m.type⟩ m.bitOffset))
  else pure none

/-- One step of a local access in the target, from a type and the access so far. -/
def matchStep (lacc : Accessor) (tbtf : Btf) (tTid : Nat) (tspec : Spec) :
    R (Option (Nat × Spec)) :=
  match lacc.name with
  | some _ => do
    match ← matchMember lbtf lacc tbtf tTid tspec with
    | none => pure none
    | some (m, tspec') => pure (some (m.type, tspec'))
  | none => matchIndex lbtf lacc tbtf tTid tspec

def matchSteps (lbtf tbtf : Btf) : List Accessor → Nat → Spec → R (Option (Nat × Spec))
  | [], tTid, tspec => pure (some (tTid, tspec))
  | lacc :: rest, tTid, tspec => do
    match ← matchStep lbtf lacc tbtf tTid tspec with
    | none => pure none
    | some (tTid', tspec') => matchSteps lbtf tbtf rest tTid' tspec'

def matchEnumerator (want : String) (tid : Nat) : Nat → List (String × Int) → Option Accessor
  | _, [] => none
  | i, e :: es =>
    if essentialName e.1 = want then some ⟨i, some e.1, tid⟩
    else matchEnumerator want tid (i + 1) es

/-- The access in a target that a local access stands for. -/
def matchSpec (lspec : Spec) (tbtf : Btf) (tRoot : Nat) : R (Option Spec) :=
  let troot := tbtf.resolve tRoot
  match lspec.accessors with
  | [] => .error (.crash "AttributeError: 'NoneType' object has no attribute 'name'")
  | lacc0 :: rest =>
    if (lbtf.resolve lspec.rootId).kind.isEnum then
      if !troot.kind.isEnum then pure none
      else
        match lacc0.name with
        | none => .error (.crash "AttributeError: 'NoneType' object has no attribute 'find'")
        | some n =>
          pure ((matchEnumerator (essentialName n) troot.id 0 troot.enums).map fun acc =>
            ⟨tRoot, [acc], 0⟩)
    else do
      match ← tbtf.typeSize tRoot with
      | none => pure none
      | some tsz => do
        let start : Spec := ⟨tRoot, [⟨lacc0.idx, none, tRoot⟩], lacc0.idx * tsz * 8⟩
        match ← matchSteps lbtf tbtf rest tRoot start with
        | none => pure none
        | some (_, tspec) => pure (some tspec)

/-! Values. -/

/-- The aligned load window of a bitfield, widened until it holds the field. -/
def widen (bitOff bitSz : Nat) : Nat → Nat → R (Nat × Nat)
  | 0, _ => .error recursionError
  | fuel + 1, byteSz =>
    let byteOff := bitOff / 8 / byteSz * byteSz
    if bitOff + bitSz > byteOff * 8 + byteSz * 8 then
      if byteSz ≥ 8 then coreError "bitfield spans >8 bytes"
      else widen bitOff bitSz fuel (byteSz * 2)
    else pure (byteOff, byteSz)

/-- Where a field is loaded from and how many of its bits count. -/
structure Window where
  byteOff : Nat
  byteSz : Nat
  bitSz : Nat
  validate : Bool
  deriving DecidableEq

/-- Size of the bitfield that the last step of an access is taken for: the member with its
index in the type of the step before. -/
def recordedBitfield (before acc : Accessor) : Nat :=
  let pt := btf.resolve before.typeId
  if pt.kind.isComposite then ((pt.members[acc.idx]?).map (·.bitfieldSize)).getD 0 else 0

def fieldWindow (spec : Spec) (acc : Accessor) : R Window :=
  match spec.accessors.dropLast.getLast? with
  | none => .error (.crash "IndexError: list index out of range")
  | some before =>
    let bitSz := recordedBitfield btf before acc
    if bitSz = 0 then do
      match ← btf.typeSize acc.typeId with
      | none => coreError "unsizeable member"
      | some byteSz => pure ⟨spec.bitOffset / 8, byteSz, byteSz * 8, true⟩
    else
      let size := (btf.resolve acc.typeId).size
      if size = 0 then .error (.crash "ZeroDivisionError: integer division or modulo by zero")
      else do
        let (byteOff, byteSz) ← widen spec.bitOffset bitSz 4 size
        pure ⟨byteOff, byteSz, bitSz, false⟩

def signedOf : R Int :=
  let t := btf.resolve typeId
  match t.kind with
  | .int => pure (if t.intSigned then 1 else 0)
  | .enum | .enum64 => pure (if t.kflag then 1 else 0)
  | _ => coreError "signed of non-int"

/-- The value of a field relocation for a window. -/
def windowInfo (spec : Spec) (acc : Accessor) (w : Window) (kind : ReloKind) :
    R (Int × Bool) :=
  match kind with
  | .fieldByteOffset => pure ((w.byteOff : Int), w.validate)
  | .fieldByteSize => pure ((w.byteSz : Int), w.validate)
  | .fieldSigned => do
    let signed ← signedOf btf acc.typeId
    pure (signed, w.validate)
  | .fieldLshiftU64 =>
    pure (64 - (w.bitSz : Int) - ((spec.bitOffset : Int) - w.byteOff * 8), w.validate)
  | .fieldRshiftU64 => pure (64 - (w.bitSz : Int), true)
  | _ => coreError ("bad field kind " ++ kind.name)

/-- The value of a field relocation for an access, and whether the instruction must have
held it. -/
def fieldInfo (spec : Spec) (kind : ReloKind) : R (Int × Bool) :=
  match spec.accessors.getLast? with
  | none => .error (.crash "IndexError: list index out of range")
  | some acc =>
    match acc.name with
    | none =>
      match kind with
      | .fieldByteOffset => pure ((spec.bitOffset / 8 : Nat), true)
      | .fieldByteSize => do
        match ← btf.typeSize acc.typeId with
        | none => coreError "unsizeable field"
        | some sz => pure ((sz : Int), true)
      | .fieldSigned => do
        let signed ← signedOf btf acc.typeId
        pure (signed, true)
      | _ => coreError (kind.name ++ " on non-member")
    | some _ => do
      let w ← fieldWindow btf spec acc
      windowInfo btf spec acc w kind

/-! Relocation. -/

abbrev Cand := Btf × Nat

/-- Candidates of one target. A module owns the numbers after its base only. -/
def candidatesIn (essential : String) (kind : Kind) (isModule : Bool) (tbtf : Btf) : List Cand :=
  ((tbtf.byName essential).filter fun c =>
    (!isModule || decide (c ≥ tbtf.startId)) &&
      match tbtf.types[c]? with
      | none => false
      | some t => t.kind = kind || (kind.isEnum && t.kind.isEnum)).map fun c => (tbtf, c)

def firstModule (essential : String) (kind : Kind) : List Btf → List Cand
  | [] => []
  | m :: ms =>
    match candidatesIn essential kind true m with
    | [] => firstModule essential kind ms
    | cands => cands

structure Applier where
  target : Btf
  modules : List Btf

/-- The first target that has a type of the name and kind of the local root. -/
def Applier.candidates (ap : Applier) (lbtf : Btf) (rootId : Nat) : List Cand :=
  match lbtf.types[rootId]? with
  | none => []
  | some lt =>
    if lt.name = "" then []
    else
      match candidatesIn (essentialName lt.name) lt.kind false ap.target with
      | [] => firstModule (essentialName lt.name) lt.kind ap.modules
      | cands => cands

inductive Relocated where
  | value (target localVal : Int) (validate : Bool)
  | poison (why : String)
  | localId (id : Nat)
  deriving DecidableEq

/-- The value the compiler put into the instruction. -/
def localValue (spec : Spec) (kind : ReloKind) : R (Int × Bool) :=
  let value : R (Int × Bool) :=
    match kind with
    | .fieldExists | .typeExists | .typeMatches | .enumvalExists => pure (1, false)
    | .typeIdTarget => pure ((spec.rootId : Int), false)
    | .typeSize => do
      let sz ← lbtf.typeSize spec.rootId
      pure (((sz.getD 0 : Nat) : Int), false)
    | .enumvalValue =>
      match spec.accessors.head? with
      | none => .error (.crash "IndexError: list index out of range")
      | some acc =>
        match (lbtf.resolve acc.typeId).enums[acc.idx]? with
        | none => .error (.crash "IndexError: list index out of range")
        | some e => pure (e.2, false)
    | .typeIdLocal | .other _ => pure (0, false)
    | kind => fieldInfo lbtf spec kind
  match value with
  | .error (.core _) => pure (0, false)
  | res => res

abbrev Match := Cand × Option Spec

def matchCand (spec : Spec) (kind : ReloKind) (cand : Cand) : R (Option Match) :=
  if kind = .typeMatches then
    pure (if typesMatch lbtf spec.rootId cand.1 cand.2 then some (cand, none) else none)
  else if kind.isType then
    pure (if typesAreCompat lbtf spec.rootId cand.1 cand.2 then some (cand, none) else none)
  else do
    match ← matchSpec lbtf spec cand.1 cand.2 with
    | none => pure none
    | some tspec => pure (some (cand, some tspec))

def matchCands (lbtf : Btf) (spec : Spec) (kind : ReloKind) : List Cand → R (List Match)
  | [] => pure []
  | cand :: cands => do
    let found ← matchCand lbtf spec kind cand
    let rest ← matchCands lbtf spec kind cands
    pure (found.toList ++ rest)

def matchValue (mt : Match) : R (Int × Bool) :=
  match kind, mt.2 with
  | .typeIdTarget, _ => pure ((mt.1.2 : Int), false)
  | .typeSize, _ => do
    match ← mt.1.1.typeSize mt.1.2 with
    | none => coreError "target type unsizeable"
    | some sz => pure ((sz : Int), false)
  | .enumvalValue, some tspec =>
    match tspec.accessors.head? with
    | none => .error (.crash "IndexError: list index out of range")
    | some acc =>
      match (mt.1.1.resolve acc.typeId).enums[acc.idx]? with
      | none => .error (.crash "IndexError: list index out of range")
      | some e => pure (e.2, false)
  | kind, some tspec =>
    if kind.isField then fieldInfo mt.1.1 tspec kind
    else coreError ("unhandled kind " ++ kind.name)
  | kind, none => coreError ("unhandled kind " ++ kind.name)

/-- The values of all matches, and whether every one is to be validated. -/
def matchValues (kind : ReloKind) : List Match → R (List Int × Bool)
  | [] => pure ([], true)
  | mt :: mts => do
    let (v, ok) ← matchValue kind mt
    let (vs, oks) ← matchValues kind mts
    pure (v :: vs, ok && oks)

/-- Values in the order and form of a message. -/
def listText (vs : List Int) : String :=
  "[" ++ ", ".intercalate ((vs.dedup.insertionSort (· ≤ ·)).map toString) ++ "]"

def noCandidate : String :=
  let name := ((lbtf.types[typeId]?).map (·.name)).getD ""
  "no target candidate for " ++ (if name = "" then toString typeId else name) ++ " " ++ kind.name ++
    " '" ++ accessStr idxs ++ "'"

/-- What becomes of the matches of a record. -/
def settle (spec : Spec) (typeId : Nat) (idxs : List Nat) (kind : ReloKind)
    (matched : List Match) : R Relocated :=
  if matched.isEmpty then
    if kind.asksExists ∨ kind.isType then do
      let (l, _) ← localValue lbtf spec kind
      pure (.value 0 l false)
    else pure (.poison (noCandidate lbtf typeId idxs kind))
  else if kind.asksExists then do
    let (l, _) ← localValue lbtf spec kind
    pure (.value 1 l false)
  else
    match matchValues kind matched with
    | .error (.core msg) => pure (.poison msg)
    | .error (.crash exn) => .error (.crash exn)
    | .ok (vals, validate) =>
      match vals.dedup with
      | [v] => do
        let (l, ok) ← localValue lbtf spec kind
        pure (.value v l (validate && ok))
      | _ => pure (.poison ("ambiguous candidates: values " ++ listText vals))

def Applier.relocate (ap : Applier) (lbtf : Btf) (typeId : Nat) (idxs : List Nat)
    (kind : ReloKind) : R Relocated := do
  let spec ← parseSpec lbtf typeId idxs kind
  if kind = .typeIdLocal then pure (.localId spec.rootId)
  else do
    let matched ← matchCands lbtf spec kind (ap.candidates lbtf typeId)
    settle lbtf spec typeId idxs kind matched

/-! Patching. -/

def readBytes (off n : Nat) : R (List Byte) :=
  if off + n ≤ buf.length then pure ((buf.drop off).take n)
  else .error (.crash "struct.error: unpack_from requires a buffer of more bytes")

def writeBytes (off : Nat) (bs : List Byte) : R (List Byte) :=
  if off + bs.length ≤ buf.length then pure (buf.take off ++ bs ++ buf.drop (off + bs.length))
  else .error (.crash "struct.error: pack_into requires a buffer of more bytes")

/-- Little-endian two's complement value of some bytes. -/
def bytesNat : List Byte → Nat
  | [] => 0
  | b :: bs => b.toNat + 256 * bytesNat bs

def bytesInt (bs : List Byte) : Int := Int.bmod (bytesNat bs) (2 ^ (8 * bs.length))

def intBytes : Nat → Int → List Byte
  | 0, _ => []
  | n + 1, v => BitVec.ofInt 8 v :: intBytes n (v / 256)

def poisonCallImm : Int := 0xBAD2310

/-- The call of a function that does not exist. -/
def poisonInsn (idx : Nat) : R (List Byte) :=
  writeBytes buf (idx * 8) ([0x85, 0, 0, 0] ++ intBytes 4 poisonCallImm)

/-- The instruction holds another value than the record says. -/
def stale (validate : Bool) (localVal : Option Int) (old : Int) : Option Int :=
  match localVal with
  | some l => if validate ∧ old ≠ l then some l else none
  | none => none

/-- An error, or the buffer with the value in the place that the class of the instruction
has for it. -/
def patchInsn (idx : Nat) (val : Int) (localVal : Option Int) (validate : Bool) :
    R (Except String (List Byte)) :=
  let off := idx * 8
  match buf[off]? with
  | none => .error (.crash "IndexError: bytearray index out of range")
  | some code =>
    let cls := code.toNat % 8
    if cls = 1 ∨ cls = 2 ∨ cls = 3 then do
      let old := bytesInt (← readBytes buf (off + 2) 2)
      match stale validate localVal old with
      | some l => pure (.error ("insn off " ++ toString old ++ " != local spec " ++ toString l))
      | none =>
        if ¬ (-32768 ≤ val ∧ val ≤ 32767) then
          pure (.error ("new off " ++ toString val ++ " doesn't fit in s16"))
        else do
          let buf' ← writeBytes buf (off + 2) (intBytes 2 val)
          pure (.ok buf')
    else if cls = 4 ∨ cls = 7 then
      if code.toNat / 8 % 2 = 1 then pure (.error "ALU with BPF_X src carries a relo")
      else do
        let old := bytesInt (← readBytes buf (off + 4) 4)
        match stale validate localVal old with
        | some l => pure (.error ("insn imm " ++ toString old ++ " != local spec " ++ toString l))
        | none =>
          if ¬ (-2147483648 ≤ val ∧ val < 2147483648) then
            pure (.error ("new imm " ++ toString val ++ " doesn't fit in s32"))
          else do
            let buf' ← writeBytes buf (off + 4) (intBytes 4 val)
            pure (.ok buf')
    else if code = 0x18 then
      if off + 16 > buf.length then pure (.error "ld_imm64 relo at section end")
      else do
        let lo ← readBytes buf (off + 4) 4
        let hi ← readBytes buf (off + 12) 4
        let old : Int := bytesNat (lo ++ hi)
        match stale validate (localVal.map fun l => l % 2 ^ 64) old with
        | some _ =>
          pure (.error ("insn imm64 " ++ toString old ++ " != local spec " ++
            toString (localVal.getD 0)))
        | none => do
          let buf' ← writeBytes buf (off + 4) (intBytes 4 val)
          let buf'' ← writeBytes buf' (off + 12) (intBytes 4 (val / 2 ^ 32))
          pure (.ok buf'')
    else
      let digits := String.ofList (Nat.toDigits 16 code.toNat)
      let digits := if digits.length < 2 then "0" ++ digits else digits
      pure (.error ("unexpected insn code 0x" ++ digits ++ " for relo"))

/-! A whole object. -/

structure Record where
  insnIdx : Nat
  typeId : Nat
  idxs : List Nat
  kind : ReloKind
  deriving DecidableEq

/-- Reasons by section and instruction, the last one given counting, and the notes. -/
structure Report where
  poison : List ((String × Nat) × String)
  notes : List String

def Report.add (r : Report) (secname : String) (idx : Nat) (why note : String) : Report :=
  ⟨((secname, idx), why) :: r.poison, r.notes ++ [note]⟩

/-- Patches one record into the bytes of its section. -/
def Applier.applyRecord (ap : Applier) (lbtf : Btf) (secname : String) (st : List Byte × Report)
    (rec : Record) : R (List Byte × Report) := do
  let (buf, rep) := st
  let label := secname ++ "+" ++ toString rec.insnIdx
  let res ← (match ap.relocate lbtf rec.typeId rec.idxs rec.kind with
    | .error (.core msg) => pure (.poison ("local spec: " ++ msg))
    | res => res)
  match res with
  | .poison why => do
    let buf' ← poisonInsn buf rec.insnIdx
    pure (buf', rep.add secname rec.insnIdx why ("POISON " ++ label ++ ": " ++ why))
  | .localId id => do
    let poison := ((secname, rec.insnIdx), "core-type-id-local") :: rep.poison
    match ← patchInsn buf rec.insnIdx id none false with
    | .error err => pure (buf, ⟨poison, rep.notes ++ ["PATCHFAIL " ++ label ++ ": " ++ err]⟩)
    | .ok buf' => pure (buf', ⟨poison, rep.notes⟩)
  | .value val localVal validate => do
    match ← patchInsn buf rec.insnIdx val (some localVal) validate with
    | .error err => do
      let buf' ← poisonInsn buf rec.insnIdx
      pure (buf', rep.add secname rec.insnIdx err ("PATCHFAIL " ++ label ++ ": " ++ err))
    | .ok buf' => pure (buf', rep)

/-- The records of one section. A section that is not there or empty is passed over. -/
def Applier.applySection (ap : Applier) (lbtf : Btf) (st : List Section × Report)
    (entry : String × List Record) : R (List Section × Report) :=
  match st.1.find? (·.name = entry.1) with
  | none => pure st
  | some sec =>
    if sec.data = [] then pure st
    else do
      let (buf, rep) ← entry.2.foldlM (ap.applyRecord lbtf entry.1) (sec.data, st.2)
      pure (st.1.modify sec.idx fun s => { s with data := buf }, rep)

/-- All records of an object, by section. -/
def Applier.apply (ap : Applier) (lbtf : Btf) (recs : List (String × List Record))
    (sections : List Section) : R (List Section × Report) :=
  recs.foldlM (ap.applySection lbtf) (sections, ⟨[], []⟩)

end BpfEquiv.Core
