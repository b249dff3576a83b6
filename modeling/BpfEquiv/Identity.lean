import BpfEquiv.RegionNames
import BpfEquiv.TraceSpec
import BpfEquiv.Verdict
import BpfEquiv.PtrOps

/-!
Identity of arguments across the two runs.

An argument enters an event as a scalar, or as the canonical name of its region and its
offset. A pointer stored as data is the checksum of that name in the high half plus the
offset. Both are compared with what the argument denotes: a value, or an offset into a
shared region or into the run's own stack, read-only data or configuration.
-/
namespace BpfEquiv
open Smt Hoare List

variable {r r' : Region} {tag : String} {cfgA cfgB : Config} {v w : Val} {σ : Assignment}

/-! What an argument denotes. -/

/-- Regions that each run has for itself. -/
def Region.perRun : Region → Bool
  | .ro _ _ | .kcfg _ _ | .stack _ _ => true
  | _ => false

/-- The logical object: own regions without the tag of the run. -/
def Region.neutral : Region → Region
  | .ro _ sec => .ro "T" sec
  | .kcfg _ name => .kcfg "T" name
  | .stack _ frame => .stack "T" frame
  | r => r

def Val.OfRun (tag : String) : Val → Prop
  | .data _ => True
  | .ptr p => p.region.OfRun tag

/-- Two arguments denote the same value, or the same offset into the same object. -/
def SameArg (σ : Assignment) : Val → Val → Prop
  | .data t, .data u => t.eval σ = u.eval σ
  | .ptr p, .ptr q => p.region.neutral = q.region.neutral ∧ p.off.eval σ = q.off.eval σ
  | _, _ => False

/-! Canonical names. -/

theorem Region.perRun_eq (r : Region) : r.perRun = ["ro", "kcfg", "stack"].contains r.kind := by
  cases r <;> rfl

theorem Region.neutral_shared (shared : r.perRun = false) : r.neutral = r := by
  cases r with
  | ro _ _ | kcfg _ _ | stack _ _ => cases shared
  | _ => rfl

theorem Region.OfRun.neutral {tag : String} {r : Region} (h : r.OfRun tag) :
    r.neutral.OfRun "T" := by
  cases r with
  | ro _ _ | kcfg _ _ | stack _ _ => rfl
  | mapval key => exact h
  | _ => trivial

theorem Region.OfRun.shared {tag tag' : String} {r : Region} (h : r.OfRun tag)
    (shared : r.perRun = false) : r.OfRun tag' := by
  cases r with
  | ro _ _ | kcfg _ _ | stack _ _ => cases shared
  | mapval key => exact h
  | _ => trivial

theorem Region.neutral_eq_iff {tag' : String} (hr : r.OfRun tag)
    (hr' : r'.OfRun tag') : r.neutral.name = r'.neutral.name ↔ r.neutral = r'.neutral :=
  ⟨Region.name_inj hr.neutral hr'.neutral, congrArg Region.name⟩

/-- A region of the run itself is named by the tag and, behind a colon, what remains. -/
theorem Region.detail_perRun (hr : r.OfRun tag)
    (own : r.perRun = true) :
    ∃ tail, (tail = "" ∨ ∃ d, tail = ":" ++ d) ∧ r.detail = some (tag ++ tail) ∧
      r.neutral.detail = some ("T" ++ tail) := by
  cases r with
  | ro t sec =>
    cases hr
    exact ⟨":" ++ sec, .inr ⟨sec, rfl⟩, congrArg some (String.append_assoc ..),
      congrArg some (String.append_assoc ..)⟩
  | kcfg t name =>
    cases hr
    exact ⟨":" ++ name, .inr ⟨name, rfl⟩, congrArg some (String.append_assoc ..),
      congrArg some (String.append_assoc ..)⟩
  | stack t frame =>
    cases hr
    refine ⟨frame.suffix, ?_, rfl, rfl⟩
    cases frame with
    | main => exact .inl rfl
    | sub fid => exact .inr ⟨"f" ++ fid.repr, by rw [← String.append_assoc]; rfl⟩
    | cb fid => exact .inr ⟨"cb" ++ fid.repr, by rw [← String.append_assoc]; rfl⟩
  | _ => cases own

theorem Region.kind_neutral (r : Region) : r.neutral.kind = r.kind := by
  cases r <;> rfl

theorem Region.fields_perRun (free : ':' ∉ tag.toList)
    (hr : r.OfRun tag) (own : r.perRun = true) :
    ∃ rest, r.fields = r.kind.toList :: tag.toList :: rest ∧
      r.neutral.fields = r.kind.toList :: ['T'] :: rest := by
  obtain ⟨tail, shape, detail, neutral⟩ := Region.detail_perRun hr own
  have split : ∃ rest, ∀ t : String, ':' ∉ t.toList →
      splitOn ':' (t ++ tail).toList = t.toList :: rest := by
    obtain rfl | ⟨d, rfl⟩ := shape
    · exact ⟨[], fun t free => by rw [String.append_empty, splitOn_free free]⟩
    · refine ⟨splitOn ':' d.toList, fun t free => ?_⟩
      rw [String.toList_append, String.toList_append]
      exact splitOn_append free d.toList
  obtain ⟨rest, fields⟩ := split
  refine ⟨rest, ?_, ?_⟩
  · rw [r.fields_eq, detail]
    exact congrArg _ (fields tag free)
  · rw [r.neutral.fields_eq, neutral, r.kind_neutral]
    exact congrArg _ (fields "T" (by decide))

theorem canonRegion_perRun {cfg : Config} (free : ':' ∉ cfg.tag.toList)
    (hr : r.OfRun cfg.tag) (own : r.perRun = true) : canonRegion cfg r = r.neutral.name := by
  obtain ⟨rest, fields, neutral⟩ := Region.fields_perRun free hr own
  have canon := fields_canonRegion cfg r
  rw [fields, canonFields, if_pos rfl, ← neutral] at canon
  exact String.toList_inj.mp (splitOn_inj canon)

theorem canonFields_head (tag : List Char) (fs : List (List Char)) :
    (canonFields tag fs).head? = fs.head? := by
  unfold canonFields
  split <;> rfl

theorem canonRegion_kind {cfg cfg' : Config}
    (same : canonRegion cfg r = canonRegion cfg' r') : r.kind = r'.kind := by
  have heads := congrArg List.head? ((canonRegion_eq_iff cfg cfg' r r').mp same)
  rw [canonFields_head, canonFields_head, r.fields_eq, r'.fields_eq, List.head?_cons,
    List.head?_cons, Option.some.injEq] at heads
  exact String.toList_inj.mp heads

/-- Second fields of two names, otherwise equal, that the runs confuse or fail to match. -/
def tagPairs : List (List Char × List Char) :=
  [(['A'], ['A']), (['B'], ['B']), (['A'], ['B']), (['A'], ['T']), (['T'], ['B'])]

def FieldsClash (f g : List (List Char)) : Prop :=
  ∃ l x y rest, f = l :: x :: rest ∧ g = l :: y :: rest ∧ (x, y) ∈ tagPairs

theorem tagPairs_spec (x y : List Char) :
    ((if x = ['A'] then ['T'] else x) = (if y = ['B'] then ['T'] else y) ↔ x = y) ↔
      (x, y) ∉ tagPairs := by
  simp only [tagPairs, mem_cons, Prod.mk.injEq, not_mem_nil, or_false]
  by_cases hx : x = ['A'] <;> by_cases hy : y = ['B'] <;> simp [hx, hy] <;> grind

/-- The two runs agree on names just if no second field is in the way. -/
theorem canonFields_faithful_iff (f g : List (List Char)) :
    (canonFields ['A'] f = canonFields ['B'] g ↔ f = g) ↔ ¬ FieldsClash f g := by
  rcases f with _ | ⟨l, _ | ⟨x, rest⟩⟩
  · rcases g with _ | ⟨l', _ | ⟨y, rest'⟩⟩ <;> simp [canonFields, FieldsClash]
  · rcases g with _ | ⟨l', _ | ⟨y, rest'⟩⟩ <;> simp [canonFields, FieldsClash]
  rcases g with _ | ⟨l', _ | ⟨y, rest'⟩⟩
  · simp [canonFields, FieldsClash]
  · simp [canonFields, FieldsClash]
  have spec := tagPairs_spec x y
  by_cases frame : l = l' ∧ rest = rest'
  · obtain ⟨rfl, rfl⟩ := frame
    simpa [canonFields, FieldsClash] using spec
  refine iff_of_true ?_ ?_
  · simp only [canonFields, List.cons.injEq]
    exact iff_of_false (fun h => frame ⟨h.1, h.2.2⟩) fun h => frame ⟨h.1, h.2.2⟩
  rintro ⟨k, x', y', tail, hf, hg, _⟩
  cases hf
  cases hg
  exact frame ⟨rfl, rfl⟩

/-- Shared regions whose names differ at most in the second field, with second fields that
the runs confuse. -/
def NameClash (r r' : Region) : Prop :=
  r.perRun = false ∧ r'.perRun = false ∧ FieldsClash r.fields r'.fields

theorem canonRegion_faithful_iff (tagA : cfgA.tag = "A")
    (tagB : cfgB.tag = "B") (hr : r.OfRun "A") (hr' : r'.OfRun "B") :
    (canonRegion cfgA r = canonRegion cfgB r' ↔ r.neutral = r'.neutral) ↔ ¬ NameClash r r' := by
  by_cases differ : r.perRun = r'.perRun
  swap
  · have kinds : r.kind ≠ r'.kind := fun same =>
      differ (by rw [r.perRun_eq, r'.perRun_eq, same])
    refine iff_of_true (iff_of_false (fun same => kinds (canonRegion_kind same)) fun same => ?_)
      fun clash => differ (clash.1.trans clash.2.1.symm)
    exact kinds (by rw [← r.kind_neutral, same, r'.kind_neutral])
  cases own' : r'.perRun with
  | true =>
    rw [own'] at differ
    rw [canonRegion_perRun (by rw [tagA]; decide) (tagA ▸ hr) differ,
      canonRegion_perRun (by rw [tagB]; decide) (tagB ▸ hr') own']
    exact iff_of_true (Region.neutral_eq_iff hr hr') fun clash => by simp [clash.1] at differ
  | false =>
    rw [own'] at differ
    have names : r = r' ↔ r.fields = r'.fields := by
      rw [← Region.name_eq_iff_fields]
      exact ⟨congrArg Region.name, Region.name_inj hr (hr'.shared own')⟩
    rw [canonRegion_eq_iff, tagA, tagB, Region.neutral_shared differ, Region.neutral_shared own',
      names, NameClash]
    simpa [differ, own'] using canonFields_faithful_iff r.fields r'.fields

/-! Identity in events. -/

/-- The bytes by which an argument enters an event. -/
def Identifies (cfg : Config) (v : Val) (bs : List (Term (.bv 8))) : Prop :=
  ∀ what s, Returns (argIdBytes cfg v what) s bs s

def SameId (σ : Assignment) (cfgA cfgB : Config) (v w : Val) : Prop :=
  ∃ as bs, Identifies cfgA v as ∧ Identifies cfgB w bs ∧ evalBytes σ as = evalBytes σ bs

def idBytes (cfg : Config) : Val → List (Term (.bv 8))
  | .ptr p => byteVal 1 :: nameBytes (canonRegion cfg p.region) ++ (List.range 8).map (byteOf p.off)
  | .data t => byteVal 0 :: (List.range 8).map (byteOf t)

theorem identifies_iff (cfg : Config) (v : Val) (bs : List (Term (.bv 8))) :
    Identifies cfg v bs ↔ bs = idBytes cfg v := by
  have returns (what : String) (s : St) : Returns (argIdBytes cfg v what) s (idBytes cfg v) s := by
    cases v <;> rfl
  constructor
  · intro h
    have both := (returns "" emptySt).symm.trans (h "" emptySt)
    cases both
    rfl
  · rintro rfl what s
    exact returns what s

theorem evalBytes_idBytes_ptr (σ : Assignment) (cfg : Config) (p : Ptr) :
    evalBytes σ (idBytes cfg (.ptr p)) =
      1 :: (textBytes (canonRegion cfg p.region) ++ lowBytes 8 (p.off.eval σ)) := by
  rw [idBytes, evalBytes_append, evalBytes_byteOf, ← evalBytes_nameBytes σ]
  rfl

theorem evalBytes_idBytes_data (σ : Assignment) (cfg : Config) (t : Term (.bv 64)) :
    evalBytes σ (idBytes cfg (.data t)) = 0 :: lowBytes 8 (t.eval σ) := by
  rw [← evalBytes_byteOf]
  rfl

theorem sameId_bytes (σ : Assignment) (cfgA cfgB : Config) (v w : Val) :
    SameId σ cfgA cfgB v w ↔ evalBytes σ (idBytes cfgA v) = evalBytes σ (idBytes cfgB w) := by
  simp only [SameId, identifies_iff]
  constructor
  · rintro ⟨_, _, rfl, rfl, same⟩
    exact same
  · exact fun same => ⟨_, _, rfl, rfl, same⟩

/-- Arguments have the same bytes if they are equal scalars, or pointers at one offset into
regions of one canonical name, however long the name is. -/
theorem sameId_ptr_iff (σ : Assignment) (cfgA cfgB : Config) (p q : Ptr) :
    SameId σ cfgA cfgB (.ptr p) (.ptr q) ↔
      canonRegion cfgA p.region = canonRegion cfgB q.region ∧ p.off.eval σ = q.off.eval σ := by
  rw [sameId_bytes, evalBytes_idBytes_ptr, evalBytes_idBytes_ptr]
  constructor
  · intro same
    have total := congrArg List.length same
    simp only [textBytes, cons_append, length_cons, length_append, lowBytes,
      length_map, length_range] at total
    simp only [textBytes, cons_append, List.cons.injEq, true_and] at same
    obtain ⟨names, offs⟩ := append_inj same.2 (by omega)
    exact ⟨utf8_inj names, lowBytes_inj offs⟩
  · rintro ⟨names, offs⟩
    rw [names, offs]

theorem sameId_data_iff (σ : Assignment) (cfgA cfgB : Config) (t u : Term (.bv 64)) :
    SameId σ cfgA cfgB (.data t) (.data u) ↔ t.eval σ = u.eval σ := by
  rw [sameId_bytes, evalBytes_idBytes_data, evalBytes_idBytes_data, List.cons.injEq]
  exact ⟨fun same => lowBytes_inj same.2, fun same => ⟨rfl, by rw [same]⟩⟩

theorem not_sameId_data_ptr (σ : Assignment) (cfgA cfgB : Config) (t : Term (.bv 64)) (q : Ptr) :
    ¬ SameId σ cfgA cfgB (.data t) (.ptr q) := by
  rw [sameId_bytes, evalBytes_idBytes_data, evalBytes_idBytes_ptr, List.cons.injEq]
  exact fun same => absurd same.1 (by decide)

theorem not_sameId_ptr_data (σ : Assignment) (cfgA cfgB : Config) (p : Ptr) (u : Term (.bv 64)) :
    ¬ SameId σ cfgA cfgB (.ptr p) (.data u) := by
  rw [sameId_bytes, evalBytes_idBytes_data, evalBytes_idBytes_ptr, List.cons.injEq]
  exact fun same => absurd same.1 (by decide)

/-- Two pointers at one offset whose regions have confused names. -/
def IdClash (σ : Assignment) : Val → Val → Prop
  | .ptr p, .ptr q => p.off.eval σ = q.off.eval σ ∧ NameClash p.region q.region
  | _, _ => False

theorem sameId_faithful_iff (tagA : cfgA.tag = "A") (tagB : cfgB.tag = "B")
    (σ : Assignment) (hv : v.OfRun "A") (hw : w.OfRun "B") :
    (SameId σ cfgA cfgB v w ↔ SameArg σ v w) ↔ ¬ IdClash σ v w := by
  cases v with
  | data t =>
    cases w with
    | data u => exact iff_of_true (sameId_data_iff ..) id
    | ptr q => exact iff_of_true (iff_of_false (not_sameId_data_ptr σ cfgA cfgB t q) id) id
  | ptr p =>
    cases w with
    | data u => exact iff_of_true (iff_of_false (not_sameId_ptr_data σ cfgA cfgB p u) id) id
    | ptr q =>
      have names := canonRegion_faithful_iff tagA tagB hv hw
      simp only [sameId_ptr_iff, SameArg, IdClash]
      by_cases offs : p.off.eval σ = q.off.eval σ
      · simpa [offs] using names
      · exact iff_of_true (iff_of_false (fun h => offs h.2) fun h => offs h.2) fun h => offs h.1

/-- The length byte in front of the name holds its length. -/
def Val.NameFits (cfg : Config) : Val → Prop
  | .data _ => True
  | .ptr p => (utf8 (canonRegion cfg p.region)).length < 256

/-- With such names the bytes of an argument can be cut off the rest of a payload. -/
theorem sameId_of_append
    (fitsV : v.NameFits cfgA) (fitsW : w.NameFits cfgB) {as bs : List (Term (.bv 8))}
    (ha : Identifies cfgA v as) (hb : Identifies cfgB w bs) {rest rest' : List Byte}
    (same : evalBytes σ as ++ rest = evalBytes σ bs ++ rest') : SameId σ cfgA cfgB v w := by
  rw [(identifies_iff ..).mp ha, (identifies_iff ..).mp hb] at same
  cases v with
  | data t =>
    cases w with
    | data u =>
      rw [evalBytes_idBytes_data, evalBytes_idBytes_data, cons_append, cons_append,
        List.cons.injEq] at same
      exact (sameId_data_iff ..).mpr (lowBytes_append same.2).1
    | ptr q =>
      rw [evalBytes_idBytes_data, evalBytes_idBytes_ptr, cons_append, cons_append,
        List.cons.injEq] at same
      exact absurd same.1 (by decide)
  | ptr p =>
    cases w with
    | data u =>
      rw [evalBytes_idBytes_data, evalBytes_idBytes_ptr, cons_append, cons_append,
        List.cons.injEq] at same
      exact absurd same.1 (by decide)
    | ptr q =>
      rw [evalBytes_idBytes_ptr, evalBytes_idBytes_ptr, cons_append, cons_append,
        List.cons.injEq, append_assoc, append_assoc] at same
      obtain ⟨names, offs⟩ := textBytes_append fitsV fitsW same.2
      exact (sameId_ptr_iff ..).mpr ⟨names, (lowBytes_append offs).1⟩

/-! Identity in memory. -/

/-- What an eight-byte store of an argument leaves in memory. -/
def storedBits (cfg : Config) (σ : Assignment) : Val → BitVec 64
  | .data t => t.eval σ
  | .ptr p => (canonPtrBits cfg p).eval σ

def SameStored (σ : Assignment) (cfgA cfgB : Config) (v w : Val) : Prop :=
  storedBits cfgA σ v = storedBits cfgB σ w

def nameCrc (cfg : Config) (r : Region) : BitVec 32 := crc32 (utf8 (canonRegion cfg r))

theorem storedBits_ptr (cfg : Config) (σ : Assignment) (p : Ptr) :
    storedBits cfg σ (.ptr p) =
      BitVec.ofNat 64 ((nameCrc cfg p.region).toNat * 4294967296) + p.off.eval σ := by
  have split (n : Nat) (off : Term (.bv 64)) :
      (bv64 (n : Int) + off).eval σ = BitVec.ofNat 64 n + off.eval σ := by
    rw [← eval_bv64 σ]
    rfl
  rw [storedBits, canonPtrBits, split, nameCrc, Nat.shiftLeft_eq]

/-- The offset lies in the low half. -/
def Val.Low (σ : Assignment) : Val → Prop
  | .data _ => True
  | .ptr p => (p.off.eval σ).toNat < 4294967296

theorem halves_inj {a b : BitVec 32} {x y : BitVec 64} (hx : x.toNat < 4294967296)
    (hy : y.toNat < 4294967296)
    (same : BitVec.ofNat 64 (a.toNat * 4294967296) + x =
      BitVec.ofNat 64 (b.toNat * 4294967296) + y) : a = b ∧ x = y := by
  have bits := congrArg BitVec.toNat same
  rw [BitVec.toNat_add, BitVec.toNat_add, BitVec.toNat_ofNat, BitVec.toNat_ofNat] at bits
  have := a.isLt
  have := b.isLt
  exact ⟨BitVec.eq_of_toNat_eq (by omega), BitVec.eq_of_toNat_eq (by omega)⟩

theorem sameStored_ptr_iff {p q : Ptr} (lowP : (Val.ptr p).Low σ)
    (lowQ : (Val.ptr q).Low σ) (cfgA cfgB : Config) :
    SameStored σ cfgA cfgB (.ptr p) (.ptr q) ↔
      nameCrc cfgA p.region = nameCrc cfgB q.region ∧ p.off.eval σ = q.off.eval σ := by
  rw [SameStored, storedBits_ptr, storedBits_ptr]
  constructor
  · exact halves_inj lowP lowQ
  · rintro ⟨crcs, offs⟩
    rw [crcs, offs]

/-- Checksums that do not tell whether the objects are the same, or a scalar that happens
to be the encoding of the pointer. -/
def BitsClash (σ : Assignment) (cfgA cfgB : Config) : Val → Val → Prop
  | .data _, .data _ => False
  | .data t, .ptr q => t.eval σ = storedBits cfgB σ (.ptr q)
  | .ptr p, .data u => storedBits cfgA σ (.ptr p) = u.eval σ
  | .ptr p, .ptr q => p.off.eval σ = q.off.eval σ ∧
      ¬ (nameCrc cfgA p.region = nameCrc cfgB q.region ↔ p.region.neutral = q.region.neutral)

theorem sameStored_faithful_iff (lowV : v.Low σ) (lowW : w.Low σ)
    (cfgA cfgB : Config) :
    (SameStored σ cfgA cfgB v w ↔ SameArg σ v w) ↔ ¬ BitsClash σ cfgA cfgB v w := by
  cases v with
  | data t =>
    cases w with
    | data u => exact iff_of_true Iff.rfl id
    | ptr q => exact ⟨fun faithful => faithful.mp, fun clear => iff_of_false clear id⟩
  | ptr p =>
    cases w with
    | data u => exact ⟨fun faithful => faithful.mp, fun clear => iff_of_false clear id⟩
    | ptr q =>
      rw [sameStored_ptr_iff lowV lowW]
      simp only [SameArg, BitsClash]
      by_cases offs : p.off.eval σ = q.off.eval σ
      · simp [offs]
      · exact iff_of_true (iff_of_false (fun h => offs h.2) fun h => offs h.2) fun h => offs h.1

/-- Into every region there is a pointer with the encoding of a given argument. -/
theorem exists_sameStored (σ : Assignment) (cfgA cfgB : Config) (v : Val) (r : Region) :
    ∃ off : BitVec 64, SameStored σ cfgA cfgB v (.ptr ⟨r, .bvVal off⟩) := by
  refine ⟨storedBits cfgA σ v - BitVec.ofNat 64 ((nameCrc cfgB r).toNat * 4294967296), ?_⟩
  rw [SameStored, storedBits_ptr, Term.eval, BitVec.add_comm, BitVec.sub_add_cancel]

/-- Where the two encodings are faithful. The bytes of an event are, except for shared
regions with a run tag as the second field of their name; a payload of several arguments
is cut in one way if names fit their length byte. The bits of a stored pointer are
faithful, at offsets in the low half, just if checksums tell the objects apart and no
scalar is such an encoding; beyond the low half every object has a pointer with any given
bits. -/
theorem identity_encoding_faithful_iff (cfgA cfgB : Config) (tagA : cfgA.tag = "A")
    (tagB : cfgB.tag = "B") (σ : Assignment) (v w : Val) (hv : v.OfRun "A") (hw : w.OfRun "B") :
    ((SameId σ cfgA cfgB v w ↔ SameArg σ v w) ↔ ¬ IdClash σ v w) ∧
      (v.NameFits cfgA → w.NameFits cfgB → ∀ as bs, Identifies cfgA v as → Identifies cfgB w bs →
        ∀ rest rest', evalBytes σ as ++ rest = evalBytes σ bs ++ rest' → SameId σ cfgA cfgB v w) ∧
      (v.Low σ → w.Low σ →
        ((SameStored σ cfgA cfgB v w ↔ SameArg σ v w) ↔ ¬ BitsClash σ cfgA cfgB v w)) ∧
      ∀ r, ∃ off : BitVec 64, SameStored σ cfgA cfgB v (.ptr ⟨r, .bvVal off⟩) :=
  ⟨sameId_faithful_iff tagA tagB σ hv hw,
    fun fitsV fitsW _ _ ha hb _ _ same => sameId_of_append fitsV fitsW ha hb same,
    fun lowV lowW => sameStored_faithful_iff lowV lowW cfgA cfgB,
    exists_sameStored σ cfgA cfgB v⟩

def taggedConfig (tag : String) : Config := { plainConfig "tc" [] with tag := tag }

def startOf (r : Region) : Val := .ptr ⟨r, bv64 0⟩

theorem identity_encoding_stack :
    SameId default (taggedConfig "A") (taggedConfig "B") (startOf (.stack "A" .main))
      (startOf (.stack "B" .main)) := by
  have faithful := identity_encoding_faithful_iff (taggedConfig "A") (taggedConfig "B") rfl rfl
    default (startOf (.stack "A" .main)) (startOf (.stack "B" .main)) rfl rfl
  exact (faithful.1.mpr fun clash => by cases clash.2.1).mpr ⟨rfl, rfl⟩

/-- A map with the name of the run's tag passes for the map T of the other run and not for
itself, and two globals with names of one checksum are stored as the same bits. -/
theorem identity_encoding_confused :
    (SameId default (taggedConfig "A") (taggedConfig "B") (startOf (.map "A"))
        (startOf (.map "T")) ∧ ¬ SameArg default (startOf (.map "A")) (startOf (.map "T"))) ∧
      (¬ SameId default (taggedConfig "A") (taggedConfig "B") (startOf (.map "A"))
        (startOf (.map "A")) ∧ SameArg default (startOf (.map "A")) (startOf (.map "A"))) ∧
      (SameStored default (taggedConfig "A") (taggedConfig "B") (startOf (.g "plumless"))
        (startOf (.g "buckeroo")) ∧
        ¬ SameArg default (startOf (.g "plumless")) (startOf (.g "buckeroo"))) := by
  have low (r : Region) : Val.Low default (startOf r) := by
    simp [Val.Low, startOf, bv64, Term.eval]
  refine ⟨⟨?_, ?_⟩, ⟨?_, ⟨rfl, rfl⟩⟩, ?_, ?_⟩
  · exact (sameId_ptr_iff ..).mpr ⟨by decide +kernel, rfl⟩
  · exact fun same => absurd same.1 (by decide)
  · exact fun same => absurd ((sameId_ptr_iff ..).mp same).1 (by decide +kernel)
  · exact (sameStored_ptr_iff (low _) (low _) _ _).mpr ⟨by decide +kernel, rfl⟩
  · exact fun same => absurd same.1 (by decide)

end BpfEquiv
