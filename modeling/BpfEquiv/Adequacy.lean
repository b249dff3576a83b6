import BpfEquiv.TraceSpec
import BpfEquiv.MemoryModel

/-!
Adequacy of the call trace. Events are written one after the other over the initial
trace. If they fit into the 64-bit index space, the final arrays of two sequences agree
over every initial trace only if the sequences are equal: the length in each header
separates the payloads, and behind the last event the initial trace shows.
-/
namespace BpfEquiv
open Smt Hoare List

variable {cfg : Config} {s s' : St} {σ : Assignment}

/-- A call as the trace records it. -/
structure Event where
  hid : Int
  payload : List (Term (.bv 8))

def emitEvents (cfg : Config) : List Event → M Unit
  | [] => pure ()
  | e :: es => do
    emitEvent cfg e.hid e.payload
    emitEvents cfg es

def Event.bytes (e : Event) : List (Term (.bv 8)) :=
  eventHeader e.hid e.payload.length ++ e.payload

def Event.size (e : Event) : Nat := e.payload.length + 3

theorem Event.length_bytes (e : Event) : e.bytes.length = e.size := by
  simp only [Event.bytes, eventHeader, Event.size, length_append, length_cons,
    length_nil]
  omega

def traceSize (es : List Event) : Nat := (es.map Event.size).sum

/-! Emission. -/

theorem storeList_append (arr : Term .arr) (cur : Nat) (bs cs : List (Term (.bv 8))) :
    storeList arr cur (bs ++ cs) = storeList (storeList arr cur bs) (cur + bs.length) cs := by
  induction bs generalizing arr cur with
  | nil => rfl
  | cons b bs ih =>
    rw [cons_append, storeList, ih, storeList, length_cons, Nat.add_right_comm]
    rfl

theorem regionArray_trace {arr : Term .arr} (here : curArr cfg s .trace = some arr) :
    ∃ t, Returns (regionArray cfg .trace) s arr t := by
  simp only [regionArray, returns_get_bind]
  cases found : s.mem.arrs .trace with
  | some a =>
    rw [curArr_of_mem found] at here
    cases here
    exact ⟨s, returns_pure.mpr ⟨rfl, rfl⟩⟩
  | none =>
    cases shared : s.exec.sharedArr .trace with
    | none => simp [curArr, initTerm, found, shared] at here
    | some a =>
      simp only [curArr, initTerm, found, shared, Option.some.injEq] at here
      subst here
      refine ⟨_, returns_bind.mpr ⟨a, s, ?_, returns_modify_bind.mpr
        (returns_pure.mpr ⟨rfl, rfl⟩)⟩⟩
      simp [initArray, returns_get_bind, shared]

theorem emitEvent_returns {arr : Term .arr} (here : curArr cfg s .trace = some arr) (e : Event) :
    ∃ t, Returns (emitEvent cfg e.hid e.payload) s ⟨⟩ t ∧
      curArr cfg t .trace = some (storeList arr s.counters.cursor e.bytes) ∧
      t.counters.cursor = s.counters.cursor + e.size := by
  obtain ⟨t, first⟩ := regionArray_trace here
  have emits : ∃ u, Returns (emitEvent cfg e.hid e.payload) s ⟨⟩ u :=
    ⟨_, returns_bind.mpr ⟨arr, t, first, returns_get_bind.mpr
      (returns_modify_bind.mpr (returns_modify.mpr rfl))⟩⟩
  obtain ⟨u, emitted⟩ := emits
  have effect := emitEvent_emitted emitted
  obtain ⟨arr', here', after⟩ := effect.trace
  rw [here] at here'
  cases here'
  exact ⟨u, emitted, after, by rw [effect.counters]; rfl⟩

/-- Emission never fails and leaves the bytes of all events one after the other. -/
theorem emitEvents_returns (es : List Event) {arr : Term .arr}
    (here : curArr cfg s .trace = some arr) :
    ∃ t, Returns (emitEvents cfg es) s ⟨⟩ t ∧
      curArr cfg t .trace = some (storeList arr s.counters.cursor (es.flatMap Event.bytes)) := by
  induction es generalizing s arr with
  | nil => exact ⟨s, returns_pure.mpr ⟨rfl, rfl⟩, here⟩
  | cons e es ih =>
    obtain ⟨t, first, written, cursor⟩ := emitEvent_returns here e
    obtain ⟨u, rest, final⟩ := ih written
    refine ⟨u, returns_bind.mpr ⟨⟨⟩, t, first, rest⟩, ?_⟩
    rw [final, cursor, flatMap_cons, storeList_append, e.length_bytes]

/-! What the sequences say. -/

def Event.reading (σ : Assignment) (e : Event) : Int × List Byte := (e.hid, evalBytes σ e.payload)

/-- The same inputs over another initial trace. -/
def withTrace (σ : Assignment) (base : BitVec 64 → Byte) : Assignment :=
  { σ with arrs := Function.update σ.arrs "trace_init" base }

/-- An event as the executor records it: id and length fit their fields, and what it
records is no content of the initial trace. -/
structure Event.Proper (σ : Assignment) (e : Event) : Prop where
  nonneg : 0 ≤ e.hid
  id : e.hid < 256
  length : e.payload.length < 65536
  local' : ∀ base, evalBytes (withTrace σ base) e.payload = evalBytes σ e.payload

def Event.record (σ : Assignment) (e : Event) : Log.Record := eventRecord σ e.hid e.payload

theorem length_evalBytes (σ : Assignment) (bs : List (Term (.bv 8))) :
    (evalBytes σ bs).length = bs.length :=
  length_map _

theorem evalBytes_events (σ : Assignment) (es : List Event) :
    evalBytes σ (es.flatMap Event.bytes) = Log.encode (es.map (Event.record σ)) := by
  induction es with
  | nil => rfl
  | cons e es ih =>
    rw [flatMap_cons, evalBytes_append, ih, Event.bytes, evalBytes_event]
    rfl

theorem length_bytes_events (es : List Event) :
    (es.flatMap Event.bytes).length = traceSize es := by
  induction es with
  | nil => rfl
  | cons e es ih =>
    rw [flatMap_cons, length_append, ih, e.length_bytes]
    rfl

theorem record_withTrace {e : Event} (h : e.Proper σ) (base : BitVec 64 → Byte) :
    e.record (withTrace σ base) = e.record σ := by
  rw [Event.record, eventRecord, h.local' base]
  rfl

theorem records_short {es : List Event} (proper : ∀ e ∈ es, e.Proper σ) :
    ∀ r ∈ es.map (Event.record σ), r.payload.length < 65536 := by
  intro r member
  obtain ⟨e, inside, rfl⟩ := mem_map.mp member
  exact (length_evalBytes σ e.payload).symm ▸ (proper e inside).length

theorem reading_eq_of_record {e f : Event} (he : e.Proper σ) (hf : f.Proper σ)
    (same : e.record σ = f.record σ) : e.reading σ = f.reading σ := by
  simp only [Event.record, eventRecord, Log.Record.mk.injEq] at same
  have ids : e.hid = f.hid := by
    have low := congrArg BitVec.toNat same.1
    simp only [BitVec.toNat_ofInt] at low
    have := he.nonneg
    have := he.id
    have := hf.nonneg
    have := hf.id
    omega
  rw [Event.reading, Event.reading, ids, same.2]

theorem readings_eq_of_records {as bs : List Event} (ha : ∀ e ∈ as, e.Proper σ)
    (hb : ∀ e ∈ bs, e.Proper σ) (same : as.map (Event.record σ) = bs.map (Event.record σ)) :
    as.map (Event.reading σ) = bs.map (Event.reading σ) := by
  induction as generalizing bs with
  | nil =>
    cases bs with
    | nil => rfl
    | cons f bs => cases same
  | cons e as ih =>
    cases bs with
    | nil => cases same
    | cons f bs =>
      simp only [map_cons, List.cons.injEq] at same ⊢
      exact ⟨reading_eq_of_record (ha e (.head _)) (hb f (.head _)) same.1,
        ih (fun x member => ha x (.tail e member))
          (fun x member => hb x (.tail f member)) same.2⟩

def finalTrace (cfg : Config) (s : St) (σ : Assignment) : Option (BitVec 64 → Byte) :=
  (curArr cfg s .trace).map (·.eval σ)

theorem finalTrace_emitted {es : List Event} {t : St}
    (final : curArr cfg t .trace =
      some (storeList (.arrVar "trace_init") 0 (es.flatMap Event.bytes)))
    (proper : ∀ e ∈ es, e.Proper σ) (room : traceSize es ≤ 2 ^ 64) (base : BitVec 64 → Byte) :
    finalTrace cfg t (withTrace σ base) =
      some (Log.overlay (Log.encode (es.map (Event.record σ))) base) := by
  have start : (Term.arrVar "trace_init").eval (withTrace σ base) = Log.overlay [] base := by
    simp only [Term.eval, withTrace]
    rfl
  have written := eval_storeList (es.flatMap Event.bytes) start
    (by rw [length_bytes_events, length_nil]; omega)
  rw [finalTrace, final, Option.map_some]
  simp only [length_nil, nil_append] at written
  rw [written, evalBytes_events]
  congr 3
  exact map_congr_left fun e member => record_withTrace (proper e member) base

theorem length_encode_records (σ : Assignment) (es : List Event) :
    (Log.encode (es.map (Event.record σ))).length = traceSize es := by
  rw [← evalBytes_events, length_evalBytes, length_bytes_events]

/-- The trace is adequate for sequences of events that fit into it. -/
theorem trace_adequate_iff (cfg : Config) (s : St) (σ : Assignment) (as bs : List Event)
    (start : curArr cfg s .trace = some (.arrVar "trace_init")) (cursor : s.counters.cursor = 0)
    (ha : ∀ e ∈ as, e.Proper σ) (hb : ∀ e ∈ bs, e.Proper σ)
    (roomA : traceSize as ≤ 2 ^ 64) (roomB : traceSize bs ≤ 2 ^ 64) :
    ∃ sa sb, Returns (emitEvents cfg as) s ⟨⟩ sa ∧ Returns (emitEvents cfg bs) s ⟨⟩ sb ∧
      ((∀ base, finalTrace cfg sa (withTrace σ base) = finalTrace cfg sb (withTrace σ base)) ↔
        as.map (Event.reading σ) = bs.map (Event.reading σ)) := by
  obtain ⟨sa, runA, finalA⟩ := emitEvents_returns as start
  obtain ⟨sb, runB, finalB⟩ := emitEvents_returns bs start
  rw [cursor] at finalA finalB
  refine ⟨sa, sb, runA, runB, ?_⟩
  simp only [finalTrace_emitted finalA ha roomA, finalTrace_emitted finalB hb roomB,
    Option.some.injEq]
  constructor
  · intro same
    have bytes := Log.eq_of_overlay_forall (by rwa [length_encode_records])
      (by rwa [length_encode_records]) same
    refine readings_eq_of_records ha hb (Log.encode_inj ?_ ?_ bytes)
    · exact records_short ha
    · exact records_short hb
  · intro same base
    have records : as.map (Event.record σ) = bs.map (Event.record σ) := by
      have mapped := congrArg (List.map fun r => (⟨BitVec.ofInt 8 r.1, r.2⟩ : Log.Record)) same
      rwa [map_map, map_map] at mapped
    rw [records]

def Event.const (hid : Int) (bs : List Byte) : Event := ⟨hid, bs.map .bvVal⟩

theorem evalBytes_const (σ : Assignment) (bs : List Byte) : evalBytes σ (bs.map .bvVal) = bs := by
  rw [evalBytes, map_map]
  exact map_id bs

theorem Event.proper_const {hid : Int} {bs : List Byte} (nonneg : 0 ≤ hid) (id : hid < 256)
    (length : bs.length < 65536) : (Event.const hid bs).Proper σ :=
  ⟨nonneg, id, by rwa [Event.const, length_map], fun base => by
    rw [Event.const, evalBytes_const, evalBytes_const]⟩

/-- One call with two bytes is told from two calls with one byte each. -/
theorem trace_adequate_split :
    ∃ sa sb, Returns (emitEvents (plainConfig "tc" []) [.const 1 [1, 2]]) freshSt ⟨⟩ sa ∧
      Returns (emitEvents (plainConfig "tc" []) [.const 1 [1], .const 1 [2]]) freshSt ⟨⟩ sb ∧
      ∃ base, finalTrace (plainConfig "tc" []) sa (withTrace default base) ≠
        finalTrace (plainConfig "tc" []) sb (withTrace default base) := by
  have proper (bs : List Byte) (short : bs.length < 65536) : (Event.const 1 bs).Proper default :=
    Event.proper_const (by decide) (by decide) short
  obtain ⟨sa, sb, runA, runB, adequate⟩ := trace_adequate_iff (plainConfig "tc" []) freshSt
    default [.const 1 [1, 2]] [.const 1 [1], .const 1 [2]] rfl rfl
    (by simp [proper]) (by simp [proper]) (by decide) (by decide)
  refine ⟨sa, sb, runA, runB, ?_⟩
  by_contra agrees
  push Not at agrees
  exact absurd (adequate.mp agrees) (by decide)

/-! Beyond the index space. -/

/-- What was written before does not show where a later byte is written. -/
theorem eval_storeList_covered (bs : List (Term (.bv 8))) {arr arr' : Term .arr} {cur : Nat}
    {i : BitVec 64} (h : arr.eval σ i = arr'.eval σ i ∨
      ∃ k < bs.length, BitVec.ofNat 64 (cur + k) = i) :
    (storeList arr cur bs).eval σ i = (storeList arr' cur bs).eval σ i := by
  induction bs generalizing arr arr' cur with
  | nil =>
    obtain same | ⟨k, inside, _⟩ := h
    · exact same
    · exact absurd inside (Nat.not_lt_zero k)
  | cons b bs ih =>
    refine ih ?_
    simp only [Term.eval, eval_bv64]
    by_cases first : i = BitVec.ofNat 64 cur
    · exact .inl (by rw [if_pos first, if_pos first])
    rw [if_neg first, if_neg first]
    refine h.imp id fun ⟨k, inside, at'⟩ => ?_
    cases k with
    | zero => exact absurd at'.symm first
    | succ k =>
      exact ⟨k, Nat.lt_of_succ_lt_succ inside, by rw [← at', Nat.add_right_comm]; rfl⟩

/-- Bytes that run once around the index space leave nothing of what was there. -/
theorem eval_storeList_round {bs : List (Term (.bv 8))} (round : 2 ^ 64 ≤ bs.length)
    (arr arr' : Term .arr) (cur : Nat) :
    (storeList arr cur bs).eval σ = (storeList arr' cur bs).eval σ := by
  funext i
  refine eval_storeList_covered bs (.inr ⟨(i - BitVec.ofNat 64 cur).toNat, ?_, ?_⟩)
  · exact Nat.lt_of_lt_of_le (BitVec.isLt _) round
  apply BitVec.eq_of_toNat_eq
  simp only [BitVec.toNat_ofNat, BitVec.toNat_sub]
  have := i.isLt
  omega

def tick : Event := .const 1 (List.replicate 253 0)

def ticks : List Event := List.replicate (2 ^ 56) tick

theorem length_bytes_ticks : (ticks.flatMap Event.bytes).length = 2 ^ 64 := by
  have size : tick.size = 256 := by
    rw [tick, Event.const, Event.size, length_map, length_replicate]
  rw [length_bytes_events, traceSize, ticks, map_replicate, sum_replicate, size]
  norm_num

/-- Two sequences that differ in their first event and then run once around the index
space leave the same trace over every initial one. -/
theorem trace_wraps :
    (∀ σ, ∀ e ∈ [Event.const 1 [], .const 2 []] ++ ticks, e.Proper σ) ∧
      (∀ σ, (Event.const 1 [] :: ticks).map (Event.reading σ) ≠
        (Event.const 2 [] :: ticks).map (Event.reading σ)) ∧
      ∀ cfg : Config, ∃ sa sb, Returns (emitEvents cfg (.const 1 [] :: ticks)) freshSt ⟨⟩ sa ∧
        Returns (emitEvents cfg (.const 2 [] :: ticks)) freshSt ⟨⟩ sb ∧
        ∀ σ, finalTrace cfg sa σ = finalTrace cfg sb σ := by
  refine ⟨fun σ e member => ?_, fun σ same => ?_, fun cfg => ?_⟩
  · obtain first | rest := mem_append.mp member
    · simp only [mem_cons, not_mem_nil, or_false] at first
      obtain rfl | rfl := first
      · exact Event.proper_const (by decide) (by decide) (by decide)
      · exact Event.proper_const (by decide) (by decide) (by decide)
    · rw [eq_of_mem_replicate rest]
      exact Event.proper_const (by decide) (by decide) (by rw [length_replicate]; decide)
  · cases congrArg Prod.fst (List.cons.inj same).1
  · obtain ⟨sa, runA, finalA⟩ := @emitEvents_returns cfg freshSt (.const 1 [] :: ticks) _ rfl
    obtain ⟨sb, runB, finalB⟩ := @emitEvents_returns cfg freshSt (.const 2 [] :: ticks) _ rfl
    refine ⟨sa, sb, runA, runB, fun σ => ?_⟩
    rw [finalTrace, finalTrace, finalA, finalB, Option.map_some, Option.map_some,
      flatMap_cons, flatMap_cons, storeList_append, storeList_append]
    exact congrArg some (eval_storeList_round (Nat.le_of_eq length_bytes_ticks.symm) _ _ _)

end BpfEquiv
