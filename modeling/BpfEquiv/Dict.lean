import Mathlib

/-!
Dictionaries as association lists. An assignment replaces the value of a key in its place
or adds the key at the end.
-/
namespace Dict

open List

variable {α β : Type}

def keys (d : List (α × β)) : List α := d.map (·.1)

theorem lookup_isSome [BEq α] [LawfulBEq α] {d : List (α × β)} {k : α} :
    (d.lookup k).isSome = true ↔ k ∈ keys d := by
  simp only [lookup_isSome_iff, keys, mem_map, beq_iff_eq]
  exact ⟨fun ⟨e, member, same⟩ => ⟨e, member, same.symm⟩,
    fun ⟨e, member, same⟩ => ⟨e, member, same.symm⟩⟩

variable [DecidableEq α]

def set (d : List (α × β)) (key : α) (value : β) : List (α × β) :=
  if d.any (·.1 = key) then d.map fun e => if e.1 = key then (key, value) else e
  else d ++ [(key, value)]

def update (d entries : List (α × β)) : List (α × β) :=
  entries.foldl (fun out e => set out e.1 e.2) d

theorem any_iff {d : List (α × β)} {key : α} : d.any (·.1 = key) = true ↔ key ∈ keys d := by
  simp [keys, any_eq_true]

theorem mem_keys_set {d : List (α × β)} {key k : α} {value : β} :
    k ∈ keys (set d key value) ↔ k ∈ keys d ∨ k = key := by
  unfold set
  split
  · rename_i present
    have names : keys (d.map fun e => if e.1 = key then (key, value) else e) = keys d := by
      rw [keys, map_map]
      refine map_congr_left fun e _ => ?_
      by_cases same : e.1 = key <;> simp [same]
    rw [names]
    exact ⟨.inl, fun h => h.elim id fun same => same ▸ any_iff.mp present⟩
  · simp [keys, map_append]

theorem mem_keys_update {d entries : List (α × β)} {k : α} :
    k ∈ keys (update d entries) ↔ k ∈ keys d ∨ k ∈ keys entries := by
  unfold update
  induction entries generalizing d with
  | nil => simp [keys]
  | cons e es ih =>
    rw [foldl_cons, ih, mem_keys_set]
    simp [keys, or_assoc]

theorem update_of_nodup {d entries : List (α × β)} (distinct : (keys (d ++ entries)).Nodup) :
    update d entries = d ++ entries := by
  induction entries generalizing d with
  | nil => rw [append_nil, update, foldl_nil]
  | cons e es ih =>
    have absent : ¬ d.any (·.1 = e.1) = true := fun present => by
      rw [keys, map_append] at distinct
      exact disjoint_of_nodup_append distinct (any_iff.mp present) (.head _)
    have rest := @ih (d ++ [e]) (by rw [append_assoc]; exact distinct)
    rw [append_assoc] at rest
    rw [update, foldl_cons, set, if_neg absent]
    exact rest

section Lookup
variable [BEq α] [LawfulBEq α] {d entries : List (α × β)} {key k : α} {value : β}

theorem lookup_replace :
    (d.map fun e => if e.1 = key then (key, value) else e).lookup k =
      if k = key then (d.lookup k).map fun _ => value else d.lookup k := by
  induction d with
  | nil => simp
  | cons e es ih =>
    rw [map_cons, lookup_cons, lookup_cons]
    by_cases here : e.1 = key
    · by_cases same : k = key
      · simp [here, same]
      · have apart : (k == key) = false := beq_false_of_ne same
        simp only [here, if_true, apart, same, if_false, ih]
    by_cases head : k = e.1
    · simp [head, here]
    · have apart : (k == e.1) = false := beq_false_of_ne head
      simp only [here, if_false, apart, ih]

theorem lookup_set :
    (set d key value).lookup k = if k = key then some value else d.lookup k := by
  unfold set
  split
  · rename_i present
    rw [lookup_replace]
    by_cases same : k = key
    · obtain ⟨old, found⟩ := Option.isSome_iff_exists.mp
        (lookup_isSome.mpr (same ▸ any_iff.mp present : k ∈ keys d))
      rw [if_pos same, if_pos same, found, Option.map_some]
    · rw [if_neg same, if_neg same]
  · rename_i absent
    rw [lookup_append]
    by_cases same : k = key
    · have none' : d.lookup k = none := Option.not_isSome_iff_eq_none.mp fun there =>
        absent (any_iff.mpr (same ▸ lookup_isSome.mp there))
      rw [none', same]
      simp
    · have apart : (k == key) = false := beq_false_of_ne same
      simp [lookup_cons, apart, same]

theorem lookup_update_last : (update d (entries ++ [(k, value)])).lookup k = some value := by
  simp [update, foldl_append, lookup_set]

theorem mem_of_lookup_update (h : (update d entries).lookup k = some value) :
    (k, value) ∈ entries ∨ d.lookup k = some value := by
  unfold update at h
  induction entries generalizing d with
  | nil => exact .inr h
  | cons e es ih =>
    rw [foldl_cons] at h
    rcases ih h with later | before
    · exact .inl (.tail e later)
    rw [lookup_set] at before
    split at before
    · rename_i same
      cases before
      exact .inl (same ▸ (.head _))
    · exact .inr before

end Lookup

end Dict
