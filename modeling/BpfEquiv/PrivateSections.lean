import BpfEquiv.ReprC

/-!
`private_sections.layout`: the globals of a section are put in the order of the C object, each with
an alignment that makes the linker place it where the C object has it.
-/
namespace BpfEquiv.PrivateSections
open List

open ReprC (roundUp roundUp_eq_iff)

/-- A definition that `Global.parse` recognises. `text` is what `rebuilt` copies, `debugName` and
`line` are what `var_of` finds, and `size` is the size of the type, which is not looked at. -/
structure Global where
  name : String
  text : String
  sec : String
  explicit : Bool
  align : Nat
  debugName : Option String
  line : Option Nat
  size : Nat
  deriving DecidableEq

inductive Line where
  | other (text : String)
  | global (g : Global)
  deriving DecidableEq

def Global.rebuilt (g : Global) (align : Nat) : Global :=
  { g with explicit := true, align := align }

/-- The variables of a section by name, with offset and size, and its alignment. -/
structure CSection where
  vars : String → Option (Nat × Nat)
  align : Nat

structure Member where
  slot : Nat
  src : Nat
  global : Global

/-- The globals that have a source line, from line `i` on. -/
def members (i : Nat) : List Line → List Member
  | [] => []
  | .other _ :: lines => members (i + 1) lines
  | .global g :: lines =>
    match g.line with
    | none => members (i + 1) lines
    | some src => ⟨i, src, g⟩ :: members (i + 1) lines

/-- `offset & -offset`. -/
def lowBit (n : Nat) : Nat := n &&& (2 ^ (n.log2 + 1) - n)

/-- The loop doubles the alignment while it is at most 4096, so it has at most 13 turns. -/
def fittingAlignFrom (prevEnd offset natural : Nat) : Nat → Nat → Nat
  | 0, _ => if offset ≠ 0 then max natural (lowBit offset) else natural
  | fuel + 1, align =>
    if 4096 < align then if offset ≠ 0 then max natural (lowBit offset) else natural
    else if roundUp prevEnd align = offset then align
    else fittingAlignFrom prevEnd offset natural fuel (align * 2)

def fittingAlign (prevEnd offset natural : Nat) : Nat :=
  fittingAlignFrom prevEnd offset natural 13 natural

/-- The offset and size that the C object has for a member. -/
def CSection.find (c : CSection) (m : Member) : Option (Nat × Nat) :=
  m.global.debugName.bind c.vars

def CSection.offset (c : CSection) (m : Member) : Nat := ((c.find m).getD (0, 0)).1

def aligned (c : CSection) : Nat → List Member → List Global
  | _, [] => []
  | prevEnd, m :: ms =>
    let (offset, size) := (c.find m).getD (0, 0)
    let align := if offset = 0 then max m.global.align c.align
      else fittingAlign prevEnd offset m.global.align
    m.global.rebuilt align :: aligned c (offset + size) ms

def ordered (c : Option CSection) (ms : List Member) : List Global :=
  let c := c.getD ⟨fun _ => none, 0⟩
  let known := ms.filter fun m => (c.find m).isSome
  let rest := (ms.filter fun m => !(c.find m).isSome).mergeSort fun a b =>
    a.src < b.src || a.src = b.src && a.slot ≤ b.slot
  aligned c 0 (known.mergeSort fun a b => c.offset a ≤ c.offset b) ++
    rest.map fun m => m.global.rebuilt (max m.global.align 8)

def place (lines : List Line) (slots : List Nat) (gs : List Global) : List Line :=
  (slots.zip gs).foldl (fun lines x => lines.set x.1 (.global x.2)) lines

variable {prevEnd : Nat} {gs : List Global}

/-- A definition but for the attributes that are rewritten. -/
def Global.strip (g : Global) : Global := g.rebuilt 0

/-- A line that is not touched, or the section whose globals share the line. -/
def Line.shape : Line → Line ⊕ String
  | .other text => .inl (.other text)
  | .global g => if g.line.isSome then .inr g.sec else .inl (.global g)

/-- The globals of a section that are laid out. -/
def seen (sec : String) (lines : List Line) : List Global :=
  lines.filterMap fun
    | .other _ => none
    | .global g => if (Line.global g).shape = .inr sec then some g else none

def fill (sec : String) : List Line → List Global → List Line
  | [], _ => []
  | l :: lines, [] => l :: lines
  | l :: lines, g :: gs =>
    if l.shape = .inr sec then .global g :: fill sec lines gs else l :: fill sec lines (g :: gs)

def slots (sec : String) (i : Nat) : List (Line ⊕ String) → List Nat
  | [] => []
  | l :: lines => if l = .inr sec then i :: slots sec (i + 1) lines else slots sec (i + 1) lines

section
variable {sec : String}

end

/-! The order. -/

structure CVar where
  name : String
  offset : Nat
  size : Nat
  align : Nat
  deriving Inhabited

variable {vars : List CVar}

def InOrder : Nat → List CVar → Prop
  | _, [] => True
  | prevEnd, v :: vars => v.offset = roundUp prevEnd v.align ∧ 0 < v.size ∧ (∃ a, v.align = 2 ^ a) ∧
      InOrder (v.offset + v.size) vars

/-- The variables of the C section are the globals. -/
structure SameVars (c : CSection) (vars : List CVar) (gs : List Global) : Prop where
  find : ∀ v ∈ vars, c.vars v.name = some (v.offset, v.size)
  nodup : (vars.map (·.name)).Nodup
  perm : (gs.map (·.debugName)).Perm (vars.map (some ·.name))
  each : ∀ g ∈ gs, ∀ v ∈ vars, g.debugName = some v.name →
    g.size = v.size ∧ (∃ a, g.align = 2 ^ a) ∧ g.align ≤ v.align

structure Fits (c : CSection) (m : Member) (v : CVar) : Prop where
  find : c.find m = some (v.offset, v.size)
  name : m.global.debugName = some v.name
  size : m.global.size = v.size
  align : m.global.align ≤ v.align

theorem InOrder.increasing (inOrder : InOrder prevEnd vars) :
    (∀ v ∈ vars, prevEnd ≤ v.offset) ∧ vars.Pairwise (·.offset < ·.offset) := by
  induction vars generalizing prevEnd with
  | nil => exact ⟨nofun, .nil⟩
  | cons v vars ih =>
    obtain ⟨offset, size, ⟨a, isPow⟩, rest⟩ := inOrder
    rw [isPow] at offset
    obtain ⟨-, low, -⟩ := (roundUp_eq_iff (Nat.two_pow_pos a)).mp offset.symm
    obtain ⟨after, sorted⟩ := ih rest
    refine ⟨forall_mem_cons.mpr ⟨low, fun w member => ?_⟩, .cons (fun w member => ?_) sorted⟩
    · have := after w member
      omega
    · have := after w member
      omega

theorem SameVars.sorted {c : CSection} {vars : List CVar} {ms : List Member}
    (same : SameVars c vars (ms.map (·.global))) (inOrder : InOrder 0 vars) :
    List.Forall₂ (Fits c) (ms.mergeSort fun a b => c.offset a ≤ c.offset b) vars := by
  have perm := mergeSort_perm ms fun a b => c.offset a ≤ c.offset b
  have known : ∀ m ∈ ms, ∃ v ∈ vars, m.global.debugName = some v.name := by
    intro m member
    have listed := same.perm.subset (mem_map_of_mem (mem_map_of_mem member))
    obtain ⟨v, isVar, name⟩ := mem_map.mp listed
    exact ⟨v, isVar, name.symm⟩
  have fits : ∀ m ∈ ms, ∀ v ∈ vars, m.global.debugName = some v.name → Fits c m v := by
    intro m member v isVar name
    have each := same.each _ (mem_map_of_mem member) v isVar name
    exact ⟨by rw [CSection.find, name]; exact same.find v isVar, name, each.1, each.2.2⟩
  choose! var isVar name using known
  -- by their names the members stand for the variables
  have listed : (ms.map var).Perm vars := by
    have byName : ((ms.map var).map (some ·.name)).Perm (vars.map (some ·.name)) := by
      refine .trans (.of_eq ?_) same.perm
      rw [map_map, map_map]
      exact map_congr_left fun m member => (name m member).symm
    have nodup : (ms.map var).Nodup := by
      refine .of_map (some ·.name) (byName.nodup_iff.mpr ?_)
      have once := same.nodup.map (Option.some_injective _)
      rwa [map_map] at once
    have inside : ms.map var ⊆ vars := fun v member => by
      obtain ⟨m, isMember, rfl⟩ := mem_map.mp member
      exact isVar m isMember
    refine (nodup.subperm inside).perm_of_length_le (Nat.le_of_eq ?_)
    simpa using byName.length_eq.symm
  have offset : ∀ m ∈ ms, c.offset m = (var m).offset := by
    intro m member
    rw [CSection.offset, (fits m member _ (isVar m member) (name m member)).find]
    rfl
  have sorted : ((ms.mergeSort fun a b => c.offset a ≤ c.offset b).map var) = vars := by
    refine @List.Perm.eq_of_pairwise _ (fun v w => v.offset ≤ w.offset) _ _ ?_ ?_
      (inOrder.increasing.2.imp Nat.le_of_lt) ((perm.map var).trans listed)
    · intro v w isV isW le ge
      have differ : (vars.map (·.offset)).Nodup :=
        pairwise_map.mpr (inOrder.increasing.2.imp Nat.ne_of_lt)
      exact inj_on_of_nodup_map differ ((perm.map var).trans listed |>.subset isV) isW
        (Nat.le_antisymm le ge)
    · have pairwise := @pairwise_mergeSort _ (fun a b => decide (c.offset a ≤ c.offset b))
        (fun a b d => by simpa using Nat.le_trans) (fun a b => by simpa using Nat.le_total _ _) ms
      rw [pairwise_map]
      refine pairwise.imp_of_mem fun {a b} isA isB le => ?_
      rw [← offset a (perm.subset isA), ← offset b (perm.subset isB)]
      exact of_decide_eq_true le
  rw [← sorted, forall₂_map_right_iff, forall₂_same]
  intro m member
  have member' := perm.subset member
  exact fits m member' _ (isVar m member') (name m member')

end BpfEquiv.PrivateSections
