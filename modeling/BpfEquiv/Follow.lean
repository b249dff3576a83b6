import BpfEquiv.StepFlow
import BpfEquiv.Verdict

/-!
Following the executions of a run.

An assignment selects one side at every fork. A fact about items that one step passes on
to the side it selects holds along the whole execution, and with it what the step says
about a path it ends.
-/
namespace BpfEquiv
open Smt Hoare List

variable {cfg : Config} {σ : Assignment} {it : Item} {out : StepOut} {exec exec' : Exec}

/-! The instruction at an item. -/

theorem decodeM_anywhere {sec : Section} {insns : List (Option Insn)} {s s' : St} (t : St)
    (h : Returns (decodeM cfg sec) s insns s') : Returns (decodeM cfg sec) t insns t := by
  unfold decodeM at h ⊢
  cases decoded : decode cfg.elf sec with
  | ok code =>
    rw [decoded] at h
    exact returns_pure.mpr ⟨h.pure.1, rfl⟩
  | error msg =>
    rw [decoded] at h
    exact h.throw

theorem insnsOf_anywhere {sec what : String} {insns : List (Option Insn)} {s s' : St} (t : St)
    (h : Returns (insnsOf cfg sec what) s insns s') : Returns (insnsOf cfg sec what) t insns t := by
  unfold insnsOf at h ⊢
  by_cases own : sec = cfg.sec.name
  · rw [if_pos own] at h ⊢
    exact decodeM_anywhere t h
  rw [if_neg own] at h ⊢
  cases found : cfg.elf.sectionByName sec with
  | none =>
    rw [found] at h
    exact h.throw
  | some callee =>
    simp only [found] at h ⊢
    split at h
    · exact h.throw
    rename_i code
    rw [if_neg code]
    split at h
    · exact h.throw
    · rename_i plain
      rw [if_neg plain]
      exact decodeM_anywhere t h

/-- The instruction depends on the program point alone. -/
theorem fetch_anywhere {ins : Insn} {s s' : St} (t : St) (h : Returns (fetch cfg it) s ins s') :
    Returns (fetch cfg it) t ins t := by
  obtain ⟨insns, s₁, code, found⟩ := h.bind
  refine returns_bind.mpr ⟨insns, t, insnsOf_anywhere t code, ?_⟩
  repeat' split at found
  all_goals first
    | exact found.throw
    | exact returns_pure.mpr ⟨found.pure.1, rfl⟩

def Item.insnAt (cfg : Config) (it : Item) : Option Insn :=
  match (fetch cfg it).run ⟨it.mem, it.counters, ⟨[], 0, [], [], 0⟩⟩ with
  | .ok (ins, _) => some ins
  | .error _ => none

theorem insnAt_congr {a b : Item} {ins : Insn} (sec : a.sec = b.sec) (pc : a.pc = b.pc)
    (found : b.insnAt cfg = some ins) : a.insnAt cfg = some ins := by
  have same : fetch cfg a = fetch cfg b := by simp only [fetch, sec, pc]
  unfold Item.insnAt at found ⊢
  split at found
  · rename_i ins' s fetched
    have there : (fetch cfg a).run ⟨a.mem, a.counters, ⟨[], 0, [], [], 0⟩⟩ =
        .ok (ins', ⟨a.mem, a.counters, ⟨[], 0, [], [], 0⟩⟩) := by
      rw [same]
      exact fetch_anywhere _ fetched
    rw [there]
    exact found
  · cases found

def StepOut.items (out : StepOut) : List Item := out.next.toList ++ out.pushed

/-- The side of a step that an assignment selects. -/
def StepOut.selected (σ : Assignment) (out : StepOut) : Option Item :=
  out.items.find? fun next => decide (Holds σ next.conds)

/-- Whoever takes one of the sides of a step came to the step. -/
theorem holds_of_alive (stepped : step cfg it exec = .ok (out, exec')) {conds : Conds}
    (member : conds ∈ out.alive) (held : Holds σ conds) : Holds σ it.conds := by
  by_contra away
  have none' := step_splits stepped σ
  rw [if_neg away] at none'
  exact countP_eq_zero.mp none' conds member (decide_eq_true held)

/-! Executions. -/

/-- A step passes a fact about items on to the side an assignment selects, and gives one
about the path it ends. -/
structure Followed (cfg : Config) (σ : Assignment) (Reach : Item → Prop) (End : Path → Prop) :
    Prop where
  item : ∀ {it : Item} {exec exec' : Exec} {out : StepOut} {next : Item}, Reach it →
    step cfg it exec = .ok (out, exec') → next ∈ out.items → Holds σ next.conds → Reach next
  path : ∀ {it : Item} {exec exec' : Exec} {out : StepOut} {p : Path}, Reach it →
    step cfg it exec = .ok (out, exec') → p ∈ out.ended → Holds σ p.conds → End p

/-- The facts about what an assignment selects in a state of the main loop. -/
structure RunFollowed (σ : Assignment) (Reach : Item → Prop) (End : Path → Prop) (r : Run) :
    Prop where
  items : ∀ it ∈ r.cur.toList.map (·.1) ++ r.work, Holds σ it.conds → Reach it
  paths : ∀ p ∈ r.paths, Holds σ p.conds → End p

variable {Reach : Item → Prop} {End : Path → Prop} {entryPc : Int} {callback : Bool} {fuel : Nat}
  {paths : List Path}

theorem RunFollowed.next {r r' : Run} (before : RunFollowed σ Reach End r)
    (item : ∀ {it exec' out next}, Reach it → step cfg it r.exec = .ok (out, exec') →
      next ∈ out.items → Holds σ next.conds → Reach next)
    (path : ∀ {it exec' out p}, Reach it → step cfg it r.exec = .ok (out, exec') →
      p ∈ out.ended → Holds σ p.conds → End p)
    (h : r.next cfg = .ok (.running r')) : RunFollowed σ Reach End r' := by
  obtain ⟨it, steps, out, exec, current, -, stepped, rfl⟩ | ⟨it, rest, current, queued, -, rfl⟩ :=
    Run.next_running h
  · have here : Holds σ it.conds → Reach it := before.items it (by simp [current])
    refine ⟨fun next member held => ?_, fun p member held => ?_⟩
    · by_cases old : next ∈ r.work
      · exact before.items next (mem_append_right _ old) held
      have new : next ∈ out.items := by
        simp only [StepOut.items, mem_append, Option.mem_toList] at member ⊢
        simp only [mem_map, Option.mem_toList, Option.map_eq_some_iff, mem_reverse,
          old, or_false] at member
        rcases member with ⟨x, ⟨y, found, rfl⟩, rfl⟩ | pushed
        · exact .inl found
        · exact .inr pushed
      have parent := holds_of_alive stepped (mem_append_left _ (mem_map_of_mem new)) held
      exact item (here parent) stepped new held
    · rcases mem_append.mp member with old | new
      · exact before.paths p old held
      · have parent := holds_of_alive stepped (mem_append_right _ (mem_map_of_mem new)) held
        exact path (here parent) stepped new held
  · refine ⟨fun next member held => before.items next ?_ held, before.paths⟩
    simpa [current, queued] using member

theorem run_selected {Inv : Run → Prop} (begins : Inv (initRun cfg exec entryPc callback))
    (kept : ∀ r r', Inv r → r.next (withEntry cfg entryPc) = .ok (.running r') → Inv r')
    (returned : run cfg exec entryPc callback fuel = some (.ok (paths, exec'))) :
    ∃ r p, Inv r ∧ p ∈ r.paths ∧ Holds σ p.conds ∧ Selects σ paths p := by
  obtain ⟨r, ran, last⟩ := Run.exec?_returned Inv kept begins returned
  obtain ⟨before, p, after, shape, held, others⟩ := selected_of_live (run_covered returned σ)
  refine ⟨r, p, ran, ?_, held, before, after, shape, held, fun q member =>
    others q (mem_append_left after member)⟩
  rw [(Run.next_returned last).2.2.1, shape]
  exact mem_append_right before (.head _)

/-- The path an assignment selects of a run ends its execution. -/
theorem Followed.run (followed : Followed (withEntry cfg entryPc) σ Reach End)
    (start : Reach (initItem cfg entryPc callback))
    (returned : BpfEquiv.run cfg exec entryPc callback fuel = some (.ok (paths, exec'))) :
    ∃ p, End p ∧ Selects σ paths p := by
  have begins : RunFollowed σ Reach End (initRun cfg exec entryPc callback) :=
    ⟨by simpa [initRun] using fun _ => start, nofun⟩
  obtain ⟨r, p, ran, member, held, selected⟩ := run_selected begins
    (fun _ _ before next => before.next followed.item followed.path next) returned
  exact ⟨p, ran.paths p member held, selected⟩

/-! Summaries of the selected path. -/

theorem Selects.summarizeRet {p : Path} (h : Selects σ paths p) :
    ∃ ret, BpfEquiv.summarizeRet paths = some ret ∧ ret.eval σ = p.ret.eval σ := by
  obtain ⟨before, after, rfl, held, others⟩ := h
  exact BpfEquiv.eval_iteFold _ before after held others

theorem Selects.summarize {p : Path} {shared : Region → Option (Term .arr)}
    {region : Region} {init : Term .arr} (h : Selects σ paths p)
    (found : shared region = some init) :
    ∃ arr, BpfEquiv.summarize paths shared region = some arr ∧
      arr.eval σ = ((p.mem.arrs region).getD init).eval σ := by
  obtain ⟨before, after, rfl, held, others⟩ := h
  obtain ⟨arr, folded, same⟩ :=
    BpfEquiv.eval_iteFold (finalArr init region) before after held others
  exact ⟨arr, by simp only [BpfEquiv.summarize, found, Option.bind_some, folded], same⟩

/-- One instruction of an item, as a semantics executes it. -/
abbrev Semantics := Item → Exec → Except Err (StepOut × Exec)

section Semantics
variable (S : Semantics) (σ : Assignment) (start : Item)

/-- Items an execution comes to. The path conditions of an item only say for which executions
it stands, so others that hold may take their place. -/
inductive Reached : Item → Prop
  | start : Reached start
  | step {it next : Item} {exec exec' : Exec} {out : StepOut} (conds : Conds)
      (before : Reached it) (stepped : S it exec = .ok (out, exec')) (member : next ∈ out.items)
      (held : Holds σ next.conds) (others : Holds σ conds) : Reached { next with conds := conds }

/-- An execution ends with what a path leaves. -/
def Ends (p : Path) : Prop :=
  ∃ it exec out exec' q, Reached S σ start it ∧ S it exec = .ok (out, exec') ∧ q ∈ out.ended ∧
    Holds σ q.conds ∧ p.ret = q.ret ∧ p.mem = q.mem

/-- Items that differ in the path conditions only. -/
def SameItem (next k : Item) : Prop := next = { k with conds := next.conds }

/-- What the assignment selects of a step of the executor, the semantics comes to. -/
structure Matches (it : Item) (out : StepOut) : Prop where
  items : ∀ next ∈ out.items, Holds σ next.conds → ∃ exec out' exec' k,
    S it exec = .ok (out', exec') ∧ k ∈ out'.items ∧ Holds σ k.conds ∧ SameItem next k
  ended : ∀ p ∈ out.ended, Holds σ p.conds → ∃ exec out' exec' q,
    S it exec = .ok (out', exec') ∧ q ∈ out'.ended ∧ Holds σ q.conds ∧ p.ret = q.ret ∧ p.mem = q.mem

/-- The path with which an execution ends, if it does so in time. -/
def follow : Nat → Item → Exec → Option Path
  | 0, _, _ => none
  | fuel + 1, it, exec =>
    match S it exec with
    | .ok (out, exec') =>
      match out.ended.find? fun p => decide (Holds σ p.conds) with
      | some p => some p
      | none => (out.selected σ).bind fun next => follow fuel next exec'
    | .error _ => none

end Semantics

variable {S : Semantics} {start : Item} {Inv : Item → Prop}

theorem Matches.reached {next : Item} (h : Matches S σ it out) (here : Reached S σ start it)
    (member : next ∈ out.items) (held : Holds σ next.conds) : Reached S σ start next := by
  obtain ⟨_, _, _, k, stepped, member', held', same⟩ := h.items next member held
  rw [same]
  exact .step _ here stepped member' held' held

end BpfEquiv
