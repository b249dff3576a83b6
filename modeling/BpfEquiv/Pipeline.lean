import BpfEquiv.Gate
import BpfEquiv.Lts

/-!
The gate with several workers.

Each worker is a thread that takes objects from one queue, with a builder thread that prepares
the next object in the other of two slots and a guest that runs the prepared ones. The steps of
all threads interleave in any order; what the guests, the builds and the runs alone give is
arbitrary. When all workers are done the main thread runs the serial objects in the shared
tree. There is no step for a cancelled gate or an exception.
-/
namespace BpfEquiv.Gate.Pipeline
open Lts List Function

/-! One worker. -/

def slots : Nat := 2

/-- The thread that prepares objects. -/
inductive Builder where
  | idle
  | queued (name : Chars) (slot : Nat)
  | preparing (name : Chars) (slot : Nat)
  | ready (p : Prepared)

/-- Where a worker is. While it finishes an object it knows whether another one is pending. A
worker that waits for a job knows its guest from before the job was posted. -/
inductive Pc where
  | begin
  | boot (name : Chars)
  | submit (name : Chars)
  | await
  | fetched (p : Prepared)
  | resubmit (p : Prepared) (name : Chars)
  | active (p : Prepared) (pending : Bool)
  | waiting (p : Prepared) (pending : Bool) (before : Worker) (alive : Bool)
  | answered (p : Prepared) (pending : Bool) (before : Worker) (alive : Bool) (rc : Option Int)
  | finished (p : Prepared) (pending : Bool) (row : Row)
  | alone (name : Chars)
  | aloneDone (name : Chars) (row : Row)
  | done

/-- A job that was posted, by the number of its guest, and its exit status once the guest has
delivered it. -/
structure Posted where
  boot : Nat
  n : Nat
  rc : Option Int

structure WState where
  pc : Pc
  builder : Builder
  /-- Objects that were handed to the builder. -/
  count : Nat
  gate : Worker
  /-- The process of the guest has not ended. -/
  alive : Bool
  /-- The last job that was posted from a slot. -/
  last : Nat → Option Posted
  /-- Guests that were stopped. -/
  stopped : Nat → Bool

/-- What the other threads see of a step: an object taken from the queue or the queue found
empty, the start of step 1 in a slot, a row. -/
inductive WLabel where
  | silent
  | take (name : Option Chars)
  | prepare (slot : Nat) (name : Chars)
  | record (name : Chars) (row : Row)

/-- An object in an overlay without a guest for all. -/
def gateOverlay (cfg : Config) (name : Chars) (a : Answers) : Except String (Row × List Event) := do
  let verdict ← classic cfg name .rust a.rustRun
  withOracle cfg name a (row verdict a.rustRun.1)

/-- The guest of a worker once it was asked for. -/
def WState.withGuest (cfg : Config) (w : WState) : WState :=
  let guest := guestFor cfg w.gate w.alive
  { w with gate := ⟨some guest.1, guest.2⟩, alive := true }

/-- A slot's layer becomes the next job of the guest. -/
def WState.post (cfg : Config) (w : WState) (slot : Nat) : WState :=
  let guest := guestFor cfg w.gate w.alive
  { w with
    gate := ⟨some { guest.1 with nextJob := guest.1.nextJob + 1 }, guest.2⟩
    alive := true
    last := update w.last slot (some ⟨guest.2, guest.1.nextJob, none⟩) }

def WState.stop (w : WState) : WState :=
  { w with alive := false, stopped := update w.stopped w.gate.boots true }

def WState.start (w : WState) (name : Chars) : WState :=
  { w with builder := .queued name (w.count % slots), count := w.count + 1 }

/-- One step of a worker, its builder or its guest. -/
inductive WStep (cfg : Config) (pipelined : Bool) : WState → WLabel → WState → Prop
  | takeFirst {w : WState} {name : Chars} (here : w.pc = .begin) :
      WStep cfg pipelined w (.take (some name))
        { w with pc := if pipelined then .boot name else .alone name }
  | takeNone {w : WState} (here : w.pc = .begin) :
      WStep cfg pipelined w (.take none) { w with pc := .done }
  | boot {w : WState} {name : Chars} (here : w.pc = .boot name) :
      WStep cfg pipelined w .silent { w.withGuest cfg with pc := .submit name }
  | submit {w : WState} {name : Chars} (here : w.pc = .submit name) (free : w.builder = .idle) :
      WStep cfg pipelined w .silent { w.start name with pc := .await }
  | prepare {w : WState} {name : Chars} {slot : Nat} (task : w.builder = .queued name slot) :
      WStep cfg pipelined w (.prepare slot name) { w with builder := .preparing name slot }
  | prepared {w : WState} {name : Chars} {slot : Nat} (task : w.builder = .preparing name slot)
      (rc : Int) (text : Chars) :
      WStep cfg pipelined w .silent { w with builder := .ready ⟨name, rc, text, slot⟩ }
  | fetch {w : WState} {p : Prepared} (here : w.pc = .await) (ready : w.builder = .ready p) :
      WStep cfg pipelined w .silent { w with pc := .fetched p, builder := .idle }
  | takeNext {w : WState} {p : Prepared} {name : Chars} (here : w.pc = .fetched p) :
      WStep cfg pipelined w (.take (some name)) { w with pc := .resubmit p name }
  | takeLast {w : WState} {p : Prepared} (here : w.pc = .fetched p) :
      WStep cfg pipelined w (.take none) { w with pc := .active p false }
  | resubmit {w : WState} {p : Prepared} {name : Chars} (here : w.pc = .resubmit p name)
      (free : w.builder = .idle) :
      WStep cfg pipelined w .silent { w.start name with pc := .active p true }
  | skip {w : WState} {p : Prepared} {pending : Bool} {a : Answers} {r : Row} {events : List Event}
      {gate : Worker} (here : w.pc = .active p pending) (failed : p.rc ≠ 0)
      (judged : finish cfg w.gate p a = .ok (r, events, gate)) :
      WStep cfg pipelined w .silent { w with pc := .finished p pending r, gate := gate }
  | post {w : WState} {p : Prepared} {pending : Bool} (here : w.pc = .active p pending)
      (prepared : p.rc = 0) :
      WStep cfg pipelined w .silent
        { w.post cfg p.slot with pc := .waiting p pending w.gate w.alive }
  | deliver {w : WState} {p : Prepared} {pending alive : Bool} {before : Worker} {job : Posted}
      (here : w.pc = .waiting p pending before alive) (lives : w.alive = true)
      (posted : w.last p.slot = some job) (running : job.rc = none) (rc : Int) :
      WStep cfg pipelined w .silent
        { w with last := update w.last p.slot (some { job with rc := some rc }) }
  | die {w : WState} (lives : w.alive = true) :
      WStep cfg pipelined w .silent { w with alive := false }
  | answer {w : WState} {p : Prepared} {pending alive : Bool} {before : Worker}
    {job : Posted} {rc : Int}
      (here : w.pc = .waiting p pending before alive) (posted : w.last p.slot = some job)
      (delivered : job.rc = some rc) :
      WStep cfg pipelined w .silent { w with pc := .answered p pending before alive (some rc) }
  | giveUp {w : WState} {p : Prepared} {pending alive : Bool} {before : Worker}
      (here : w.pc = .waiting p pending before alive) :
      WStep cfg pipelined w .silent { w.stop with pc := .answered p pending before alive none }
  | judge {w : WState} {p : Prepared} {pending alive : Bool} {before : Worker} {rc : Option Int}
      {a : Answers} {r : Row} {events : List Event} {gate : Worker}
      (here : w.pc = .answered p pending before alive rc) (sameGuest : a.alive = alive)
      (sameWait : a.wait = rc) (judged : finish cfg before p a = .ok (r, events, gate)) :
      WStep cfg pipelined w .silent
        { (if gate.guest.isSome then w else w.stop) with pc := .finished p pending r, gate := gate }
  | record {w : WState} {p : Prepared} {pending : Bool} {r : Row}
    (here : w.pc = .finished p pending r) :
      WStep cfg pipelined w (.record p.name r) { w with pc := if pending then .await else .done }
  | alone {w : WState} {name : Chars} {a : Answers} {r : Row} {events : List Event}
      (here : w.pc = .alone name) (judged : gateOverlay cfg name a = .ok (r, events)) :
      WStep cfg pipelined w .silent { w with pc := .aloneDone name r }
  | aloneRecord {w : WState} {name : Chars} {r : Row} (here : w.pc = .aloneDone name r) :
      WStep cfg pipelined w (.record name r) { w with pc := .begin }

/-! Objects that a worker holds. -/

def Builder.held : Builder → Multiset Chars
  | .idle => 0
  | .queued name _ | .preparing name _ => {name}
  | .ready p => {p.name}

def Pc.held : Pc → Multiset Chars
  | .begin | .await | .done => 0
  | .boot name | .submit name | .alone name | .aloneDone name _ => {name}
  | .fetched p | .active p _ | .waiting p _ _ _ | .answered p _ _ _ _ | .finished p _ _ => {p.name}
  | .resubmit p name => {p.name, name}

def WState.held (w : WState) : Multiset Chars := w.pc.held + w.builder.held

def WLabel.taken : WLabel → List Chars
  | .take (some name) => [name]
  | _ => []

def WLabel.recorded : WLabel → List (Chars × Row)
  | .record name row => [(name, row)]
  | _ => []

section Worker

variable {cfg : Config} {pipelined : Bool} {w w' : WState} {l : WLabel}

theorem held_step (step : WStep cfg pipelined w l w') :
    w'.held + (l.recorded.map (·.1) : Multiset Chars) = w.held + l.taken := by
  cases step with
  | takeFirst here =>
    cases pipelined <;> simp [WState.held, Pc.held, WLabel.recorded, WLabel.taken, here, add_comm]
  | boot here => simp [WState.held, WState.withGuest, Pc.held, WLabel.recorded, WLabel.taken, here]
  | submit here free | resubmit here free =>
    simp [WState.held, WState.start, Pc.held, Builder.held, WLabel.recorded, WLabel.taken,
      here, free]
  | post here => simp [WState.held, WState.post, Pc.held, WLabel.recorded, WLabel.taken, here]
  | giveUp here => simp [WState.held, WState.stop, Pc.held, WLabel.recorded, WLabel.taken, here]
  | @judge _ _ _ _ _ _ _ _ gate here =>
    cases gate.guest.isSome <;>
      simp [WState.held, WState.stop, Pc.held, WLabel.recorded, WLabel.taken, here]
  | @record _ pending _ here =>
    cases pending <;>
      simp [WState.held, Pc.held, WLabel.recorded, WLabel.taken, here, add_comm]
  | prepare task | prepared task =>
    simp [WState.held, Builder.held, WLabel.recorded, WLabel.taken, task]
  | fetch here ready =>
    simp [WState.held, Pc.held, Builder.held, WLabel.recorded, WLabel.taken, here, ready]
  | deliver | die => rfl
  | takeNone here | takeNext here | takeLast here | skip here | answer here | alone here
  | aloneRecord here =>
    simp [WState.held, Pc.held, WLabel.recorded, WLabel.taken, here, add_comm]

/-! Steps that are left. -/

def Builder.weight : Builder → Nat
  | .idle => 0
  | .queued _ _ => 12
  | .preparing _ _ => 11
  | .ready _ => 10

/-- Bound of the steps of a worker until it asks for the next object. -/
def WState.weight (w : WState) : Nat :=
  (match w.pc with
    | .begin => 1
    | .boot _ => 15
    | .submit _ => 13
    | .await => 0
    | .fetched _ => 9
    | .resubmit _ _ => 20
    | .active _ _ => 7
    | .waiting p _ _ _ => if (w.last p.slot).any (·.rc.isSome) then 3 else 4
    | .answered _ _ _ _ _ => 2
    | .finished _ _ _ => 1
    | .alone _ => 3
    | .aloneDone _ _ => 2
    | .done => 0) + w.builder.weight + w.alive.toNat

theorem weight_step (step : WStep cfg pipelined w l w') :
    w'.weight < w.weight + 15 * l.taken.length := by
  have alive : w.alive.toNat ≤ 1 := Bool.toNat_le w.alive
  cases step with
  | takeFirst here =>
    cases pipelined <;> simp [WState.weight, WLabel.taken, here] <;> omega
  | boot here =>
    simp [WState.weight, WState.withGuest, WLabel.taken, here]
    omega
  | submit here free | resubmit here free =>
    simp [WState.weight, WState.start, Builder.weight, WLabel.taken, here, free]
  | post here =>
    simp [WState.weight, WState.post, WLabel.taken, here]
    omega
  | giveUp here =>
    simp [WState.weight, WState.stop, WLabel.taken, here]
    split <;> omega
  | @judge _ _ _ _ _ _ _ _ gate here =>
    cases gate.guest.isSome <;> simp [WState.weight, WState.stop, WLabel.taken, here]
    omega
  | @record _ pending _ here => cases pending <;> simp [WState.weight, WLabel.taken, here]
  | prepare task | prepared task => simp [WState.weight, Builder.weight, WLabel.taken, task]
  | fetch here ready => simp [WState.weight, Builder.weight, WLabel.taken, here, ready]
  | deliver here lives posted running =>
    simp [WState.weight, WLabel.taken, here, posted, running]
  | die lives => simp [WState.weight, WLabel.taken, lives]
  | answer here posted delivered =>
    simp [WState.weight, WLabel.taken, here, posted, delivered]
  | takeNext here =>
    simp [WState.weight, WLabel.taken, here]
    omega
  | takeNone here | takeLast here | skip here | alone here | aloneRecord here =>
    simp [WState.weight, WLabel.taken, here]

/-! Slots. -/

/-- The last job from a slot has delivered its exit status or its guest was stopped. -/
def Settled (last : Nat → Option Posted) (stopped : Nat → Bool) (slot : Nat) : Prop :=
  ∀ job ∈ last slot, job.rc.isSome = true ∨ stopped job.boot = true

def Builder.slot : Builder → Option Nat
  | .idle => none
  | .queued _ slot | .preparing _ slot => some slot
  | .ready p => some p.slot

/-- The builder works for the worker's next object, in the slot that was counted last. -/
def Building (slot : Option Nat) (count : Nat) (pending : Bool) : Prop :=
  slot = if pending then some ((count + 1) % slots) else none

/-- What holds of a worker at each place. Slots are settled but for the one whose job it waits
for, and the builder is never in that one. -/
def WState.Inv (w : WState) : Prop :=
  match w.pc with
  | .begin | .boot _ | .submit _ | .alone _ | .aloneDone _ _ | .done =>
    Building w.builder.slot w.count false ∧ ∀ slot, Settled w.last w.stopped slot
  | .await => Building w.builder.slot w.count true ∧ ∀ slot, Settled w.last w.stopped slot
  | .fetched p | .resubmit p _ =>
    Building w.builder.slot w.count false ∧ p.slot = (w.count + 1) % slots ∧
      ∀ slot, Settled w.last w.stopped slot
  | .active p pending =>
    Building w.builder.slot w.count pending ∧ (pending = true → p.slot = w.count % slots) ∧
      ∀ slot, Settled w.last w.stopped slot
  | .waiting p pending _ _ =>
    Building w.builder.slot w.count pending ∧ (pending = true → p.slot = w.count % slots) ∧
      (∀ slot, slot ≠ p.slot → Settled w.last w.stopped slot) ∧
        ∀ job ∈ w.last p.slot, job.boot = w.gate.boots
  | .answered _ pending _ _ _ | .finished _ pending _ =>
    Building w.builder.slot w.count pending ∧ ∀ slot, Settled w.last w.stopped slot

theorem Builder.idle_of_slot {b : Builder} (none' : b.slot = none) : b = .idle := by
  cases b with
  | idle => rfl
  | queued | preparing | ready => cases none'

theorem Settled.stop {slot : Nat} (settled : Settled w.last w.stopped slot) :
    Settled w.stop.last w.stop.stopped slot := by
  intro job posted
  rcases settled job posted with delivered | ended
  · exact .inl delivered
  refine .inr ?_
  by_cases same : job.boot = w.gate.boots
  · rw [WState.stop, same]
    exact update_self ..
  · rw [WState.stop]
    exact (update_of_ne same ..).trans ended

/-- Only the slot of the builder matters. -/
theorem WState.Inv.rebuild {b : Builder} (inv : w.Inv) (same : b.slot = w.builder.slot) :
    ({ w with builder := b } : WState).Inv := by
  cases here : w.pc <;> simp only [WState.Inv, here, same] at inv ⊢ <;> exact inv

theorem building_start (name : Chars) (count : Nat) :
    Building (Builder.queued name (count % slots)).slot (count + 1) true := by
  simp only [Building, Builder.slot, if_true, slots]
  congr 1
  omega

theorem inv_step (inv : w.Inv) (step : WStep cfg pipelined w l w') : w'.Inv := by
  obtain ⟨pc, builder, count, gate, alive, last, stopped⟩ := w
  cases step with
  | takeNone here | aloneRecord here | alone here | boot here | takeNext here =>
    cases here
    exact inv
  | takeFirst here =>
    cases here
    cases pipelined <;> exact inv
  | submit here =>
    cases here
    exact ⟨building_start _ _, inv.2⟩
  | resubmit here =>
    cases here
    exact ⟨building_start _ _, fun _ => inv.2.1, inv.2.2⟩
  | prepare task | prepared task => exact inv.rebuild (by rw [task]; rfl)
  | fetch here ready =>
    cases here
    cases ready
    exact ⟨rfl, Option.some.inj inv.1, inv.2⟩
  | takeLast here =>
    cases here
    exact ⟨inv.1, nofun, inv.2.2⟩
  | skip here =>
    cases here
    exact ⟨inv.1, inv.2.2⟩
  | post here =>
    cases here
    refine ⟨inv.1, inv.2.1, fun slot other => ?_, fun job posted => ?_⟩
    · intro job posted
      simp only [WState.post, update_of_ne other] at posted
      exact inv.2.2 slot job posted
    · simp only [WState.post, update_self, Option.mem_some_iff] at posted
      rw [← posted]
      rfl
  | @deliver p _ _ _ job here lives posted running rc =>
    cases here
    simp only [WState.Inv, update_self, Option.mem_some_iff]
    refine ⟨inv.1, inv.2.1, fun slot other j posted' => ?_, fun j same => ?_⟩
    · rw [update_of_ne other] at posted'
      exact inv.2.2.1 slot other j posted'
    · rw [← same]
      exact inv.2.2.2 job posted
  | die => exact inv
  | @answer p _ _ _ job _ here posted delivered =>
    cases here
    refine ⟨inv.1, fun slot => ?_⟩
    by_cases same : slot = p.slot
    · intro j posted'
      cases (same ▸ posted').symm.trans posted
      exact .inl (by rw [delivered]; rfl)
    · exact inv.2.2.1 slot same
  | @giveUp p _ _ _ here =>
    cases here
    refine ⟨inv.1, fun slot => ?_⟩
    by_cases same : slot = p.slot
    · intro j posted
      rw [same] at posted
      refine .inr ?_
      rw [inv.2.2.2 j posted]
      exact update_self ..
    · exact (inv.2.2.1 slot same).stop
  | @judge _ _ _ _ _ _ _ _ gate here =>
    cases here
    cases gate.guest.isSome with
    | true => exact inv
    | false => exact ⟨inv.1, fun slot => (inv.2 slot).stop⟩
  | @record _ pending _ here =>
    cases here
    cases pending <;> exact inv

/-- Step 1 starts in a settled slot only. -/
theorem prepare_settled {slot : Nat} {name : Chars} (inv : w.Inv)
    (step : WStep cfg pipelined w (.prepare slot name) w') : Settled w.last w.stopped slot := by
  cases step with
  | prepare task =>
    have building {pending : Bool} (busy : Building w.builder.slot w.count pending) :
        pending = true ∧ slot = (w.count + 1) % slots := by
      rw [Building, task, Builder.slot] at busy
      cases pending with
      | true => exact ⟨rfl, Option.some.inj busy⟩
      | false => cases busy
    cases here : w.pc with
    | waiting p pending before alive =>
      simp only [WState.Inv, here] at inv
      obtain ⟨busy, own, settled, -⟩ := inv
      obtain ⟨rfl, counted⟩ := building busy
      -- the worker's own object is in the other slot
      have apart : slot ≠ p.slot := by
        rw [counted, own rfl, slots]
        omega
      exact settled slot apart
    | fetched | resubmit | active =>
      simp only [WState.Inv, here] at inv
      exact inv.2.2 slot
    | begin | boot | submit | alone | aloneDone | done | await | answered | finished =>
      simp only [WState.Inv, here] at inv
      exact inv.2 slot

/-! Steps that can be taken. -/

def kvmBanner : Chars := "Linux version, Hypervisor detected: KVM".toList

/-- Answers under which nothing is raised. -/
def calm (alive : Bool) (rc : Option Int) : Answers where
  alive := alive
  wait := rc
  jobLog := none
  guestLog := kvmBanner
  rustRun := (0, [])
  cRun := (0, [])

theorem withOracle_calm (name : Chars) (alive : Bool) (rc : Option Int) (r : Row) :
    ∃ r' events, withOracle cfg name (calm alive rc) r = .ok (r', events) := by
  unfold withOracle
  split
  · exact ⟨_, _, rfl⟩
  · exact ⟨_, _, rfl⟩

theorem checkGuest_calm (g : Guest) : checkGuest cfg g kvmBanner = .ok () := by
  have banner : Text.contains "Linux version".toList kvmBanner = true := by decide
  have kvm : Text.contains "Hypervisor detected: KVM".toList kvmBanner = true := by decide
  unfold checkGuest
  split
  · rfl
  · simp only [underKvm, banner, kvm, Bool.not_true, Bool.and_false, Bool.false_eq_true, if_false]

theorem gateInGuest_calm (gate : Worker) (p : Prepared) (alive : Bool) (rc : Option Int) :
    ∃ r events gate', gateInGuest cfg gate p (calm alive rc) = .ok (r, events, gate') := by
  unfold gateInGuest
  split
  · exact ⟨_, _, _, rfl⟩
  cases rc with
  | none => exact ⟨_, _, _, rfl⟩
  | some rc =>
    dsimp only [calm, bind, Except.bind]
    rw [checkGuest_calm]
    dsimp only
    split
    · exact ⟨_, _, _, rfl⟩
    · exact ⟨_, _, _, rfl⟩

theorem finish_calm (gate : Worker) (p : Prepared) (alive : Bool) (rc : Option Int) :
    ∃ r events gate', finish cfg gate p (calm alive rc) = .ok (r, events, gate') := by
  obtain ⟨inGuest, events, gate', first⟩ := @gateInGuest_calm cfg gate p alive rc
  have alone : ∃ r events', orAlone cfg p (calm alive rc) inGuest events = .ok (r, events') := by
    cases inGuest with
    | some r => exact ⟨_, _, rfl⟩
    | none => exact ⟨_, _, rfl⟩
  obtain ⟨r, events', second⟩ := alone
  obtain ⟨r', oracle, third⟩ := @withOracle_calm cfg p.name alive rc r
  refine ⟨r', events' ++ oracle, gate', ?_⟩
  exact Exc.bind_eq_ok.mpr
    ⟨_, first, Exc.bind_eq_ok.mpr ⟨_, second, Exc.bind_eq_ok.mpr ⟨_, third, rfl⟩⟩⟩

theorem gateOverlay_calm (name : Chars) :
    ∃ r events, gateOverlay cfg name (calm true none) = .ok (r, events) := by
  obtain ⟨r, events, judged⟩ :=
    @withOracle_calm cfg name true none (row (runtimeResult name 0 []) 0)
  exact ⟨r, events, Exc.bind_eq_ok.mpr ⟨_, rfl, judged⟩⟩

/-- A step that does not need an object of the queue, or one for what the queue has. -/
def Enabled (cfg : Config) (pipelined : Bool) (w : WState) : Prop :=
  (∃ l w', WStep cfg pipelined w l w' ∧ ∀ name, l ≠ .take name) ∨
    ∀ name, ∃ w', WStep cfg pipelined w (.take name) w'

theorem worker_enabled (inv : w.Inv) (busy : w.pc ≠ .done) : Enabled cfg pipelined w := by
  cases here : w.pc with
  | done => exact absurd here busy
  | begin =>
    refine .inr fun name => ?_
    cases name with
    | none => exact ⟨_, .takeNone here⟩
    | some name => exact ⟨_, .takeFirst here⟩
  | fetched p =>
    refine .inr fun name => ?_
    cases name with
    | none => exact ⟨_, .takeLast here⟩
    | some name => exact ⟨_, .takeNext here⟩
  | boot name => exact .inl ⟨_, _, .boot here, nofun⟩
  | submit name =>
    simp only [WState.Inv, here] at inv
    exact .inl ⟨_, _, .submit here (Builder.idle_of_slot inv.1), nofun⟩
  | resubmit p name =>
    simp only [WState.Inv, here] at inv
    exact .inl ⟨_, _, .resubmit here (Builder.idle_of_slot inv.1), nofun⟩
  | await =>
    simp only [WState.Inv, here] at inv
    cases task : w.builder with
    | idle =>
      rw [task] at inv
      cases inv.1
    | queued name slot => exact .inl ⟨_, _, .prepare task, nofun⟩
    | preparing name slot => exact .inl ⟨_, _, .prepared task 0 [], nofun⟩
    | ready p => exact .inl ⟨_, _, .fetch here task, nofun⟩
  | active p pending =>
    by_cases prepared : p.rc = 0
    · exact .inl ⟨_, _, .post here prepared, nofun⟩
    · obtain ⟨r, events, gate, judged⟩ := @finish_calm cfg w.gate p true none
      exact .inl ⟨_, _, .skip here prepared judged, nofun⟩
  | waiting p pending before alive => exact .inl ⟨_, _, .giveUp here, nofun⟩
  | answered p pending before alive rc =>
    obtain ⟨r, events, gate, judged⟩ := @finish_calm cfg before p alive rc
    exact .inl ⟨_, _, .judge here rfl rfl judged, nofun⟩
  | finished p pending r => exact .inl ⟨_, _, .record here, nofun⟩
  | alone name =>
    obtain ⟨r, events, judged⟩ := @gateOverlay_calm cfg name
    exact .inl ⟨_, _, .alone here judged, nofun⟩
  | aloneDone name r => exact .inl ⟨_, _, .aloneRecord here, nofun⟩

/-! Workers that found the queue empty. -/

def Pc.Drained : Pc → Prop
  | .active _ pending | .waiting _ pending _ _ | .answered _ pending _ _ _
  | .finished _ pending _ =>
    pending = false
  | .done => True
  | _ => False

theorem drained_step (step : WStep cfg pipelined w l w') (drained : w'.pc.Drained) :
    w.pc.Drained ∨ l = .take none := by
  cases step with
  | takeNone | takeLast => exact .inr rfl
  | takeFirst here =>
    cases pipelined <;> cases drained
  | boot | submit | fetch | takeNext | alone | aloneRecord => cases drained
  | resubmit => cases drained
  | prepare | prepared | deliver | die => exact .inl drained
  | skip here | post here | answer here | giveUp here =>
    rw [here]
    exact .inl drained
  | @judge _ _ _ _ _ _ _ _ gate here =>
    rw [here]
    exact .inl drained
  | @record _ pending _ here =>
    rw [here]
    cases pending with
    | true => cases drained
    | false => exact .inl rfl

theorem done_step (step : WStep cfg pipelined w l w') (done : w.pc = .done) : w'.pc = .done := by
  cases step with
  | prepare | prepared | die => exact done
  | deliver here => cases done.symm.trans here
  | takeFirst here | takeNone here | boot here | submit here | fetch here | takeNext here
  | takeLast here
  | resubmit here | skip here | post here | answer here | giveUp here | judge here | record here
  | alone here | aloneRecord here => cases done.symm.trans here

end Worker

/-! All workers. -/

/-- An object in the shared tree: the Rust object, then the C object, which has to be back in
its place. -/
def gateShared (cfg : Config) (name : Chars) (rust c : Int × Chars)
    (pristine : Except String Unit) :
    Except String Row := do
  let verdict ← classic cfg name .rust rust
  let cVerdict ← classic cfg name .c c
  if c.1 ≠ 0 ∧ cVerdict.1 ≠ .noOracle ∧
      (verdict.1 ≠ .fail ∨ cVerdict.1 ≠ .fail ∨ isSummary cVerdict.2 = false) then
    .error ("C restoration/rebuild failed for " ++ String.ofList name ++ "; see " ++
      String.ofList (cfg.logDir ++ '/' :: Which.c.log name))
  else do
    pristine
    pure ⟨verdict.1, rust.1, verdict.2, c.1, if verdict.1 = .fail then some cVerdict.1 else none,
      if verdict.1 = .fail then cVerdict.2 else []⟩

/-- The main thread waits for one worker after the other, then runs the serial objects. -/
inductive MainPc where
  | joining (k : Nat)
  | serial (rest : List Chars)
  | running (name : Chars) (rest : List Chars)
  | ran (name : Chars) (row : Row) (rest : List Chars)
  | returned

structure State (n : Nat) where
  queue : List Chars
  workers : Fin n → WState
  recorded : List (Chars × Row)
  main : MainPc

inductive Label (n : Nat) where
  | worker (k : Fin n) (l : WLabel)
  | shared (name : Chars)
  | main

structure Setting (n : Nat) where
  cfgs : Fin n → Config
  sharedCfg : Config
  /-- Workers keep one guest. -/
  pipelined : Bool
  names : List Chars
  serial : Chars → Bool

/-- Unknown durations first, then the longest. -/
def longerFirst {S : Type} [LE S] [DecidableRel (fun a b : S => a ≤ b)] (seconds : Chars → Option S)
    (a b : Chars) : Bool :=
  match seconds a, seconds b with
  | none, _ => true
  | some _, none => false
  | some x, some y => decide (y ≤ x)

def longestFirst {S : Type} [LE S] [DecidableRel (fun a b : S => a ≤ b)] (names : List Chars)
    (seconds : Chars → Option S) : List Chars :=
  names.insertionSort (longerFirst seconds · ·)

def WState.init : WState := ⟨.begin, .idle, 0, ⟨none, 0⟩, false, fun _ => none, fun _ => false⟩

def Setting.init {n : Nat} (g : Setting n) {S : Type} [LE S] [DecidableRel (fun a b : S => a ≤ b)]
    (seconds : Chars → Option S) : State n where
  queue := longestFirst (g.names.filter fun name => !g.serial name) seconds
  workers _ := .init
  recorded := []
  main := .joining 0

structure WLabel.Effect (l : WLabel) (queue queue' : List Chars) (rows rows' : List (Chars × Row)) :
    Prop where
  takes : queue = l.taken ++ queue'
  records : rows' = rows ++ l.recorded
  drains : l = .take none → queue = []

def WState.dismiss (w : WState) : WState := { w.stop with gate := ⟨none, w.gate.boots⟩ }

inductive Step {n : Nat} (g : Setting n) : State n → Label n → State n → Prop
  | worker {s : State n} {k : Fin n} {l : WLabel} {w : WState} {queue : List Chars}
      {rows : List (Chars × Row)} (step : WStep (g.cfgs k) g.pipelined (s.workers k) l w)
      (effect : l.Effect s.queue queue s.recorded rows) :
      Step g s (.worker k l)
        { s with queue := queue, workers := update s.workers k w, recorded := rows }
  | join {s : State n} {k : Nat} (here : s.main = .joining k) (bound : k < n)
      (done : (s.workers ⟨k, bound⟩).pc = .done) :
        Step g s .main { s with main := .joining (k + 1) }
  | stopGuests {s : State n} (here : s.main = .joining n) :
      Step g s .main
        { s with
          main := .serial (g.names.filter g.serial), workers := fun k => (s.workers k).dismiss }
  | shared {s : State n} {name : Chars} {rest : List Chars}
    (here : s.main = .serial (name :: rest)) :
      Step g s (.shared name) { s with main := .running name rest }
  | run {s : State n} {name : Chars} {rest : List Chars} {rust c : Int × Chars}
      {pristine : Except String Unit} {r : Row} (here : s.main = .running name rest)
      (judged : gateShared g.sharedCfg name rust c pristine = .ok r) :
      Step g s .main { s with main := .ran name r rest }
  | record {s : State n} {name : Chars} {rest : List Chars} {r : Row}
    (here : s.main = .ran name r rest) :
      Step g s .main { s with main := .serial rest, recorded := s.recorded ++ [(name, r)] }
  | leave {s : State n} (here : s.main = .serial []) : Step g s .main { s with main := .returned }

/-! Every name once. -/

section System

variable {n : Nat} {g : Setting n} {s s' : State n} {l : Label n}

def MainPc.rest (serial : List Chars) : MainPc → List Chars
  | .joining _ => serial
  | .serial rest => rest
  | .running name rest | .ran name _ rest => name :: rest
  | .returned => []

def MainPc.Joined (workers : Fin n → WState) : MainPc → Prop
  | .joining k => k ≤ n ∧ ∀ i : Fin n, i.val < k → (workers i).pc = .done
  | _ => ∀ i, (workers i).pc = .done

/-- Each name is recorded, held by a worker, or in one of the two queues. -/
structure State.Inv (g : Setting n) (s : State n) : Prop where
  workers : ∀ k, (s.workers k).Inv
  names : (s.recorded.map (·.1) : Multiset Chars) + ∑ k, (s.workers k).held + s.queue +
    s.main.rest (g.names.filter g.serial) = g.names
  drained : ∀ k, (s.workers k).pc.Drained → s.queue = []
  joined : s.main.Joined s.workers
  serial : ∀ name ∈ s.main.rest (g.names.filter g.serial), g.serial name = true

theorem sum_update {M : Type} [AddCommMonoid M] (f : WState → M)
    (workers : Fin n → WState) (k : Fin n) (w : WState) :
    ∑ i, f (update workers k w i) + f (workers k) = ∑ i, f (workers i) + f w := by
  rw [← Finset.add_sum_erase _ _ (Finset.mem_univ k),
    ← Finset.add_sum_erase _ _ (Finset.mem_univ k),
    update_self]
  have others : ∑ i ∈ Finset.univ.erase k, f (update workers k w i) =
      ∑ i ∈ Finset.univ.erase k, f (workers i) :=
    Finset.sum_congr rfl fun i member => by rw [update_of_ne (Finset.ne_of_mem_erase member)]
  rw [others]
  abel

/-- The queue does not grow, and is empty where a worker finds it so. -/
theorem WLabel.Effect.drained {l : WLabel} {queue queue' : List Chars}
    {rows rows' : List (Chars × Row)} (effect : l.Effect queue queue' rows rows')
    (empty : queue = [] ∨ l = .take none) : queue' = [] := by
  have none' := effect.takes.symm.trans (empty.elim id effect.drains)
  exact (append_eq_nil_iff.mp none').2

theorem MainPc.Joined.update {main : MainPc} {workers : Fin n → WState} {k : Fin n} {w : WState}
    (joined : main.Joined workers) (stays : (workers k).pc = .done → w.pc = .done) :
    main.Joined (Function.update workers k w) := by
  have each (i : Fin n) (done : (workers i).pc = .done) :
      (Function.update workers k w i).pc = .done := by
    by_cases same : i = k
    · subst same
      rw [Function.update_self]
      exact stays done
    · rw [Function.update_of_ne same]
      exact done
  cases main with
  | joining j => exact ⟨joined.1, fun i less => each i (joined.2 i less)⟩
  | serial | running | ran | returned => exact fun i => each i (joined i)

theorem init_inv {S : Type} [LE S] [DecidableRel (fun a b : S => a ≤ b)]
    (seconds : Chars → Option S) :
    (g.init seconds).Inv g where
  workers _ := ⟨rfl, fun _ _ posted => nomatch posted⟩
  names := by
    have sorted : ((g.init seconds).queue : Multiset Chars) =
        (g.names.filter fun name => !g.serial name : List Chars) :=
      Multiset.coe_eq_coe.mpr (perm_insertionSort _ _)
    have none' : ∑ k, ((g.init seconds).workers k).held = 0 := Finset.sum_eq_zero fun _ _ => rfl
    have parts : ((g.names.filter fun name => !g.serial name : List Chars) : Multiset Chars) +
        (g.names.filter g.serial : List Chars) = g.names := by
      rw [add_comm, Multiset.coe_add]
      exact Multiset.coe_eq_coe.mpr (filter_append_perm _ _)
    rw [sorted, none', add_zero, ← parts]
    exact congrArg (· + _) (zero_add _)
  drained _ drained := nomatch drained
  joined := ⟨Nat.zero_le n, fun _ less => absurd less (Nat.not_lt_zero _)⟩
  serial name listed := (mem_filter.mp listed).2

theorem WState.Inv.dismiss {w : WState} (inv : w.Inv) (done : w.pc = .done) : w.dismiss.Inv := by
  simp only [WState.Inv, done] at inv
  have still : w.dismiss.pc = .done := done
  simp only [WState.Inv, still]
  exact ⟨inv.1, fun slot => (inv.2 slot).stop⟩

/-- The main thread goes on and leaves all else. -/
theorem State.Inv.advance {main : MainPc} (inv : s.Inv g)
    (rest : main.rest (g.names.filter g.serial) = s.main.rest (g.names.filter g.serial))
    (joined : main.Joined s.workers) : ({ s with main := main } : State n).Inv g := by
  refine ⟨inv.workers, ?_, inv.drained, joined, ?_⟩
  · dsimp only
    rw [rest]
    exact inv.names
  · dsimp only
    rw [rest]
    exact inv.serial

theorem step_inv (inv : s.Inv g) (step : Step g s l s') : s'.Inv g := by
  have joined := inv.joined
  cases step with
  | @worker k l w queue rows step effect =>
    refine ⟨fun i => ?_, ?_, fun i drained => ?_, joined.update (done_step step), inv.serial⟩
    · by_cases same : i = k
      · subst same
        dsimp only
        rw [update_self]
        exact Pipeline.inv_step (inv.workers i) step
      · dsimp only
        rw [update_of_ne same]
        exact inv.workers i
    · have held := sum_update WState.held s.workers k w
      have moved := held_step step
      have key : ∑ i, (update s.workers k w i).held + (l.recorded.map (·.1) : Multiset Chars) =
          ∑ i, (s.workers i).held + l.taken := by
        refine add_right_cancel (b := (s.workers k).held) ?_
        rw [add_right_comm, held, add_assoc, moved]
        abel
      have all := inv.names
      rw [effect.takes, ← Multiset.coe_add] at all
      dsimp only
      rw [effect.records, map_append, ← Multiset.coe_add, ← all]
      generalize (l.recorded.map (·.1) : Multiset Chars) = own at key
      rw [add_assoc _ own, add_comm own, key]
      abel
    · dsimp only at drained ⊢
      refine effect.drained ?_
      by_cases same : i = k
      · subst same
        rw [update_self] at drained
        rcases drained_step step drained with before | found
        · exact .inl (inv.drained i before)
        · exact .inr found
      · rw [update_of_ne same] at drained
        exact .inl (inv.drained i drained)
  | @join k here bound done =>
    rw [here] at joined
    refine inv.advance (by rw [here]; rfl) ⟨bound, fun i less => ?_⟩
    rcases Nat.lt_succ_iff_lt_or_eq.mp less with earlier | same
    · exact joined.2 i earlier
    · have is : i = ⟨k, bound⟩ := Fin.ext same
      exact is ▸ done
  | stopGuests here =>
    rw [here] at joined
    have done (i : Fin n) := joined.2 i i.isLt
    have names := inv.names
    have serial := inv.serial
    rw [here] at names serial
    exact ⟨fun i => (inv.workers i).dismiss (done i), names, inv.drained, done, serial⟩
  | shared here | run here | leave here =>
    rw [here] at joined
    exact inv.advance (by rw [here]; rfl) joined
  | record here =>
    rw [here] at joined
    have names := inv.names
    have serial := inv.serial
    rw [here] at names serial
    refine ⟨inv.workers, ?_, inv.drained, joined, fun m listed => serial m (.tail _ listed)⟩
    rw [← names]
    dsimp only [MainPc.rest]
    rw [map_append, ← Multiset.coe_add, ← Multiset.cons_coe, ← Multiset.singleton_add]
    simp only [map_cons, map_nil, Multiset.coe_singleton]
    abel

/-! Every run ends. -/

def MainPc.weight (n serial : Nat) : MainPc → Nat
  | .joining k => n - k + 3 * serial + 2
  | .serial rest => 3 * rest.length + 1
  | .running _ rest => 3 * rest.length + 3
  | .ran _ _ rest => 3 * rest.length + 2
  | .returned => 0

/-- Bound of the steps that are left. -/
def State.weight (g : Setting n) (s : State n) : Nat :=
  15 * s.queue.length + ∑ k, (s.workers k).weight + s.main.weight n (g.names.filter g.serial).length

theorem step_weight (step : Step g s l s') : s'.weight g < s.weight g := by
  cases step with
  | @worker k l w queue rows step effect =>
    have queues := congrArg List.length effect.takes
    rw [length_append] at queues
    have sums := sum_update WState.weight s.workers k w
    have less := weight_step step
    simp only [State.weight]
    omega
  | join here bound =>
    simp only [State.weight, here, MainPc.weight]
    omega
  | stopGuests here =>
    have fewer : ∑ k, (s.workers k).dismiss.weight ≤ ∑ k, (s.workers k).weight :=
      Finset.sum_le_sum fun k _ => Nat.add_le_add_left (Nat.zero_le _) _
    simp only [State.weight, here, MainPc.weight]
    omega
  | shared here | run here | record here | leave here =>
    simp only [State.weight, here, MainPc.weight, length_cons, length_nil]
    omega

theorem gateShared_calm (cfg : Config) (name : Chars) :
    ∃ r, gateShared cfg name (0, []) (0, []) (.ok ()) = .ok r := ⟨_, rfl⟩

/-- A run that has not returned can go on. -/
theorem step_enabled (inv : s.Inv g) (notReturned : s.main ≠ .returned) :
    ∃ l s', Step g s l s' := by
  cases here : s.main with
  | returned => exact absurd here notReturned
  | serial rest =>
    cases rest with
    | nil => exact ⟨_, _, .leave here⟩
    | cons name rest => exact ⟨_, _, .shared here⟩
  | running name rest =>
    obtain ⟨r, judged⟩ := gateShared_calm g.sharedCfg name
    exact ⟨_, _, .run here judged⟩
  | ran name r rest => exact ⟨_, _, .record here⟩
  | joining k =>
    have joined := inv.joined
    rw [here] at joined
    rcases Nat.lt_or_eq_of_le joined.1 with bound | all
    · by_cases done : (s.workers ⟨k, bound⟩).pc = .done
      · exact ⟨_, _, .join here bound done⟩
      rcases @worker_enabled (g.cfgs ⟨k, bound⟩) g.pipelined _ (inv.workers _) done with
        ⟨l, w, step, other⟩ | takes
      · cases l with
        | take name => exact absurd rfl (other name)
        | silent | prepare | record => exact ⟨_, _, .worker step ⟨rfl, rfl, nofun⟩⟩
      cases queue : s.queue with
      | nil =>
        obtain ⟨w, step⟩ := takes none
        exact ⟨_, _, .worker step ⟨rfl, rfl, fun _ => queue⟩⟩
      | cons name rest =>
        obtain ⟨w, step⟩ := takes (some name)
        exact ⟨_, _, .worker step ⟨queue, rfl, nofun⟩⟩
    · exact ⟨_, _, .stopGuests (all ▸ here)⟩

/-! The results. -/

theorem held_done {w : WState} (inv : w.Inv) (done : w.pc = .done) : w.held = 0 := by
  simp only [WState.Inv, done] at inv
  rw [WState.held, done, Builder.idle_of_slot inv.1]
  rfl

theorem recorded_le (inv : s.Inv g) : (s.recorded.map (·.1) : Multiset Chars) ≤ g.names := by
  rw [← inv.names, add_assoc, add_assoc]
  exact Multiset.le_add_right _ _

theorem recorded_all (inv : s.Inv g) (some' : 0 < n) (returned : s.main = .returned) :
    (s.recorded.map (·.1)).Perm g.names := by
  have done := inv.joined
  rw [returned] at done
  have held : ∑ k, (s.workers k).held = 0 :=
    Finset.sum_eq_zero fun k _ => held_done (inv.workers k) (done k)
  have drained : (s.workers ⟨0, some'⟩).pc.Drained := by
    rw [done]
    trivial
  have names := inv.names
  rw [returned, held, inv.drained _ drained] at names
  simp only [MainPc.rest, Multiset.coe_nil, add_zero] at names
  exact Multiset.coe_eq_coe.mp names

/-- Two or more workers over all interleavings: rows are for distinct names, the gate goes on
until it returns and returns after a bounded number of steps, with one row for each name; serial
objects are run in the shared tree when all workers are done; and step 1 begins in a slot whose
last job is settled. -/
theorem gate_pipelining {S : Type} [LE S] [DecidableRel (fun a b : S => a ≤ b)]
    (seconds : Chars → Option S) (two : 2 ≤ n) (distinct : g.names.Nodup) :
    ∀ trace s, Run (Step g) (g.init seconds) trace s →
      ((s.recorded.map (·.1)).Nodup ∧ ∀ name ∈ s.recorded.map (·.1), name ∈ g.names) ∧
      (s.main = .returned → (s.recorded.map (·.1)).Perm g.names) ∧
      (s.main ≠ .returned → ∃ l s', Step g s l s') ∧
      trace.length ≤ (g.init seconds).weight g ∧
      (∀ name s', Step g s (.shared name) s' → g.serial name = true ∧
        ∀ k, (s.workers k).pc = .done) ∧
      ∀ k slot name s', Step g s (.worker k (.prepare slot name)) s' →
        Settled (s.workers k).last (s.workers k).stopped slot := by
  intro trace s run
  have keeps (s : State n) (l : Label n) (s' : State n) (inv : s.Inv g) (step : Step g s l s') :
      s'.Inv g := step_inv inv step
  have inv : s.Inv g := run.keeps (init_inv seconds) keeps
  refine ⟨⟨?_, ?_⟩, recorded_all inv (by omega), step_enabled inv, ?_, ?_, ?_⟩
  · exact Multiset.coe_nodup.mp
      (Multiset.nodup_of_le (recorded_le inv) (Multiset.coe_nodup.mpr distinct))
  · exact fun name listed => Multiset.mem_coe.mp (Multiset.mem_of_le (recorded_le inv) listed)
  · have bounded := run.length_add_le (init_inv seconds) keeps fun _ _ _ _ => step_weight
    omega
  · intro name s' step
    cases step with
    | shared here =>
      have joined := inv.joined
      have serial := inv.serial
      rw [here] at joined serial
      exact ⟨serial name (.head _), joined⟩
  · intro k slot name s' step
    cases step with
    | worker step => exact prepare_settled (inv.workers k) step

end System

/-- Two workers with one object for them and one for the shared tree. -/
def twoWorkers : Setting 2 where
  cfgs _ := ⟨['w'], [], true⟩
  sharedCfg := ⟨[], [], true⟩
  pipelined := true
  names := [['a'], ['b']]
  serial name := name = ['b']

/-- The first worker takes the object and the second finds the queue empty. -/
theorem gate_pipelining_two : ∃ trace s,
    Run (Step twoWorkers) (twoWorkers.init fun _ => (none : Option Nat)) trace s ∧
      s.main = .returned ∧ (s.recorded.map (·.1)).Perm [['a'], ['b']] := by
  have init : Run (Step twoWorkers) (twoWorkers.init fun _ => (none : Option Nat)) [] _ := .nil
  have started := init.snoc (.worker (k := 0) (.takeFirst rfl) ⟨rfl, rfl, nofun⟩)
    |>.snoc (.worker (k := 1) (.takeNone rfl) ⟨rfl, rfl, fun _ => rfl⟩)
    |>.snoc (.worker (k := 0) (.boot rfl) ⟨rfl, rfl, nofun⟩)
    |>.snoc (.worker (k := 0) (.submit rfl rfl) ⟨rfl, rfl, nofun⟩)
  have built := started.snoc (.worker (k := 0) (.prepare rfl) ⟨rfl, rfl, nofun⟩)
    |>.snoc (.worker (k := 0) (.prepared rfl 0 []) ⟨rfl, rfl, nofun⟩)
    |>.snoc (.worker (k := 0) (.fetch rfl rfl) ⟨rfl, rfl, nofun⟩)
    |>.snoc (.worker (k := 0) (.takeLast rfl) ⟨rfl, rfl, fun _ => rfl⟩)
  have answered := built.snoc (.worker (k := 0) (.post rfl rfl) ⟨rfl, rfl, nofun⟩)
    |>.snoc (.worker (k := 0) (.deliver rfl rfl rfl rfl 0) ⟨rfl, rfl, nofun⟩)
    |>.snoc (.worker (k := 0) (.answer rfl rfl rfl) ⟨rfl, rfl, nofun⟩)
    |>.snoc (.worker (k := 0) (.judge (a := calm true (some 0)) rfl rfl rfl rfl) ⟨rfl, rfl, nofun⟩)
    |>.snoc (.worker (k := 0) (.record rfl) ⟨rfl, rfl, nofun⟩)
  have joined := answered.snoc (.join rfl (by decide) rfl) |>.snoc (.join rfl (by decide) rfl)
    |>.snoc (.stopGuests rfl)
  have run := joined.snoc (.shared rfl)
    |>.snoc (.run rfl (show gateShared _ _ (0, []) (0, []) (.ok ()) = _ from rfl))
    |>.snoc (.record rfl) |>.snoc (.leave rfl)
  exact ⟨_, _, run, rfl, (gate_pipelining _ (by decide) (by decide) _ _ run).2.1 rfl⟩

end BpfEquiv.Gate.Pipeline
