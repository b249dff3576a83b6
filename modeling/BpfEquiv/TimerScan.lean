import BpfEquiv.Asm
import BpfEquiv.Driver
import BpfEquiv.Exc
import BpfEquiv.Hoare

/-!
The scan for timer callbacks.

A callback is found when its address is loaded into r2 in one of the six slots in front of
a call that registers one, and it is kept when no other function found has its key. The
function that a value in r2 points to is named as the executor names it.
-/
namespace BpfEquiv
open Smt Hoare List

variable {cfg : Config} {s s' : St}

variable {elf : Elf} {f g : Section × Symbol}

/-! What the scan finds. -/

/-- The function is loaded into r2 in one of the six slots in front of a call. -/
def Taken (elf : Elf) (f : Section × Symbol) : Prop :=
  ∃ sec ∈ elf.execSections, ∃ i < sec.data.length / 8, isTimerCall sec.data i = true ∧
    ∃ j < i, i ≤ j + 6 ∧ callbackAt elf sec j = .ok (some f)

theorem mem_of_mapM {α β : Type} {step : α → Except Err β} {xs : List α} {ys : List β}
    (h : xs.mapM step = .ok ys) (y : β) : y ∈ ys ↔ ∃ x ∈ xs, step x = .ok y := by
  have all : (.ok y ∈ xs.map step) ↔ (.ok y ∈ ys.map (.ok : β → Except Err β)) := by
    rw [Exc.mapM_ok h]
  simpa [mem_map] using all.symm

theorem mem_takenIn {sec : Section} {found : List (Section × Symbol)}
    (h : takenIn elf sec = .ok found) :
    f ∈ found ↔ ∃ i < sec.data.length / 8, isTimerCall sec.data i = true ∧
      ∃ j < i, i ≤ j + 6 ∧ callbackAt elf sec j = .ok (some f) := by
  unfold takenIn at h
  dsimp only at h
  obtain ⟨slots, scanned, h⟩ := Exc.bind_eq_ok.mp h
  cases h
  have member : f ∈ slots.filterMap id ↔ some f ∈ slots := by simp
  rw [member, mem_of_mapM scanned]
  simp only [mem_flatMap, mem_filter, mem_range, callbackWindow, decide_eq_true_eq]
  constructor
  · rintro ⟨j, ⟨i, ⟨inside, call⟩, before, near⟩, loaded⟩
    exact ⟨i, inside, call, j, before, by omega, loaded⟩
  · rintro ⟨i, inside, call, j, before, near, loaded⟩
    exact ⟨j, ⟨i, ⟨inside, call⟩, before, by omega⟩, loaded⟩

def callbackKey (f : Section × Symbol) : ProgKey := (".text", normalizeName f.2.name)

def callbackBody (f : Section × Symbol) : Section × Nat := (f.1, f.2.value / 8)

/-- Orders in which a set may be iterated. -/
def IsOrder (order : List (Section × Symbol) → List (Section × Symbol)) : Prop :=
  ∀ l, (order l).Perm l

/-- The functions found, without repetition; the order decides on nothing else. -/
theorem callbackPrograms_taken {order : List (Section × Symbol) → List (Section × Symbol)}
    {t : ProgTable} (h : callbackPrograms order elf = .ok t) :
    ∃ taken : List (Section × Symbol), (∀ f, f ∈ taken ↔ Taken elf f) ∧
      ∀ order', callbackPrograms order' elf =
        .ok (Dict.update [] ((order' taken).map fun f => (callbackKey f, callbackBody f))) := by
  unfold callbackPrograms at h
  obtain ⟨found, scanned, -⟩ := Exc.bind_eq_ok.mp h
  refine ⟨found.flatten.dedup, fun f => ?_, fun order' => ?_⟩
  · rw [mem_dedup, mem_flatten]
    constructor
    · rintro ⟨l, member, inside⟩
      obtain ⟨sec, exec, same⟩ := (mem_of_mapM scanned l).mp member
      exact ⟨sec, exec, (mem_takenIn same).mp inside⟩
    rintro ⟨sec, exec, loaded⟩
    obtain ⟨l, member, same⟩ := mem_map.mp (Exc.mapM_ok scanned ▸ mem_map_of_mem exec :
      takenIn elf sec ∈ found.map .ok)
    exact ⟨l, member, (mem_takenIn same.symm).mpr loaded⟩
  · simp only [callbackPrograms, scanned]
    rfl

/-- A callback is compared under its key, whatever the order, when it is found and no other
function found has that key. -/
theorem lookup_callback_iff {t₀ : ProgTable} (scanned : callbackPrograms id elf = .ok t₀) :
    (∀ order t, IsOrder order → callbackPrograms order elf = .ok t →
      t.lookup (callbackKey f) = some (callbackBody f)) ↔
    (∃ g, Taken elf g ∧ callbackKey g = callbackKey f ∧ callbackBody g = callbackBody f) ∧
      ∀ g, Taken elf g → callbackKey g = callbackKey f → callbackBody g = callbackBody f := by
  obtain ⟨taken, found, tables⟩ := callbackPrograms_taken scanned
  let entry (g : Section × Symbol) := (callbackKey g, callbackBody g)
  constructor
  · intro covered
    constructor
    · have here := covered id _ (fun _ => .refl _) (tables id)
      rcases Dict.mem_of_lookup_update here with member | none'
      · obtain ⟨g, listed, same⟩ := mem_map.mp member
        exact ⟨g, (found g).mp listed, congrArg Prod.fst same, congrArg Prod.snd same⟩
      · cases none'
    · intro g loaded key
      -- an order that comes to g last
      let last (l : List (Section × Symbol)) := if g ∈ l then l.erase g ++ [g] else l
      have order : IsOrder last := by
        intro l
        dsimp only [last]
        split
        · rename_i member
          exact perm_append_comm.trans (perm_cons_erase member).symm
        · exact .refl _
      have here := covered last _ order (tables last)
      simp only [last, if_pos ((found g).mpr loaded), map_append, map_cons, map_nil,
        ← key, Dict.lookup_update_last, Option.some.injEq] at here
      exact here
  · rintro ⟨⟨g, loaded, key, body⟩, alone⟩ order t perm built
    obtain rfl := Except.ok.inj ((tables order).symm.trans built)
    have mem (h : Section × Symbol) : h ∈ order taken ↔ Taken elf h :=
      (perm taken).mem_iff.trans (found h)
    have present : callbackKey f ∈ Dict.keys (Dict.update [] ((order taken).map entry)) := by
      rw [Dict.mem_keys_update]
      exact .inr (mem_map.mpr ⟨entry g, mem_map_of_mem ((mem g).mpr loaded), key⟩)
    obtain ⟨value, here⟩ := Option.isSome_iff_exists.mp (Dict.lookup_isSome.mpr present)
    rcases Dict.mem_of_lookup_update here with member | none'
    · obtain ⟨h, listed, same⟩ := mem_map.mp member
      have value' : callbackBody h = value := congrArg Prod.snd same
      rw [here, ← value', alone h ((mem h).mp listed) (congrArg Prod.fst same)]
    · cases none'

/-! What reaches r2. -/

/-- Sections know their index, code sections have names of their own, section symbols
stand at the start of their section and functions at instructions. -/
structure Elf.Laid (elf : Elf) : Prop where
  index : ∀ (k : Nat) (sec : Section), elf.sections[k]? = some sec → sec.idx = k
  unique : ∀ a ∈ elf.sections, ∀ b ∈ elf.sections, a.name = b.name → a.isExec = true → a = b
  sectionSymbols : ∀ k off rel, elf.relocs k off = some rel → rel.sym.type = sttSection →
    rel.sym.value = 0
  functions : ∀ k off rel, elf.relocs k off = some rel → rel.sym.type = sttFunc → 8 ∣ rel.sym.value

/-- The function a value points to, as the executor names it. -/
def calleeOf (elf : Elf) : Val → Option (Section × Symbol)
  | .ptr ⟨.func secname idx, _⟩ =>
    (elf.sectionByName secname).bind fun sec =>
      (elf.namedSymbolAt sec.idx (idx * 8)).map fun sym => (sec, sym)
  | _ => none

theorem namedSymbolAt_spec {shndx : Nat} {offset : Int} {sym : Symbol}
    (h : elf.namedSymbolAt shndx offset = some sym) :
    sym.shndx = shndx ∧ sym.name ≠ "" ∧ (sym.value : Int) ≤ offset := by
  let Fits (b : Symbol) := b.shndx = shndx ∧ b.name ≠ "" ∧ (b.value : Int) ≤ offset
  suffices all : ∀ b ∈ elf.namedSymbolAt shndx offset, Fits b from all sym h
  refine List.foldlRecOn (motive := fun best => ∀ b ∈ best, Fits b) elf.symbols _ nofun ?_
  intro best before c _
  split
  · exact before
  rename_i named
  push Not at named
  split
  · rename_i inside
    have here : ∀ b ∈ some c, Fits b := by
      rintro b ⟨⟩
      exact ⟨named.1, named.2.1, inside.1⟩
    split
    · exact here
    · split
      · exact here
      · exact before
  · exact before

theorem symbolPtr_func {sym : Symbol} {addend : Nat} {secname : String}
    {idx : Int} {off : Term (.bv 64)}
    (h : Returns (symbolPtr cfg sym addend) s (.ptr ⟨.func secname idx, off⟩) s') :
    ∃ target, cfg.elf.sections[sym.shndx]? = some target ∧ target.isExec = true ∧
      (sym.type = sttFunc ∨ sym.type = sttSection) ∧ secname = target.name ∧
      idx = ((sym.value + addend) / 8 : Nat) := by
  unfold symbolPtr at h
  split at h
  · exact h.throw
  rename_i target found
  split at h
  · cases h.pure.1
  split at h
  · rename_i exec
    split at h
    · rename_i kind
      cases h.pure.1
      exact ⟨target, found, exec, kind, rfl, rfl⟩
    · exact h.throw
  · split at h
    · exact h.throw
    · split at h
      all_goals cases h.pure.1

/-- A function pointer comes from a relocation against a code section. -/
theorem resolveLd64_func {ins : Insn} {secname : String} {idx : Int}
    {off : Term (.bv 64)}
    (h : Returns (resolveLd64 cfg ins) s (.ptr ⟨.func secname idx, off⟩) s') :
    ∃ rel target, ins.reloc = some rel ∧ rel.sym.shndx ≠ 0 ∧
      cfg.elf.sections[rel.sym.shndx]? = some target ∧ target.isExec = true ∧
        secname = target.name ∧
      (rel.sym.type = sttSection ∧ idx = (ins.imm64 / 8 : Nat) ∨
        rel.sym.type = sttFunc ∧ idx = ((rel.sym.value + ins.imm64) / 8 : Nat)) := by
  unfold resolveLd64 at h
  split at h
  · cases h.pure.1
  rename_i rel relocated
  dsimp only at h
  split at h
  · split at h
    · unfold kconfigPtr at h
      split at h
      · exact h.throw
      split at h
      · exact h.throw
      · obtain ⟨_, _, _, h⟩ := h.bind
        cases h.pure.1
    · cases h.pure.1
  · rename_i defined
    split at h
    · rename_i anonymous
      split at h
      · exact h.throw
      rename_i sec found
      split at h
      · rename_i named best
        obtain ⟨same, _, below⟩ := namedSymbolAt_spec best
        obtain ⟨target, there, exec, _, name, number⟩ := symbolPtr_func h
        rw [same] at there
        refine ⟨rel, target, relocated, defined, there, exec, name, .inl ⟨anonymous, ?_⟩⟩
        rw [number, Nat.add_sub_cancel' (by omega)]
      · unfold sectionPtr at h
        split at h
        · cases h.pure.1
        · exact h.throw
    · rename_i named
      obtain ⟨target, there, exec, kind, name, number⟩ := symbolPtr_func h
      exact ⟨rel, target, relocated, defined, there, exec, name,
        .inr ⟨kind.resolve_right named, number⟩⟩

/-- A slot that loads a function into r2 is recognised. -/
theorem callbackAt_of_resolve (laid : cfg.elf.Laid) {sec : Section} {j : Nat}
    {hi : BitVec 32} {ld : Insn}
    (slot : ld = slotInsn (cfg.elf.relocs sec.idx (8 * j)) sec.data j hi)
    (op : ld.op = 0x18) (dst : ld.dst = 2) (small : ld.imm = ld.imm64) (aligned : 8 ∣ ld.imm64)
    {v : Val} (resolved : Returns (resolveLd64 cfg ld) s v s')
    (callee : calleeOf cfg.elf v = some f) : callbackAt cfg.elf sec j = .ok (some f) := by
  unfold calleeOf at callee
  split at callee
  · rename_i secname idx off
    obtain ⟨named', byName, callee⟩ := Option.bind_eq_some_iff.mp callee
    obtain ⟨sym, named, rfl⟩ := Option.map_eq_some_iff.mp callee
    obtain ⟨rel, target, relocated, defined, there, exec, rfl, place⟩ := resolveLd64_func resolved
    have isTarget : named' = target := by
      have there' := mem_of_getElem? there
      have name : named'.name = target.name := by simpa using List.find?_some byName
      exact (laid.unique target there' named' (mem_of_find?_eq_some byName) name.symm exec).symm
    subst isTarget
    rw [laid.index _ _ there] at named
    have reloc : cfg.elf.relocs sec.idx (8 * j) = some rel := by
      rw [slot] at relocated
      exact relocated
    have address : (rel.sym.value : Int) + slotImm sec.data j = idx * 8 := by
      have imm : slotImm sec.data j = ld.imm64 := by
        rw [← small, slot]
        rfl
      rcases place with ⟨kind, rfl⟩ | ⟨kind, rfl⟩
      · have zero := laid.sectionSymbols _ _ _ reloc kind
        omega
      · have value := laid.functions _ _ _ reloc kind
        omega
    have byte : slotByte sec.data j 0 = 0x18 := by
      rw [slot] at op
      exact BitVec.eq_of_toNat_eq op
    have nibble : (slotByte sec.data j 1).toNat % 16 = 2 := by
      rw [slot] at dst
      exact dst
    have plain := (namedSymbolAt_spec named).2.1
    simp only [callbackAt, byte, nibble, reloc, defined, Elf.sectionAt, there, exec, address, named,
      bind, Except.bind, pure, Except.pure]
    simp [plain]
  · cases callee

/-- The value is what a ld_imm64 into r2 at most six slots in front of a call loads; the
addend is small and aligned. -/
def LoadedNear (cfg : Config) (v : Val) : Prop :=
  ∃ sec ∈ cfg.elf.execSections, ∃ insns i call j ld, decode cfg.elf sec = .ok insns ∧
    insns[i]? = some (some call) ∧ call.op = 0x85 ∧ call.imm = hTimerSetCallback ∧
    insns[j]? = some (some ld) ∧ ld.op = 0x18 ∧ ld.dst = 2 ∧ ld.imm = ld.imm64 ∧ 8 ∣ ld.imm64 ∧
    j < i ∧ i ≤ j + 6 ∧ ∃ s s', Returns (resolveLd64 cfg ld) s v s'

/-- The table gives the function's body for its key, in whatever order callbacks are added. -/
def CallbackCovered (elf : Elf) (f : Section × Symbol) : Prop :=
  ∀ order t, IsOrder order → callbackPrograms order elf = .ok t →
    t.lookup (callbackKey f) = some (callbackBody f)

theorem LoadedNear.taken (laid : cfg.elf.Laid) {v : Val} (near : LoadedNear cfg v)
    (callee : calleeOf cfg.elf v = some f) : Taken cfg.elf f := by
  obtain ⟨sec, exec, insns, i, call, j, ld, decoded, atCall, opCall, imm, atLoad, op, dst, small,
    aligned,
    before, within, s, s', resolved⟩ := near
  obtain ⟨inside, _, callSlot⟩ := decode_slot decoded atCall
  obtain ⟨_, hi, slot⟩ := decode_slot decoded atLoad
  have timer : isTimerCall sec.data i = true := by
    have byte : slotByte sec.data i 0 = 0x85 := by
      rw [callSlot] at opCall
      exact BitVec.eq_of_toNat_eq opCall
    have helper : slotImm sec.data i = hTimerSetCallback := by
      rw [callSlot] at imm
      exact imm
    simp [isTimerCall, byte, helper]
  exact ⟨sec, exec, i, inside, timer, j, before, within,
    callbackAt_of_resolve laid slot op dst small aligned resolved callee⟩

/-- The function that a value in r2 points to is compared exactly when the scan finds it and
gives its key to no other body; the scan finds what is loaded near a call. -/
theorem timer_callback_covered {cfg : Config} {t₀ : ProgTable} (laid : cfg.elf.Laid)
    (scanned : callbackPrograms id cfg.elf = .ok t₀) {v : Val}
    (callee : calleeOf cfg.elf v = some f) :
    (CallbackCovered cfg.elf f ↔
      (∃ g, Taken cfg.elf g ∧ callbackKey g = callbackKey f ∧ callbackBody g = callbackBody f) ∧
        ∀ g, Taken cfg.elf g → callbackKey g = callbackKey f → callbackBody g = callbackBody f) ∧
    (LoadedNear cfg v →
      (∀ g, Taken cfg.elf g → callbackKey g = callbackKey f → callbackBody g = callbackBody f) →
      CallbackCovered cfg.elf f) := by
  have iff := @lookup_callback_iff cfg.elf f t₀ scanned
  refine ⟨iff, fun near alone => iff.mpr ⟨⟨f, near.taken laid callee, rfl, rfl⟩, alone⟩⟩

/-! Objects with callbacks. -/

/-- A program in section tc and callbacks in section .text, each of the one instruction. -/
def callbackObject (ws : List Word) (loads : List (Nat × String)) (callbacks : List String)
    (body : Word) : Elf :=
  let symbols := callbacks.mapIdx fun k name => symbolAt name sttFunc 2 (8 * k)
  { object "tc" ws (loads.filterMap fun l =>
    (symbols.find? (·.name = l.2)).map fun sym => (l.1, sym))
      [] none with
    sections := [⟨0, "", 0, 0, 0, []⟩, codeSection "tc" ws,
      { codeSection ".text" (callbacks.map fun _ => body) with idx := 2 }]
    symbols := symbolAt "prog" sttFunc 1 0 :: symbols }

def callbackConfig (ws : List Word) (loads : List (Nat × String)) (callbacks : List String) :
    Config :=
  executor plainTables (fun _ => none)
    (objectSide (callbackObject ws loads callbacks (word 0x95 0 0 0 0)) "tc" ws) "A"

/-- The item after some instructions of a path that does not fork. -/
def walk (cfg : Config) : Nat → Item → Exec → Option Item
  | 0, it, _ => some it
  | n + 1, it, exec =>
    match step cfg it exec with
    | .ok (⟨some next, _, _⟩, exec') => walk cfg n next exec'
    | _ => none

/-- Program point and callee of r2 after some instructions. -/
def r2After (cfg : Config) (n : Nat) : Option (Int × String) := do
  let it ← walk (withEntry cfg 0) n (initItem cfg 0 false) baseExec
  let f ← calleeOf cfg.elf (it.regs 2)
  pure (it.pc, f.2.name)

def registerCode (between : List Word) : List Word :=
  [word 0x18 2 0 0 0, word 0 0 0 0 0] ++ between ++ [word 0x85 0 0 0 170, word 0x95 0 0 0 0]

def nearConfig : Config := callbackConfig (registerCode []) [(0, "cb")] ["cb"]

def nearCallback : Section × Symbol :=
  ({ codeSection ".text" [word 0x95 0 0 0 0] with idx := 2 }, symbolAt "cb" sttFunc 2 0)

theorem nearConfig_laid : nearConfig.elf.Laid := by
  have relocs (k off : Nat) (rel : Reloc) (h : nearConfig.elf.relocs k off = some rel) :
      rel.sym = symbolAt "cb" sttFunc 2 0 := by
    have loads : nearConfig.elf.relocs k off = if k = 1 then
        ([(0, symbolAt "cb" sttFunc 2 0)].lookup (off / 8)).map Reloc.mk else none := rfl
    rw [loads] at h
    split at h
    · obtain ⟨sym, found, rfl⟩ := Option.map_eq_some_iff.mp h
      rw [lookup_cons] at found
      split at found
      · exact (Option.some.inj found).symm
      · cases found
    · cases h
  refine ⟨fun k sec found => ?_, by decide +kernel, fun k off rel h kind => ?_,
    fun k off rel h _ => ?_⟩
  · rcases k with _ | _ | _ | k
    · cases found
      rfl
    · cases found
      rfl
    · cases found
      rfl
    · cases found
  · rw [relocs k off rel h] at kind
    cases kind
  · rw [relocs k off rel h]
    decide

theorem timer_callback_covered_near : CallbackCovered nearConfig.elf nearCallback := by
  have scanned : callbackPrograms id nearConfig.elf =
      .ok [(callbackKey nearCallback, callbackBody nearCallback)] := by rfl
  have callee : calleeOf nearConfig.elf (.ptr ⟨.func ".text" 0, bv64 0⟩) = some nearCallback := rfl
  refine (timer_callback_covered nearConfig_laid scanned callee).2 ?_ ?_
  · refine ⟨codeSection "tc" (registerCode []), by decide +kernel, _, 2, _, 0, _, rfl, rfl, rfl,
      rfl, rfl,
      rfl, rfl, rfl, by decide, by decide, by decide, ⟨.empty, .zero, baseExec⟩, _, rfl⟩
  rintro g ⟨sec, exec, loaded⟩ _
  have code : nearConfig.elf.execSections =
      [codeSection "tc" (registerCode []), nearCallback.1] := rfl
  rw [code, mem_pair] at exec
  rcases exec with rfl | rfl
  · have found : takenIn nearConfig.elf (codeSection "tc" (registerCode [])) =
        .ok [nearCallback] := rfl
    rw [mem_singleton.mp ((mem_takenIn found).mpr loaded)]
  · have found : takenIn nearConfig.elf nearCallback.1 = .ok [] := rfl
    exact absurd ((mem_takenIn found).mpr loaded) not_mem_nil

/-- Six instructions between the load and the call. -/
def farCode : List Word := registerCode (List.replicate 6 (word 0xb7 3 0 0 0))

/-- The callback of the C object returns, that of the other object never does. -/
def farInputs : Inputs where
  prog := "timer"
  sec := none
  elfC := callbackObject farCode [(0, "cb")] ["cb"] (word 0x95 0 0 0 0)
  elfR := callbackObject farCode [(0, "cb")] ["cb"] (word 0x05 0 0 (-1) 0)
  notes := []
  waivers _ := none
  order := id

/-- The address of a callback reaches r2 over a distance of more than six slots or through
another register, and the scan does not find it, so that objects with different callbacks
are accepted; of two callbacks whose names differ in a qualifier only, one is dropped. -/
theorem timer_callback_missed :
    (let far := callbackConfig farCode [(0, "cb")] ["cb"]
     r2After far 7 = some (8, "cb") ∧ (callbackPrograms id far.elf).toOption = some []) ∧
    driver farInputs (checkPair plainTables 200) startSession =
      some ⟨["  EQUIV    tc:prog  [paths C=1 rust=1]",
        "timer: 1/1 program(s) proved equivalent"], [],
        [(("tc", "prog"), .verdict .equiv "paths C=1 rust=1")], 0⟩ ∧
    (let moved := callbackConfig ([word 0x18 6 0 0 0, word 0 0 0 0 0, word 0xbf 2 6 0 0,
        word 0x85 0 0 0 170, word 0x95 0 0 0 0]) [(0, "cb")] ["cb"]
     r2After moved 2 = some (3, "cb") ∧ (callbackPrograms id moved.elf).toOption = some []) ∧
    (let two := callbackConfig (registerCode [] ++ registerCode []) [(0, "f.cb"), (4, "g.cb")]
        ["f.cb", "g.cb"]
     (callbackPrograms id two.elf).toOption.map (·.map fun e => (e.1, e.2.2)) =
       some [((".text", "cb"), 1)]) := by
  decide +kernel

end BpfEquiv
