import LittleComputer.Proofs.Installation
import LittleComputer.Proofs.LineMeaning

/-!
# What a program can change in memory

A program changes no marks, and words only where there is ordinary memory without a device in front
of it. One instruction changes at most one word there: the one at its effective address, if it is a
store, and the one at the address of the display, if it calls a service that writes.
-/

namespace LittleComputer

open InstructionSet (bits nearby indexed registerAt entered meaning keep Accesses Effect)
open Terminal (displayData)

variable {κ : Type} [Console κ]

/-! ## Where instructions store -/

/-- The word is a store, and this is its effective address. An indirect store reads it first, and a
device may answer. -/
def Word.StoresAt (w : Word) (m : Machine κ) (a : Word) : Prop :=
  match bits w 12 4 with
  | 3 => a = nearby w m.cpu
  | 7 => a = indexed w m.cpu
  | 11 => ∃ m₁, Machine.load (nearby w m.cpu) (entered m) = .ok (a, m₁)
  | _ => False

namespace InstructionSet

/-- What a store instruction stores is the register it names. -/
theorem keep_inv {w : Word} {c : Cpu} {b : Word} {m m₁ : Machine κ} {e : Effect}
    (h : (keep w c b).perform m = .ok (e, m₁)) :
    e.stored = some (b, c.register (registerAt w 9)) := by
  rw [keep, Accesses.perform] at h
  split at h
  · cases h
    rfl
  · cases h

/-- Nothing is written. -/
def Accesses.Quiet : Accesses → Prop
  | none effect => effect.stored = Option.none
  | read _ next => ∀ v, (next v).Quiet
  | write _ _ _ => False

theorem Accesses.Quiet.perform {accesses : Accesses} (hq : accesses.Quiet) {m m₁ : Machine κ}
    {e : Effect} (h : accesses.perform m = .ok (e, m₁)) : e.stored = Option.none := by
  induction accesses generalizing m with
  | none effect =>
    cases h
    exact hq
  | read a next ih =>
    rw [Accesses.perform] at h
    split at h
    · exact ih _ (hq _) h
    · cases h
  | write => cases hq

theorem meaning_quiet {w : Word} {c : Cpu} (h3 : bits w 12 4 ≠ 3) (h7 : bits w 12 4 ≠ 7)
    (h11 : bits w 12 4 ≠ 11) : (meaning w c).Quiet := by
  unfold meaning
  dsimp only
  split
  all_goals first
    | contradiction
    | exact rfl
    | exact fun _ => rfl
    | exact fun _ _ => rfl

/-- What the meaning of a word stores, and where. -/
theorem meaning_stored {w : Word} {m m₁ : Machine κ} {e : Effect}
    (h : (meaning w m.cpu).perform (entered m) = .ok (e, m₁)) (a v : Word) :
    e.stored = some (a, v) ↔ w.StoresAt m a ∧ v = m.cpu.register (registerAt w 9) := by
  unfold Word.StoresAt
  split
  · rename_i hw
    simp only [meaning, hw] at h
    simp [keep_inv h, eq_comm]
  · rename_i hw
    simp only [meaning, hw] at h
    simp [keep_inv h, eq_comm]
  · rename_i hw
    simp only [meaning, hw, Accesses.perform] at h
    split at h
    · rename_i b m₂ hload
      simp [keep_inv h, hload, eq_comm]
    · cases h
  · rename_i h3 h7 h11
    simp [(meaning_quiet h3 h7 h11).perform h]

end InstructionSet

namespace Machine

variable {m m' : Machine κ}

/-! ## Frames -/

/-- Of the memory only words change, those only in ordinary memory, and the devices keep their
places. -/
structure Confined (m m' : Machine κ) : Prop where
  memory : m'.memory = { m.memory with words := m'.memory.words }
  map : m'.map = m.map
  blocks : m.KeepsBlocks m'
  words : ∀ a, m.isPlain a = false → m'.memory.words.get a = m.memory.words.get a

/-- Executing the word changes at most the word at its effective address and the one at the address
of the display. -/
structure Touches (w : Word) (m m' : Machine κ) : Prop extends Confined m m' where
  stored : ∀ a, w.StoresAt m a → m.isPlain a = true →
    m'.memory.words.get a = m.cpu.register (registerAt w 9)
  changed : ∀ a, m'.memory.words.get a ≠ m.memory.words.get a → m.isPlain a = true ∧
    (w.StoresAt m a ∧ m'.memory.words.get a = m.cpu.register (registerAt w 9) ∨
      (∃ s, w.Calls s ∧ s.Writes) ∧ a = displayData)

namespace Confined

variable {m₁ m₂ : Machine κ}

omit [Console κ] in
theorem of_memory (hmemory : m₁.memory = m.memory) (hmap : m₁.map = m.map)
    (hblocks : m.KeepsBlocks m₁) : m.Confined m₁ :=
  ⟨by rw [hmemory], hmap, hblocks, fun _ _ => by rw [hmemory]⟩

omit [Console κ] in
theorem refl (m : Machine κ) : m.Confined m := .of_memory rfl rfl (keepsBlocks_of_devices rfl)

omit [Console κ] in
theorem trans (h : m.Confined m₁) (h' : m₁.Confined m₂) : m.Confined m₂ where
  memory := by rw [h'.memory, h.memory]
  map := h'.map.trans h.map
  blocks := h.blocks.trans h'.blocks
  words := by
    intro a ha
    have ha₁ : m₁.isPlain a = false := by rwa [isPlain, h.memory]
    rw [h'.words a ha₁, h.words a ha]

/-- No routine moves a device or a mark. -/
theorem of_routine {α : Type} {r : Routine α} {x : α} (h : r.run m = .ok (x, m')) :
    m.Confined m' :=
  have ho := routine_onlyPlain h
  ⟨Routine.run_memory h, ho.map, ho.blocks, ho.words⟩

theorem of_executes {trail : List (Machine κ)} (h : Executes m trail m') : m.Confined m' := by
  induction h with
  | nil m => exact .refl m
  | cons _ hstep _ ih => exact (of_routine hstep).trans ih

/-- A run is a trail, so it is confined as well. -/
theorem of_run {limit : BitVec 32} {budget : Nat} {c : StopCode}
    (h : run limit budget m = .ok (c, m')) : m.Confined m' := by
  obtain ⟨trail, m₁, htrail, -, -, hend⟩ := run_trail h
  rw [hend.eq_stopWith]
  have hstopWith (x : Machine κ) (d : StopCode) : x.Confined (x.stopWith d) :=
    .of_memory rfl rfl (keepsBlocks_of_devices rfl)
  exact ((hstopWith m .running).trans (of_executes htrail)).trans (hstopWith m₁ c)

/-- Without requests only programs change the memory. -/
theorem of_happens (h : Happens (fun _ => False) m m') : m.Confined m' := by
  cases h with
  | request hr => cases hr
  | execute h => exact of_routine h
  | run h => exact of_run h
  | elsewhere hmemory hmap hblocks => exact .of_memory hmemory hmap hblocks

theorem of_leads (h : Leads (fun _ => False) m m') : m.Confined m' := by
  induction h with
  | refl => exact .refl m
  | tail _ hstep ih => exact ih.trans (of_happens hstep)

end Confined

/-! ## One instruction -/

open InstructionSet (outcome wordAfter)

/-- The words after an instruction that is no trap. -/
theorem execute_words {w : Word} {c : StopCode} (hw : bits w 12 4 ≠ 15)
    (h : execute w m = .ok (c, m')) :
    ∃ e m₁, (meaning w m.cpu).perform (entered m) = .ok (e, m₁) ∧
      ∀ a, m'.memory.words.get a = wordAfter m e.stored a := by
  have hmeaning : meaning w m.cpu =
      InstructionSet.meaningOf (entered m).cpu (Instruction.decode w) :=
    InstructionSet.meaning_eq w m.cpu
  have hrun := InstructionSet.perform_eq (InstructionSet.decode_ne_trap hw)
    (fun _ => InstructionSet.decode_reserved) (entered m)
  rw [← hmeaning, outcome] at hrun
  rw [InstructionSet.execute_run, hrun] at h
  have ht : (meaning w m.cpu).Tells none := by
    rw [hmeaning]
    exact InstructionSet.meaningOf_tells _ _
  cases hp : (meaning w m.cpu).perform (entered m) with
  | error f =>
    rw [hp] at h
    cases h
  | ok x =>
    rw [hp] at h
    cases h
    have ha := Accesses.perform_accessed ht ⟨rfl, rfl, rfl, fun _ => rfl⟩ hp
    exact ⟨x.1, x.2, rfl, ha.words⟩

/-- A trap changes a word only if it calls a service that writes to the display. -/
theorem execute_trap_words {w : Word} {c : StopCode} (hw : bits w 12 4 = 15)
    (h : execute w m = .ok (c, m')) (a : Word)
    (ha : ¬ ((∃ s, w.Calls s ∧ s.Writes) ∧ a = displayData)) :
    m'.memory.words.get a = m.memory.words.get a := by
  have hdecode := InstructionSet.decode_eq_trap hw
  have hall : (Routine.perform (.trap (Field.vector w))).All
      (Operation.StoresIn fun b => (∃ s, w.Calls s ∧ s.Writes) ∧ b = displayData) := by
    refine Routine.trap_storesIn _ fun s hs hwrites => ⟨⟨s, ?_, hwrites⟩, rfl⟩
    rw [Word.calls_iff, hdecode, Service.vector_of_ofVector? hs]
  rw [InstructionSet.execute_run, hdecode] at h
  split at h
  · rename_i m₁ hp
    cases h
    exact hall.words hp a ha
  · cases h

/-- One executed word touches at most the address it stores to, as `Touches` says. -/
theorem execute_touches {w : Word} {c : StopCode} (h : execute w m = .ok (c, m')) :
    Touches w m m' := by
  have hconfined : m.Confined m' := .of_routine h
  have hplain (a : Word) (ha : m'.memory.words.get a ≠ m.memory.words.get a) :
      m.isPlain a = true := by
    cases hp : m.isPlain a with
    | true => rfl
    | false => exact absurd (hconfined.words a hp) ha
  by_cases hw : bits w 12 4 = 15
  · refine ⟨hconfined, ?_, fun a ha => ⟨hplain a ha, .inr ?_⟩⟩
    · intro a ha
      simp [Word.StoresAt, hw] at ha
    · by_contra hno
      exact ha (execute_trap_words hw h a hno)
  · obtain ⟨e, m₁, hp, hwords⟩ := execute_words hw h
    have hstored := InstructionSet.meaning_stored hp
    refine ⟨hconfined, ?_, fun a ha => ⟨hplain a ha, .inl ?_⟩⟩
    · intro a hstores ha
      rw [hwords a, (hstored a _).mpr ⟨hstores, rfl⟩]
      simp [wordAfter, ha]
    · -- The word changed, so the one that was written was written here.
      rw [hwords a] at ha ⊢
      unfold wordAfter at ha ⊢
      split at ha
      · rename_i b v hb
        split at ha
        · rename_i hba
          obtain ⟨rfl, hplain⟩ := hba
          obtain ⟨hstores, rfl⟩ := (hstored b v).mp hb
          exact ⟨hstores, by simp [hplain]⟩
        · exact absurd rfl ha
      · exact absurd rfl ha

/-- What a program can change in memory: no mark, no place of a device, and a word only in ordinary
memory, where a store puts its register and a service that writes puts its characters. -/
theorem program_confined :
    (∀ (m m' : Machine κ) (w : Word) (c : StopCode), execute w m = .ok (c, m') →
      Touches w m m') ∧
    (∀ m m' : Machine κ, Leads (fun _ => False) m m' → m.Confined m') :=
  ⟨fun _ _ _ _ => execute_touches, fun _ _ => .of_leads⟩

/-- `ST R0, #0` replaces what is at the program counter, which is executed then. The words under the
terminal stay. -/
theorem program_confined_store :
    ∃ m₁ m₂ : Machine Script,
      execute 0x3000 { sample [] [] with cpu := Cpu.initial.setRegister 0 0xBEEF } =
        .ok (.running, m₁) ∧
      m₁.memory.words.get 0x3000 = 0xBEEF ∧ run 1 0 m₁ = .ok (.finished, m₂) ∧
      m₂.memory.words.get 0xFE06 = m₁.memory.words.get 0xFE06 := by
  let m : Machine Script := { sample [] [] with cpu := Cpu.initial.setRegister 0 0xBEEF }
  have hexecute := eq_ok_of_result (x := execute 0x3000 m) (a := .running) m (by decide +kernel)
  let m₁ := after (execute 0x3000 m) m
  have hrun := eq_ok_of_result (x := run 1 0 m₁) (a := .finished) m₁ (by decide +kernel)
  obtain ⟨hone, hmany⟩ := program_confined (κ := Script)
  have htouches := hone m m₁ 0x3000 .running hexecute
  have hstores : Word.StoresAt 0x3000 m 0x3000 :=
    show (0x3000 : Word) = nearby 0x3000 m.cpu by decide +kernel
  have hconfined := hmany m₁ _ (.single (.run hrun))
  exact ⟨m₁, _, hexecute, htouches.stored _ hstores (by decide +kernel), hrun,
    hconfined.words _ (by decide +kernel)⟩

end Machine

end LittleComputer
