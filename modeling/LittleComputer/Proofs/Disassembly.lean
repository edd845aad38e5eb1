import LittleComputer.Proofs.Alike
import LittleComputer.Proofs.AssemblyLine
import LittleComputer.Proofs.InstructionSet

/-!
# What disassembly shows

An instruction does only what its assembler text shows. So words with one text at one address behave
alike, except that the warning about a return from an interrupt quotes its word, of which the text
tells nothing.
-/

namespace LittleComputer

open InstructionSet (complaint entered execute_run)

namespace Instruction

/-- The parts of an instruction that its text does not show have no effect, unless it is a return
from an interrupt. -/
theorem perform_shown {i : Instruction} (hi : ∀ w, i ≠ .rti w) :
    Routine.perform i.shown = Routine.perform i := by
  cases i with
  | br conditions offset =>
    rw [shown]
    split
    · rename_i hc
      -- Neither of the two branches is ever taken.
      have hmeets : ∀ c : Condition, Word.meets (0 : BitVec 3) c.bits = false := by
        intro c
        cases c <;> rfl
      subst hc
      simp only [Routine.perform, hmeets, Bool.false_eq_true, if_false]
    · rfl
  | rti w => exact absurd rfl (hi w)
  | _ => rfl

theorem shown_eq_rti {i : Instruction} {w : Word} (h : i.shown = .rti w) : ∃ v, i = .rti v := by
  cases i with
  | rti v => exact ⟨v, rfl⟩
  | br conditions offset =>
    rw [shown] at h
    split at h
    · cases h
    · cases h
  | _ => cases h

end Instruction

/-- Words with one text have one effect, or both are returns from an interrupt. -/
theorem perform_of_disassemble {w₁ w₂ address : Word}
    (h : disassemble w₁ address = disassemble w₂ address) :
    Routine.perform (Instruction.decode w₁) = Routine.perform (Instruction.decode w₂) ∨
      (Instruction.decode w₁ = .rti w₁ ∧ Instruction.decode w₂ = .rti w₂) := by
  have hshown := Instruction.shown_eq_of_text h
  by_cases hrti : ∃ w, Instruction.decode w₁ = .rti w
  · obtain ⟨w, hw⟩ := hrti
    rw [hw] at hshown
    obtain ⟨v, hv⟩ := Instruction.shown_eq_rti hshown.symm
    obtain rfl := InstructionSet.decode_reserved (.inl hw)
    obtain rfl := InstructionSet.decode_reserved (.inl hv)
    exact .inr ⟨hw, hv⟩
  · have hne₁ : ∀ w, Instruction.decode w₁ ≠ .rti w := fun w hw => hrti ⟨w, hw⟩
    have hne₂ : ∀ w, Instruction.decode w₂ ≠ .rti w := by
      intro w hw
      rw [hw] at hshown
      exact hrti (Instruction.shown_eq_rti hshown)
    rw [← Instruction.perform_shown hne₁, ← Instruction.perform_shown hne₂, hshown]
    exact .inl rfl

namespace Machine

variable {κ : Type} [Console κ]

/-- Outcomes of executing two words on one machine that differ in nothing but the word that a
warning quotes. -/
structure SameButQuote (m : Machine κ) (w₁ w₂ : Word) (m₁ m₂ : Machine κ) : Prop where
  cpu : m₁.cpu = m₂.cpu
  memory : m₁.memory = m₂.memory
  map : m₁.map = m₂.map
  devices : m₁.devices = m₂.devices
  host : m₁.host = m₂.host ∨
    m₁.host = m.host.reportFormatted .warning (complaint w₁ (m.cpu.pc - 1)) ∧
      m₂.host = m.host.reportFormatted .warning (complaint w₂ (m.cpu.pc - 1))

/-- Apart from warnings, nothing on the console shows which of the words was executed. -/
theorem SameButQuote.console {m m₁ m₂ : Machine κ} {w₁ w₂ : Word} (h : m.SameButQuote w₁ w₂ m₁ m₂)
    {S : κ → κ → Prop} (hS : Equivalence S) (hhides : m.host.Hides .warning S) :
    S m₁.host.console m₂.host.console := by
  rcases h.host with hsame | ⟨h₁, h₂⟩
  · rw [hsame]
    exact hS.refl _
  · rw [h₁, h₂]
    exact hS.trans (hhides.report (hS.refl _) _) (hS.symm (hhides.report (hS.refl _) _))

/-- The machine after a word without a meaning was executed. -/
def refuse (m : Machine κ) (w : Word) : Machine κ :=
  { m with
    cpu := (entered m).cpu.illegal
    host := if m.cpu.stopOnIllegal then
        m.host.reportFormatted .warning (complaint w (m.cpu.pc - 1))
      else m.host }

theorem refuse_same (m : Machine κ) (w₁ w₂ : Word) :
    m.SameButQuote w₁ w₂ (m.refuse w₁) (m.refuse w₂) := by
  refine ⟨rfl, rfl, rfl, rfl, ?_⟩
  unfold refuse
  by_cases hstop : m.cpu.stopOnIllegal = true
  · exact .inr ⟨if_pos hstop, if_pos hstop⟩
  · exact .inl ((if_neg hstop).trans (if_neg hstop).symm)

theorem execute_rti {w : Word} (hw : Instruction.decode w = .rti w) (m : Machine κ) :
    execute w m = .ok ((m.refuse w).cpu.stop, m.refuse w) := by
  have hrun : (Routine.perform (.rti w)).run (entered m) = .ok ((), m.refuse w) := by
    rw [Routine.perform, Routine.run_bind, Routine.run_look]
    exact Routine.illegal_run _ _
  rw [execute_run, hw, hrun]

/-- Disassembly hides no difference: words with one text at one address come to the same end on
every machine, and at most a warning quotes the one or the other. -/
theorem execute_of_disassemble {w₁ w₂ address : Word}
    (h : disassemble w₁ address = disassemble w₂ address) (m : Machine κ) :
    Agree (fun x y => x.1 = y.1 ∧ m.SameButQuote w₁ w₂ x.2 y.2 ∧
      ∀ S : κ → κ → Prop, Equivalence S → m.host.Hides .warning S →
        S x.2.host.console y.2.host.console) (execute w₁ m) (execute w₂ m) := by
  rcases perform_of_disassemble h with hperform | ⟨h₁, h₂⟩
  · have hexecute : execute w₁ m = execute w₂ m := by
      rw [execute_run, execute_run, hperform]
    rw [hexecute]
    cases execute w₂ m with
    | error e => exact .error e
    | ok x => exact .ok ⟨rfl, ⟨rfl, rfl, rfl, rfl, .inl rfl⟩, fun S hS _ => hS.refl _⟩
  · have hsame := m.refuse_same w₁ w₂
    rw [execute_rti h₁, execute_rti h₂]
    exact .ok ⟨congrArg Cpu.stop hsame.cpu, hsame, fun S hS hhides => hsame.console hS hhides⟩

/-- Two of the words that read `RTI`. -/
theorem execute_of_disassemble_rti :
    disassemble 0x8000 0x3000 = disassemble 0x8FFF 0x3000 ∧
      ∃ m₁ m₂, execute 0x8000 (sample [] []) = .ok (.illegalOpcode, m₁) ∧
        execute 0x8FFF (sample [] []) = .ok (.illegalOpcode, m₂) ∧ m₁.cpu = m₂.cpu := by
  have htext : disassemble 0x8000 0x3000 = disassemble 0x8FFF 0x3000 := rfl
  have h := execute_of_disassemble htext (sample [] [])
  have h₁ := eq_ok_of_result (x := execute 0x8000 (sample [] [])) (a := .illegalOpcode)
    (sample [] []) (by decide +kernel)
  have h₂ := eq_ok_of_result (x := execute 0x8FFF (sample [] [])) (a := .illegalOpcode)
    (sample [] []) (by decide +kernel)
  rw [h₁, h₂] at h
  obtain ⟨e, hx, -⟩ | ⟨x, y, hx, hy, -, hsame, -⟩ := h.inv
  · cases hx
  · cases hx
    cases hy
    exact ⟨htext, _, _, h₁, h₂, hsame.cpu⟩

end Machine

end LittleComputer
