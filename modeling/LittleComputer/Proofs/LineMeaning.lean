import LittleComputer.Proofs.AssemblyLine
import LittleComputer.Proofs.InstructionSet
import LittleComputer.Proofs.ServiceCall
import LittleComputer.Proofs.StopCodes

/-!
# What a line of assembler text means

A line is given a meaning by what is printed on it and nothing else: its addresses are used as they
stand, its numbers are integers, and of the registers only those that it names are read and written.
The processor knows nothing of lines. Still, the line that an instruction is disassembled to means
just what executing the instruction does. A trap is printed by name exactly if it calls a service.
-/

namespace LittleComputer

open InstructionSet (Accesses Effect Executed bits entered keepAt meaningOf resultOf wrap)

/-! ## Meanings -/

/-- The letter by which a branch asks for a condition. -/
def Condition.letter : Condition → Byte
  | negative => 0x4E | zero => 0x5A | positive => 0x50

/-- The value of a second operand as an integer. -/
def Argument.amount? (c : Cpu) : Argument → Option Int
  | register r => some (c.register r).toNat
  | number value => some value.toInt
  | _ => none

/-- What a line means while the processor is in the state `c`, with the program counter behind the
instruction. There is no meaning for the services and for lines that are never printed. -/
def Line.meaning (c : Cpu) : Line → Option Accesses
  | ⟨.branch _, []⟩ => some (.none { pc := c.pc })
  | ⟨.branch conditions, [.address a]⟩ =>
    some (.none { pc :=
      if c.condition.letter ∈ Instruction.conditionsText conditions then a else c.pc })
  | ⟨.opcode .add, [.register d, .register r, x]⟩ =>
    (x.amount? c).map fun n => .none (resultOf c d (wrap ((c.register r).toNat + n)))
  | ⟨.opcode .and, [.register d, .register r, x]⟩ =>
    (x.amount? c).map fun n => .none (resultOf c d (c.register r &&& wrap n))
  | ⟨.opcode .not, [.register d, .register r]⟩ => some (.none (resultOf c d (~~~c.register r)))
  | ⟨.opcode .ld, [.register d, .address a]⟩ => some (.read a fun v => .none (resultOf c d v))
  | ⟨.opcode .ldi, [.register d, .address a]⟩ =>
    some (.read a fun b => .read b fun v => .none (resultOf c d v))
  | ⟨.opcode .ldr, [.register d, .register b, .number n]⟩ =>
    some (.read (wrap ((c.register b).toNat + n.toInt)) fun v => .none (resultOf c d v))
  | ⟨.opcode .lea, [.register d, .address a]⟩ => some (.none (resultOf c d a))
  | ⟨.opcode .st, [.register r, .address a]⟩ => some (keepAt c r a)
  | ⟨.opcode .sti, [.register r, .address a]⟩ => some (.read a fun b => keepAt c r b)
  | ⟨.opcode .str, [.register r, .register b, .number n]⟩ =>
    some (keepAt c r (wrap ((c.register b).toNat + n.toInt)))
  | ⟨.opcode .jmp, [.register b]⟩ => some (.none { pc := c.register b })
  | ⟨.ret, []⟩ => some (.none { pc := c.register 7 })
  | ⟨.opcode .jsr, [.address a]⟩ => some (.none { pc := a, result := some (7, c.pc) })
  | ⟨.jsrr, [.register b]⟩ => some (.none { pc := c.register b, result := some (7, c.pc) })
  | ⟨.opcode .rti, []⟩ | ⟨.data, [.address _]⟩ => some (.none { pc := c.pc, illegal := true })
  | _ => none

/-! ## What a line reads -/

/-- The registers that are read for a line. Most lines begin with the register that they set. -/
def Line.operands (l : Line) : List Argument :=
  match l.heading with
  | .opcode .st | .opcode .sti | .opcode .str | .opcode .jmp | .jsrr => l.arguments
  | .ret => [.register 7]
  | _ => l.arguments.tail

theorem Argument.amount?_congr {c c' : Cpu} {x : Argument}
    (h : ∀ r, x = register r → c.register r = c'.register r) : x.amount? c = x.amount? c' := by
  cases x with
  | register r => rw [amount?, amount?, h r rfl]
  | number | address | vector => rfl

/-- Apart from the program counter and the condition, a line reads nothing but its operands. -/
theorem Line.meaning_congr {c c' : Cpu} {l : Line} (hpc : c.pc = c'.pc)
    (hcondition : c.condition = c'.condition)
    (hoperands : ∀ r, .register r ∈ l.operands → c.register r = c'.register r) :
    l.meaning c = l.meaning c' := by
  -- Only the second operand of a sum or a conjunction may or may not be a register.
  fun_cases Line.meaning c l with
  | case3 d r x | case4 d r x =>
    have hr : c.register r = c'.register r := hoperands r (by simp [operands])
    have hx : x.amount? c = x.amount? c' :=
      Argument.amount?_congr fun s hs => hoperands s (by simp [operands, hs])
    simp only [meaning, resultOf, hpc, hr, hx]
  | _ =>
    simp_all only [meaning, operands, resultOf, keepAt, List.mem_cons, List.tail_cons,
      Argument.register.injEq, forall_eq_or_imp, forall_eq, List.not_mem_nil, false_implies,
      implies_true, reduceCtorEq, or_false]

/-! ## Lines of instructions -/

/-- The letters behind `BR` name the conditions on which the branch is taken. -/
theorem letter_mem_conditionsText (conditions : BitVec 3) (condition : Condition) :
    condition.letter ∈ Instruction.conditionsText conditions ↔
      Word.meets conditions condition.bits = true := by
  revert conditions
  cases condition with
  | negative | zero | positive => decide

theorem wrap_toInt (v : Word) : wrap v.toInt = v := BitVec.ofInt_toInt

theorem wrap_toNat (v : Word) : wrap v.toNat = v := by
  rw [wrap, BitVec.ofInt_natCast, BitVec.ofNat_toNat, BitVec.setWidth_eq]

theorem amount?_ofOperand (c : Cpu) (o : Operand) :
    ∃ n, (Argument.ofOperand o).amount? c = some n ∧ wrap n = c.operand o := by
  cases o with
  | register r => exact ⟨(c.register r).toNat, rfl, wrap_toNat _⟩
  | immediate v => exact ⟨v.toInt, rfl, wrap_toInt v⟩

/-- The line of an instruction means what the instruction means. -/
theorem Line.meaning_line {i : Instruction} (hi : ∀ v, i ≠ .trap v) {address : Word} {c : Cpu}
    (hpc : c.pc = address + 1) : (i.line address).meaning c = some (meaningOf c i) := by
  -- An address is printed as it is counted from behind the instruction, and there the program
  -- counter is.
  cases i with
  | br conditions offset =>
    rw [Instruction.line]
    split
    · rename_i hnone
      have hmeets : Word.meets (0 : BitVec 3) c.condition.bits = false := by
        cases c.condition <;> rfl
      rw [meaning, meaningOf, hnone, hmeets]
      rfl
    · rw [meaning, meaningOf, hpc]
      simp only [letter_mem_conditionsText]
  | add d r o =>
    obtain ⟨n, hn, hwrap⟩ := amount?_ofOperand c o
    rw [Instruction.line, meaning, hn, Option.map_some, InstructionSet.wrap_toNat_add, hwrap]
    rfl
  | and d r o =>
    obtain ⟨n, hn, hwrap⟩ := amount?_ofOperand c o
    rw [Instruction.line, meaning, hn, Option.map_some, hwrap]
    rfl
  | trap v => exact absurd rfl (hi v)
  | jmp base =>
    rw [Instruction.line]
    split
    · rename_i hbase
      rw [hbase]
      rfl
    · rfl
  | ldr | str =>
    rw [Instruction.line, meaning, InstructionSet.wrap_toNat_add, wrap_toInt]
    rfl
  | ld | ldi | lea | st | sti | jsr =>
    rw [Instruction.line, meaning, meaningOf, hpc]
  | _ => rfl

/-! ## Lines of traps -/

/-- An instruction is printed by the name of a service exactly if it calls the service. -/
theorem Instruction.line_eq_service {i : Instruction} {address : Word} {s : Service} :
    i.line address = ⟨.service s, []⟩ ↔ i = .trap s.vector := by
  constructor
  · intro h
    cases i with
    | trap v =>
      rw [line] at h
      split at h
      · rename_i s' hs'
        cases h
        rw [Service.vector_of_ofVector? hs']
      · cases h
    | jmp base =>
      rw [line] at h
      split at h
      · cases h
      · cases h
    | _ => cases h
  · rintro rfl
    rw [line, Service.ofVector?_vector]

theorem Word.ofVector?_eq_none {w : Word} (hw : bits w 12 4 = 15) (hnone : ∀ s, ¬ w.Calls s) :
    Service.ofVector? (Field.vector w) = none := by
  have hdecode := InstructionSet.decode_eq_trap hw
  cases hs : Service.ofVector? (Field.vector w) with
  | none => rfl
  | some s =>
    rw [← Service.vector_of_ofVector? hs] at hdecode
    exact absurd (Word.calls_iff.mpr hdecode) (hnone s)

/-! ## Executing a word -/

namespace Machine

variable {κ : Type} [Console κ]

/-- Executing a word makes some accesses, and then has their effect. -/
def Does (m : Machine κ) (w : Word) (accesses : Accesses) : Prop :=
  match accesses.perform (entered m) with
  | .ok (e, m₁) => ∃ m', execute w m = .ok (m'.cpu.stop, m') ∧ Executed m w e m₁ m'
  | .error f => execute w m = .error f

theorem does_meaningOf {w : Word} (hw : bits w 12 4 ≠ 15) (m : Machine κ) :
    m.Does w (meaningOf m.cpu (Instruction.decode w)) := by
  have hrun := InstructionSet.perform_eq (InstructionSet.decode_ne_trap hw)
    (fun _ => InstructionSet.decode_reserved) (entered m)
  rw [show meaningOf (entered m).cpu (Instruction.decode w) =
    meaningOf m.cpu (Instruction.decode w) from rfl, InstructionSet.outcome] at hrun
  rw [Does, InstructionSet.execute_run, hrun]
  have hstart : InstructionSet.Accessed (entered m) none (entered m) :=
    ⟨rfl, rfl, rfl, fun _ => rfl⟩
  cases hp : (meaningOf m.cpu (Instruction.decode w)).perform (entered m) with
  | error f => rfl
  | ok x =>
    have hmade := Accesses.perform_accessed (InstructionSet.meaningOf_tells m.cpu _) hstart hp
    exact ⟨_, rfl, hmade.executed w⟩

/-- The machine after a trap that calls no service. -/
def unserved (m : Machine κ) (w : Word) : Machine κ :=
  { m with
    cpu := m.called.cpu.illegal
    host := if m.cpu.stopOnIllegal then
        m.host.reportFormatted .warning ("unknown trap vector 0x" ++
          Text.ofByte (Word.lowByte w) ++ " at " ++ Text.address (m.cpu.pc - 1))
      else m.host }

theorem execute_unserved {w : Word} (hw : bits w 12 4 = 15) (hnone : ∀ s, ¬ w.Calls s)
    (m : Machine κ) : execute w m = .ok ((m.unserved w).cpu.stop, m.unserved w) := by
  rw [InstructionSet.execute_run, InstructionSet.decode_eq_trap hw, Routine.perform_trap_run,
    Word.ofVector?_eq_none hw hnone]
  dsimp only
  rw [Routine.illegal_run]
  rfl

/-- No service counts as illegal. -/
theorem execute_service_legal {w : Word} {s : Service} (hw : w.Calls s) {m m' : Machine κ}
    {c : StopCode} (h : execute w m = .ok (c, m')) : c ≠ .illegalOpcode := by
  rw [execute_service hw] at h
  split at h
  · rename_i hs
    cases h
    intro hillegal
    have hcalled : m.called.cpu.stop ≠ .illegalOpcode := fun hc => by cases hc
    have hown := (Routine.serve_all s).own_of_stop hs hcalled hillegal (by decide)
    rcases Service.ownStop_mem hown with ⟨hc, -⟩ | ⟨hc, -⟩
    · cases hc
    · cases hc
  · cases h

/-- Executing the word `w` does what the line `l` says. -/
structure Follows (m : Machine κ) (w : Word) (l : Line) : Prop where
  /-- Whatever the other registers are, the line means what the processor does. -/
  instruction : bits w 12 4 ≠ 15 → ∃ accesses, m.Does w accesses ∧
    ∀ c : Cpu, c.pc = m.cpu.pc → c.condition = m.cpu.condition →
      (∀ r, .register r ∈ l.operands → c.register r = m.cpu.register r) →
      l.meaning c = some accesses
  named : ∀ s, l = ⟨.service s, []⟩ ↔ w.Calls s
  served : ∀ s, w.Calls s →
    execute w m =
      (match (Routine.serve s).run m.called with
      | .ok (_, m') => .ok (m'.cpu.stop, m')
      | .error e => .error e) ∧
    ∀ c m', execute w m = .ok (c, m') → c ≠ .illegalOpcode
  unserved : bits w 12 4 = 15 → (∀ s, ¬ w.Calls s) →
    l = ⟨.opcode .trap, [.vector (Word.lowByte w)]⟩ ∧
      execute w m = .ok ((m.unserved w).cpu.stop, m.unserved w)

/-- What is printed for a word can be read as a line, and the line tells what executing the word
does. -/
theorem execute_line {m : Machine κ} {w address : Word} (hpc : m.cpu.pc = address + 1) :
    ∃ l, Line.read? (disassemble w address) = some l ∧ m.Follows w l := by
  refine ⟨(Instruction.decode w).line address, ?_, ?_⟩
  · rw [disassemble, Instruction.text_line, Line.read?_text]
  · constructor
    · intro hw
      refine ⟨_, does_meaningOf hw m, fun c hc hcondition hoperands => ?_⟩
      rw [Line.meaning_congr hc hcondition hoperands]
      exact Line.meaning_line (InstructionSet.decode_ne_trap hw) hpc
    · exact fun s => Instruction.line_eq_service.trans Word.calls_iff.symm
    · exact fun s hs => ⟨execute_service hs m, fun c m' => execute_service_legal hs⟩
    · intro hw hnone
      refine ⟨?_, execute_unserved hw hnone m⟩
      rw [InstructionSet.decode_eq_trap hw, Instruction.line, Word.ofVector?_eq_none hw hnone]
      rfl

/-- `LD R2, 0x3000`, just in front of that address. -/
theorem execute_line_ld :
    (sample [0x1234] []).cpu.pc = 0x2FFF + 1 ∧
      Line.read? (disassemble 0x2400 0x2FFF) =
        some ⟨.opcode .ld, [.register 2, .address 0x3000]⟩ ∧
      ∃ m', execute 0x2400 (sample [0x1234] []) = .ok (m'.cpu.stop, m') ∧
        m'.cpu.register 2 = 0x1234 ∧ m'.cpu.condition = .positive := by
  have hpc : (sample [0x1234] []).cpu.pc = 0x2FFF + 1 := rfl
  have hread : Line.read? (disassemble 0x2400 0x2FFF) =
      some ⟨.opcode .ld, [.register 2, .address 0x3000]⟩ :=
    Line.read?_text ⟨.opcode .ld, [.register 2, .address 0x3000]⟩
  obtain ⟨l, hl, hfollows⟩ := execute_line (w := 0x2400) hpc
  obtain rfl := Option.some.inj (hl.symm.trans hread)
  obtain ⟨accesses, hdoes, hmeaning⟩ := hfollows.instruction (by decide)
  cases hmeaning (sample [0x1234] []).cpu rfl rfl fun _ _ => rfl
  obtain ⟨m', hrun, hx⟩ := hdoes
  exact ⟨hpc, hread, m', hrun, hx.registers 2, hx.condition⟩

end Machine

end LittleComputer
