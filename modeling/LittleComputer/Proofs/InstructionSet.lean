import Mathlib
import LittleComputer.Proofs.Instruction
import LittleComputer.Proofs.Sample

/-!
# The instruction set

What every instruction means, in terms of the bits of its word and of integers, and the proof that
executing the word does just that. The meaning of an instruction consists of its accesses to memory
and of an effect that may depend on the words read. Integers count modulo 2 ^ 16.

A service that a trap calls is a program of its own. Here is only said what every trap leaves alone.
-/

namespace LittleComputer

namespace InstructionSet

/-! ## Fields of a word -/

/-- The number in `count` bits of a word, from bit `low` on. -/
def bits (w : Word) (low count : Nat) : Nat := w.toNat / 2 ^ low % 2 ^ count

/-- The two's complement number in the last `k` bits of a word. -/
def signed (k : Nat) (w : Word) : Int :=
  if bits w 0 k < 2 ^ (k - 1) then bits w 0 k else bits w 0 k - (2 ^ k : Nat)

def registerAt (w : Word) (low : Nat) : RegisterNumber := BitVec.ofNat 3 (bits w low 3)

def wrap (x : Int) : Word := BitVec.ofInt 16 x

def sign (x : Int) : Condition :=
  if x < 0 then .negative else if x = 0 then .zero else .positive

/-! ## Meanings -/

/-- What an instruction comes to once its accesses are made. -/
structure Effect where
  pc : Word
  result : Option (RegisterNumber × Word) := none
  /-- The condition, if the instruction sets it. -/
  condition : Option Condition := none
  /-- The address that was written and the word written there. -/
  stored : Option (Word × Word) := none
  illegal : Bool := false

/-- Accesses to memory, in their order, and what they come to. -/
inductive Accesses where
  | none (effect : Effect)
  | read (address : Word) (next : Word → Accesses)
  | write (address word : Word) (next : Accesses)

def Accesses.perform {κ : Type} [Console κ] :
    Accesses → Machine κ → Except Fault (Effect × Machine κ)
  | none effect, m => .ok (effect, m)
  | read a next, m =>
    match Machine.load a m with
    | .ok (w, m) => (next w).perform m
    | .error e => .error e
  | write a w next, m =>
    match Machine.store a w m with
    | .ok (_, m) => next.perform m
    | .error e => .error e

section
variable (w : Word) (c : Cpu)

/-- Nothing but a word and its sign. -/
def result (v : Word) : Effect :=
  { pc := c.pc, result := some (registerAt w 9, v), condition := some (sign v.toInt) }

/-- The contents of the register in bits 9 to 11 go to an address. -/
def keep (a : Word) : Accesses :=
  let v := c.register (registerAt w 9)
  .write a v (.none { pc := c.pc, stored := some (a, v) })

/-- The address that bits 0 to 8 give relative to the program counter. -/
def nearby : Word := wrap (c.pc.toNat + signed 9 w)

/-- The address that bits 0 to 5 give relative to the register in bits 6 to 8. -/
def indexed : Word := wrap ((c.register (registerAt w 6)).toNat + signed 6 w)

/-- The second operand: bits 0 to 4 as a number if bit 5 is set, and otherwise a register. -/
def second : Word :=
  if bits w 5 1 = 1 then wrap (signed 5 w) else c.register (registerAt w 0)

/-- Where a call goes: to an offset if bit 11 is set, and otherwise to the address in a register. -/
def target : Word :=
  if bits w 11 1 = 1 then wrap (c.pc.toNat + signed 11 w) else c.register (registerAt w 6)

/-- Whether a branch is taken. Bits 9 to 11 name its conditions. -/
def branches : Bool :=
  match c.condition with
  | .negative => bits w 11 1 = 1
  | .zero => bits w 10 1 = 1
  | .positive => bits w 9 1 = 1

/-- The meaning of a word, unless it is a trap. The program counter is already behind it. -/
def meaning : Accesses :=
  let first := c.register (registerAt w 6)
  match bits w 12 4 with
  | 0 => .none { pc := if branches w c then nearby w c else c.pc }
  | 1 => .none (result w c (wrap (first.toInt + (second w c).toInt)))
  | 2 => .read (nearby w c) fun v => .none (result w c v)
  | 3 => keep w c (nearby w c)
  | 4 => .none { pc := target w c, result := some (7, c.pc) }
  | 5 => .none (result w c (first &&& second w c))
  | 6 => .read (indexed w c) fun v => .none (result w c v)
  | 7 => keep w c (indexed w c)
  | 9 => .none (result w c (wrap (-1 - first.toInt)))
  | 10 => .read (nearby w c) fun a => .read a fun v => .none (result w c v)
  | 11 => .read (nearby w c) fun a => keep w c a
  | 12 => .none { pc := first }
  | 14 => .none (result w c (nearby w c))
  | _ => .none { pc := c.pc, illegal := true }

end

/-! ## Bits and fields -/

theorem registerAt_eq (w : Word) (low : Nat) : registerAt w low = w.extractLsb' low 3 := by
  apply BitVec.eq_of_toNat_eq
  simp [registerAt, bits, Nat.shiftRight_eq_div_pow]

theorem bit_iff (w : Word) (i : Nat) : bits w i 1 = 1 ↔ w.getLsbD i = true := by
  rw [BitVec.getLsbD, Nat.testBit_eq_decide_div_mod_eq, bits]
  simp

/-- The number of the opcode that a word has is in its four most significant bits. -/
theorem opcode_eq (w : Word) : bits w 12 4 = (Opcode.ofBits (Field.opcode w)).bits.toNat := by
  rw [Opcode.bits_ofBits, Field.opcode, BitVec.extractLsb'_toNat, Nat.shiftRight_eq_div_pow]
  rfl

/-- The bits of an offset as a signed number are their balanced remainder. -/
theorem signed_eq_bmod {k : Nat} (hk : 0 < k) (w : Word) :
    signed k w = Int.bmod w.toNat (2 ^ k) := by
  obtain ⟨j, rfl⟩ : ∃ j, k = j + 1 := ⟨k - 1, by omega⟩
  have hhalf : (((2 ^ (j + 1) : Nat) : Int) + 1) / 2 = ((2 ^ j : Nat) : Int) := by
    rw [Nat.pow_succ]
    omega
  have hbits : bits w 0 (j + 1) = w.toNat % 2 ^ (j + 1) := by
    rw [bits, Nat.pow_zero, Nat.div_one]
  rw [signed, Int.bmod, hbits, hhalf, ← Int.natCast_emod, Nat.add_sub_cancel]
  split
  · rw [if_pos (by omega)]
  · rw [if_neg (by omega)]

/-- The number in a field lies in the range of its width. -/
theorem signed_range {k : Nat} (hk : 0 < k) (w : Word) :
    -((2 ^ (k - 1) : Nat) : Int) ≤ signed k w ∧ signed k w < (2 ^ (k - 1) : Nat) := by
  obtain ⟨j, rfl⟩ : ∃ j, k = j + 1 := ⟨k - 1, by omega⟩
  have hlt : bits w 0 (j + 1) < 2 ^ (j + 1) := Nat.mod_lt _ (Nat.two_pow_pos _)
  have hdouble : 2 ^ (j + 1) = 2 * 2 ^ j := by rw [Nat.pow_succ, Nat.mul_comm]
  rw [hdouble] at hlt
  rw [signed, Nat.add_sub_cancel, hdouble]
  split
  · omega
  · omega

/-- A signed field, as a word, is the field with its sign extended. -/
theorem wrap_signed {k : Nat} (hk : 0 < k) (w : Word) : wrap (signed k w) = Word.signed k w := by
  rw [wrap, signed_eq_bmod hk, Word.signed, BitVec.signExtend, BitVec.toInt_setWidth]

theorem wrap_toNat_add (a : Word) (x : Int) : wrap (a.toNat + x) = a + wrap x := by
  rw [wrap, BitVec.ofInt_add, BitVec.ofInt_natCast, BitVec.ofNat_toNat, BitVec.setWidth_eq, wrap]

theorem wrap_toInt_add (a b : Word) : wrap (a.toInt + b.toInt) = a + b := by
  rw [wrap, BitVec.ofInt_add, BitVec.ofInt_toInt, BitVec.ofInt_toInt]

theorem wrap_complement (a : Word) : wrap (-1 - a.toInt) = ~~~a := by
  have hwrap : wrap (-1 - a.toInt) = -a - 1 := by
    rw [wrap, Int.sub_eq_add_neg, Int.add_comm, BitVec.ofInt_add, BitVec.ofInt_neg,
      BitVec.ofInt_toInt, BitVec.sub_eq_add_neg]
    rfl
  rw [hwrap, BitVec.not_eq_neg_add]
  rfl

/-- The sign of a word as a number is the condition that the word sets. -/
theorem sign_eq (v : Word) : sign v.toInt = Condition.ofWord v := by
  have hzero : v.toInt = 0 ↔ v = 0 := by
    rw [← BitVec.toInt_inj]
    rfl
  rw [sign, Condition.ofWord, BitVec.msb_eq_toInt]
  by_cases h0 : v = 0
  · rw [if_pos h0, hzero.mpr h0]
    rfl
  · rw [if_neg h0, if_neg (fun h => h0 (hzero.mp h))]
    simp only [decide_eq_true_eq]

theorem nearby_eq (w : Word) (c : Cpu) : nearby w c = c.pc + Field.offset9 w := by
  rw [nearby, wrap_toNat_add, wrap_signed (by decide), Field.offset9]

theorem indexed_eq (w : Word) (c : Cpu) :
    indexed w c = c.register (Field.base w) + Field.offset6 w := by
  rw [indexed, wrap_toNat_add, wrap_signed (by decide), registerAt_eq, Field.base, Field.offset6]

/-- A branch asks for the condition with the bit that belongs to it. -/
theorem branches_eq (w : Word) (c : Cpu) :
    branches w c = Word.meets (Field.conditions w) c.condition.bits := by
  have hmeets : ∀ x : BitVec 3, Word.meets x Condition.positive.bits = x.getLsbD 0 ∧
      Word.meets x Condition.zero.bits = x.getLsbD 1 ∧
      Word.meets x Condition.negative.bits = x.getLsbD 2 := by decide
  obtain ⟨hp, hz, hn⟩ := hmeets (Field.conditions w)
  unfold branches
  cases c.condition with
  | positive => rw [hp, Field.conditions, BitVec.getLsbD_extractLsb']; simp [bit_iff]
  | zero => rw [hz, Field.conditions, BitVec.getLsbD_extractLsb']; simp [bit_iff]
  | negative => rw [hn, Field.conditions, BitVec.getLsbD_extractLsb']; simp [bit_iff]

/-! ## Decoded instructions -/

def resultOf (c : Cpu) (d : RegisterNumber) (v : Word) : Effect :=
  { pc := c.pc, result := some (d, v), condition := some (.ofWord v) }

def keepAt (c : Cpu) (r : RegisterNumber) (a : Word) : Accesses :=
  .write a (c.register r) (.none { pc := c.pc, stored := some (a, c.register r) })

/-- The meaning of an instruction that was decoded. Traps count as illegal here. -/
def meaningOf (c : Cpu) : Instruction → Accesses
  | .br conditions offset =>
    .none { pc := if Word.meets conditions c.condition.bits then c.pc + offset else c.pc }
  | .add d r o => .none (resultOf c d (c.register r + c.operand o))
  | .ld d offset => .read (c.pc + offset) fun v => .none (resultOf c d v)
  | .st r offset => keepAt c r (c.pc + offset)
  | .jsr offset => .none { pc := c.pc + offset, result := some (7, c.pc) }
  | .jsrr base => .none { pc := c.register base, result := some (7, c.pc) }
  | .and d r o => .none (resultOf c d (c.register r &&& c.operand o))
  | .ldr d base offset => .read (c.register base + offset) fun v => .none (resultOf c d v)
  | .str r base offset => keepAt c r (c.register base + offset)
  | .not d r => .none (resultOf c d (~~~c.register r))
  | .ldi d offset => .read (c.pc + offset) fun a => .read a fun v => .none (resultOf c d v)
  | .sti r offset => .read (c.pc + offset) fun a => keepAt c r a
  | .jmp base => .none { pc := c.register base }
  | .lea d offset => .none (resultOf c d (c.pc + offset))
  | .rti _ | .res _ | .trap _ => .none { pc := c.pc, illegal := true }

theorem result_eq (w : Word) (c : Cpu) (v : Word) :
    result w c v = resultOf c (Field.destination w) v := by
  rw [result, resultOf, registerAt_eq, sign_eq, Field.destination]

theorem keep_eq (w : Word) (c : Cpu) (a : Word) : keep w c a = keepAt c (Field.source w) a := by
  simp only [keep, keepAt, registerAt_eq, Field.source]

theorem second_eq (w : Word) (c : Cpu) : second w c = c.operand (Instruction.operand w) := by
  rw [second, Instruction.operand, Field.hasImmediate, wrap_signed (by decide), registerAt_eq]
  by_cases hb : w.getLsbD 5 = true
  · rw [if_pos hb, if_pos ((bit_iff w 5).mpr hb)]
    rfl
  · rw [if_neg hb, if_neg (fun h => hb ((bit_iff w 5).mp h))]
    rfl

theorem target_eq (w : Word) (c : Cpu) :
    target w c =
      if Field.hasOffset w then c.pc + Field.offset11 w else c.register (Field.base w) := by
  rw [target, Field.hasOffset, wrap_toNat_add, wrap_signed (by decide), registerAt_eq,
    Field.offset11, Field.base]
  by_cases hb : w.getLsbD 11 = true
  · rw [if_pos hb, if_pos ((bit_iff w 11).mpr hb)]
  · rw [if_neg hb, if_neg (fun h => hb ((bit_iff w 11).mp h))]

/-- The bits of a word mean what the decoded instruction means. -/
theorem meaning_eq (w : Word) (c : Cpu) : meaning w c = meaningOf c (Instruction.decode w) := by
  rw [meaning, Instruction.decode, opcode_eq]
  simp only [registerAt_eq, second_eq, target_eq, nearby_eq, indexed_eq, branches_eq, result_eq,
    keep_eq, wrap_toInt_add, wrap_complement]
  -- Now both sides choose by the opcode, and they agree case by case.
  cases Opcode.ofBits (Field.opcode w) with
  | jsr =>
    cases Field.hasOffset w with
    | true => rfl
    | false => rfl
  | _ => rfl

/-! ## Accesses made -/

/-- Exactly one word is written at most, and the effect tells it. -/
def Accesses.Tells : Accesses → Option (Word × Word) → Prop
  | none effect, stored => effect.stored = stored
  | read _ next, stored => ∀ w, (next w).Tells stored
  | write a w next, stored => stored = Option.none ∧ next.Tells (some (a, w))

/-- An instruction writes one word at most, and its effect tells which one. -/
theorem meaningOf_tells (c : Cpu) (i : Instruction) : (meaningOf c i).Tells none := by
  cases i with
  | ld | ldr => exact fun v => rfl
  | ldi => exact fun a v => rfl
  | st | str => exact ⟨rfl, rfl⟩
  | sti => exact fun a => ⟨rfl, rfl⟩
  | _ => rfl

variable {κ : Type}

/-- The word at an address after one word was written, if any. -/
def wordAfter (m : Machine κ) (stored : Option (Word × Word)) (a : Word) : Word :=
  match stored with
  | some (b, w) => if b = a ∧ m.isPlain b then w else m.memory.words.get a
  | none => m.memory.words.get a

/-- What accesses that wrote one word, if any, leave alone. -/
structure Accessed (m : Machine κ) (stored : Option (Word × Word)) (m' : Machine κ) : Prop where
  cpu : m'.cpu = { m.cpu with stop := m'.cpu.stop }
  map : m'.map = m.map
  memory : m'.memory = { m.memory with words := m'.memory.words }
  words : ∀ a, m'.memory.words.get a = wordAfter m stored a

variable [Console κ]

theorem Accessed.load {m m₁ m₂ : Machine κ} {stored : Option (Word × Word)} {a w : Word}
    (h : Accessed m stored m₁) (hl : Machine.load a m₁ = .ok (w, m₂)) : Accessed m stored m₂ := by
  have hu := Machine.load_untouched hl
  constructor
  · rw [hu.cpu, h.cpu]
  · rw [hu.map, h.map]
  · rw [hu.memory, h.memory]
  · intro b
    rw [hu.memory, h.words b]

/-- Only one word is written, so its address and value are all there is to tell. -/
theorem Accessed.store {m m₁ m₂ : Machine κ} {a w : Word} (h : Accessed m none m₁)
    (hs : Machine.store a w m₁ = .ok ((), m₂)) : Accessed m (some (a, w)) m₂ := by
  have hst := Machine.store_stored hs
  have hplain : m₁.isPlain a = m.isPlain a := by
    rw [Machine.isPlain, h.memory]
    rfl
  constructor
  · rw [hst.cpu, h.cpu]
  · rw [hst.map, h.map]
  · rw [hst.memory, h.memory]
  · intro b
    have hold : m₁.memory.words.get b = m.memory.words.get b := h.words b
    rw [hst.memory, hplain]
    unfold wordAfter
    by_cases hp : m.isPlain a = true
    · simp only [hp, if_true, and_true]
      rw [Table.get_set, hold]
    · simp only [hp, Bool.false_eq_true, if_false, and_false, hold]

/-- What the accesses of an instruction leave alone, and the one word that they may have written. -/
theorem Accesses.perform_accessed {accesses : Accesses} {m m₁ m' : Machine κ} {e : Effect}
    {stored : Option (Word × Word)} (ht : accesses.Tells stored) (hm : Accessed m stored m₁)
    (h : accesses.perform m₁ = .ok (e, m')) : Accessed m e.stored m' := by
  induction accesses generalizing m₁ stored with
  | none effect =>
    cases h
    rw [show e.stored = stored from ht]
    exact hm
  | read a next ih =>
    rw [perform] at h
    split at h
    · rename_i w m₂ hl
      exact ih w (ht w) (hm.load hl) h
    · cases h
  | write a w next ih =>
    obtain ⟨rfl, ht⟩ := ht
    rw [perform] at h
    split at h
    · rename_i m₂ hs
      exact ih ht (hm.store hs) h
    · cases h

/-- After accesses that wrote one word, if any, the next one goes to a device that fails. -/
def Fails (m : Machine κ) (e : Fault) : Prop :=
  ∃ stored m₁ a d, Accessed m stored m₁ ∧ m.memory.io.get a = true ∧ m.map.owner? a = some d ∧
    (Machine.readDevice d a m₁ = .error e ∨ ∃ w, Machine.writeDevice d a w m₁ = .error e)

theorem isValid_of_full {m : Memory} (hsize : m.size = 65536) (a : Word) : m.isValid a = true := by
  have ha := a.isLt
  rw [Memory.isValid, hsize]
  exact decide_eq_true ha

/-- In a memory of full size every address exists, so it is a device that fails. -/
theorem Accessed.load_fails {m m₁ : Machine κ} {stored : Option (Word × Word)} {a : Word}
    {e : Fault} (hm : Accessed m stored m₁) (hsize : m.memory.size = 65536)
    (h : Machine.load a m₁ = .error e) : Fails m e := by
  have hio : m₁.memory.io = m.memory.io := by rw [hm.memory]
  have hvalid := isValid_of_full (m := m₁.memory) (by rw [hm.memory, hsize]) a
  rw [Machine.load, if_pos hvalid, hio] at h
  split at h
  · rename_i ha
    rw [Machine.readMapped, hm.map] at h
    split at h
    · rename_i d hd
      exact ⟨stored, m₁, a, d, hm, ha, hd, .inl h⟩
    · cases h
  · cases h

theorem Accessed.store_fails {m m₁ : Machine κ} {stored : Option (Word × Word)} {a w : Word}
    {e : Fault} (hm : Accessed m stored m₁) (hsize : m.memory.size = 65536)
    (h : Machine.store a w m₁ = .error e) : Fails m e := by
  have hio : m₁.memory.io = m.memory.io := by rw [hm.memory]
  have hvalid := isValid_of_full (m := m₁.memory) (by rw [hm.memory, hsize]) a
  rw [Machine.store, if_pos hvalid, hio] at h
  split at h
  · rename_i ha
    rw [Machine.writeMapped, hm.map] at h
    split at h
    · rename_i d hd
      exact ⟨stored, m₁, a, d, hm, ha, hd, .inr ⟨w, h⟩⟩
    · cases h
  · split at h
    · cases h
    · cases h

/-- If the accesses of an instruction fail, a device did. -/
theorem Accesses.perform_fails {accesses : Accesses} {m m₁ : Machine κ} {e : Fault}
    {stored : Option (Word × Word)} (ht : accesses.Tells stored) (hm : Accessed m stored m₁)
    (hsize : m.memory.size = 65536) (h : accesses.perform m₁ = .error e) : Fails m e := by
  induction accesses generalizing m₁ stored with
  | none effect => cases h
  | read a next ih =>
    rw [perform] at h
    split at h
    · rename_i w m₂ hl
      exact ih w (ht w) (hm.load hl) h
    · rename_i hl
      cases h
      exact hm.load_fails hsize hl
  | write a w next ih =>
    obtain ⟨rfl, ht⟩ := ht
    rw [perform] at h
    split at h
    · rename_i m₂ hs
      exact ih ht (hm.store hs) h
    · rename_i hs
      cases h
      exact hm.store_fails hsize hs

/-! ## Effects -/

/-- The machine after an effect. An illegal instruction is logged as `complaint`. -/
def Effect.apply (e : Effect) (complaint : Text) (m : Machine κ) : Machine κ :=
  { m with
    cpu := { m.cpu with
      registers := match e.result with
        | some (d, v) => m.cpu.registers.set d v
        | none => m.cpu.registers
      pc := e.pc
      condition := e.condition.getD m.cpu.condition
      stop := if e.illegal ∧ m.cpu.stopOnIllegal then .illegalOpcode else m.cpu.stop }
    host := if e.illegal ∧ m.cpu.stopOnIllegal then m.host.reportFormatted .warning complaint
      else m.host }

def complaint (w address : Word) : Text :=
  "illegal opcode " ++ Text.address w ++ " at " ++ Text.address address

open Routine (run_bind run_look run_load run_store run_change)

/-- The outcome of accesses followed by their effect. -/
def outcome (w : Word) (accesses : Accesses) (m : Machine κ) : Except Fault (Unit × Machine κ) :=
  match accesses.perform m with
  | .ok (e, m₁) => .ok ((), e.apply (complaint w m₁.cpu.lastPc) m₁)
  | .error e => .error e

theorem change_eq {m : Machine κ} {f : Cpu → Cpu} {e : Effect} {w : Word}
    (h : f m.cpu = (e.apply (complaint w m.cpu.lastPc) m).cpu) (hl : e.illegal = false) :
    (Routine.change f).run m = outcome w (.none e) m := by
  simp only [run_change, outcome, Accesses.perform, h, Effect.apply, hl]
  rfl

/-- What an instruction comes to that reads a word first. -/
theorem outcome_read (w a : Word) (next : Word → Accesses) (m : Machine κ) :
    outcome w (.read a next) m =
      match Machine.load a m with
      | .ok (v, m₁) => outcome w (next v) m₁
      | .error e => .error e := by
  rw [outcome, Accesses.perform]
  cases Machine.load a m with
  | error e => rfl
  | ok x => rfl

theorem load_eq {m : Machine κ} {c : Cpu} (hc : m.cpu.pc = c.pc) (w a : Word)
    (d : RegisterNumber) :
    (Routine.load a >>= fun v => Routine.change (·.setResult d v)).run m =
      outcome w (.read a fun v => .none (resultOf c d v)) m := by
  rw [run_bind, run_load, outcome_read]
  cases hl : Machine.load a m with
  | error e => rfl
  | ok x =>
    have hpc : x.2.cpu.pc = c.pc := by rw [(Machine.load_untouched hl).cpu, hc]
    refine change_eq ?_ rfl
    rw [Effect.apply, resultOf, ← hpc]
    rfl

theorem store_eq {m : Machine κ} {c : Cpu} (hc : m.cpu.pc = c.pc) (w a : Word)
    (r : RegisterNumber) :
    (Routine.store a (c.register r)).run m = outcome w (keepAt c r a) m := by
  rw [run_store, outcome, keepAt, Accesses.perform]
  cases hs : Machine.store a (c.register r) m with
  | error e => rfl
  | ok x =>
    have hpc : x.2.cpu.pc = c.pc := by rw [(Machine.store_stored hs).cpu, hc]
    simp only [Accesses.perform, Effect.apply, ← hpc]
    rfl

theorem illegal_eq (w : Word) (m : Machine κ) :
    (Routine.illegal ("illegal opcode " ++ Text.address w)).run m =
      outcome w (.none { pc := m.cpu.pc, illegal := true }) m := by
  rw [Routine.illegal_run, outcome, Accesses.perform]
  simp only [Effect.apply, Cpu.illegal, true_and]
  split
  · rfl
  · rfl

/-- An instruction makes its accesses, and then it has its effect. -/
theorem perform_eq {i : Instruction} {w : Word} (hi : ∀ v, i ≠ .trap v)
    (hw : ∀ v, i = .rti v ∨ i = .res v → v = w) (m : Machine κ) :
    (Routine.perform i).run m = outcome w (meaningOf m.cpu i) m := by
  rw [Routine.perform, run_bind, run_look]
  cases i with
  | add d r o => exact change_eq rfl rfl
  | and d r o => exact change_eq rfl rfl
  | not d r => exact change_eq rfl rfl
  | lea d offset => exact change_eq rfl rfl
  | jmp base => exact change_eq rfl rfl
  | jsr offset => exact change_eq rfl rfl
  | jsrr base => exact change_eq rfl rfl
  | br conditions offset =>
    dsimp only [meaningOf]
    split
    · exact change_eq rfl rfl
    · rfl
  | ld d offset => exact load_eq rfl w _ d
  | ldr d base offset => exact load_eq rfl w _ d
  | ldi d offset =>
    dsimp only [meaningOf]
    rw [run_bind, run_load, outcome_read]
    cases hl : Machine.load (m.cpu.pc + offset) m with
    | error e => rfl
    | ok x => exact load_eq (by rw [(Machine.load_untouched hl).cpu]) w x.1 d
  | st r offset => exact store_eq rfl w _ r
  | str r base offset => exact store_eq rfl w _ r
  | sti r offset =>
    dsimp only [meaningOf]
    rw [run_bind, run_load, outcome_read]
    cases hl : Machine.load (m.cpu.pc + offset) m with
    | error e => rfl
    | ok x => exact store_eq (by rw [(Machine.load_untouched hl).cpu]) w x.1 r
  | trap v => exact absurd rfl (hi v)
  | rti v =>
    obtain rfl := hw v (.inl rfl)
    exact illegal_eq v m
  | res v =>
    obtain rfl := hw v (.inr rfl)
    exact illegal_eq v m

/-! ## Executed words -/

theorem decode_reserved {w v : Word}
    (h : Instruction.decode w = .rti v ∨ Instruction.decode w = .res v) : v = w := by
  rw [Instruction.decode] at h
  -- Only two of the sixteen opcodes decode to a reserved word.
  generalize Opcode.ofBits (Field.opcode w) = o at h
  cases o with
  | rti =>
    rcases h with h | h
    · cases h
      rfl
    · cases h
  | res =>
    rcases h with h | h
    · cases h
    · cases h
      rfl
  | jsr =>
    generalize Field.hasOffset w = b at h
    cases b with
    | true => rcases h with h | h <;> cases h
    | false => rcases h with h | h <;> cases h
  | _ => rcases h with h | h <;> cases h

theorem decode_ne_trap {w : Word} (h : bits w 12 4 ≠ 15) (v : Byte) :
    Instruction.decode w ≠ .trap v := by
  intro hd
  have hop := Instruction.opcode_decode w
  rw [hd] at hop
  rw [opcode_eq, ← hop] at h
  exact h rfl

/-- A word with the opcode of traps is decoded as one, with its lowest eight bits as the vector. -/
theorem decode_eq_trap {w : Word} (h : bits w 12 4 = 15) :
    Instruction.decode w = .trap (Field.vector w) := by
  rw [opcode_eq] at h
  rw [Instruction.decode]
  generalize Opcode.ofBits (Field.opcode w) = o at h ⊢
  cases o with
  | trap => rfl
  | _ => exact absurd h (by decide)

theorem vector_eq (w : Word) : (Field.vector w).toNat = bits w 0 8 := by
  rw [Field.vector, Word.lowByte, BitVec.toNat_setWidth, bits, Nat.pow_zero, Nat.div_one]

/-- The machine as an instruction that is executed on its own finds it. -/
def entered (m : Machine κ) : Machine κ :=
  { m with cpu := { m.cpu with stop := .running, lastPc := m.cpu.pc - 1 } }

/-- What executing a word comes to, if `m₁` is the machine after the accesses. -/
structure Executed (m : Machine κ) (w : Word) (e : Effect) (m₁ m' : Machine κ) : Prop where
  registers : ∀ r, m'.cpu.register r =
    match e.result with
    | some (d, v) => if d = r then v else m.cpu.register r
    | none => m.cpu.register r
  pc : m'.cpu.pc = e.pc
  condition : m'.cpu.condition = e.condition.getD m.cpu.condition
  stop : m'.cpu.stop = if e.illegal ∧ m.cpu.stopOnIllegal then .illegalOpcode else m₁.cpu.stop
  lastPc : m'.cpu.lastPc = m.cpu.pc - 1
  executed : m'.cpu.executed = m.cpu.executed
  stopOnIllegal : m'.cpu.stopOnIllegal = m.cpu.stopOnIllegal
  words : ∀ a, m'.memory.words.get a = wordAfter m e.stored a
  memory : m'.memory = { m.memory with words := m'.memory.words }
  map : m'.map = m.map
  devices : m'.devices = m₁.devices
  host : m'.host =
    if e.illegal ∧ m.cpu.stopOnIllegal then
      m₁.host.reportFormatted .warning (complaint w (m.cpu.pc - 1))
    else m₁.host

/-- What no trap changes, and where it returns to. -/
structure Trapped (m m' : Machine κ) : Prop where
  link : m'.cpu.register 7 = m.cpu.pc
  registers : ∀ r, r ≠ 0 → r ≠ 7 → m'.cpu.register r = m.cpu.register r
  pc : m'.cpu.pc = m.cpu.pc
  condition : m'.cpu.condition = m.cpu.condition
  lastPc : m'.cpu.lastPc = m.cpu.pc - 1
  executed : m'.cpu.executed = m.cpu.executed
  stopOnIllegal : m'.cpu.stopOnIllegal = m.cpu.stopOnIllegal

/-- To execute a word is to perform the decoded instruction on the machine that it finds. -/
theorem execute_run (w : Word) (m : Machine κ) :
    Machine.execute w m =
      match (Routine.perform (Instruction.decode w)).run (entered m) with
      | .ok (_, m') => .ok (m'.cpu.stop, m')
      | .error e => .error e := by
  rw [Machine.execute, Routine.execute, run_bind, run_change]
  dsimp only
  rw [run_bind]
  cases hp : (Routine.perform (Instruction.decode w)).run (entered m) with
  | error e =>
    rw [entered] at hp
    rw [hp]
  | ok x =>
    rw [entered] at hp
    rw [hp]
    rfl

/-- The effect of an instruction changes what it says, and its accesses have changed the rest. -/
theorem Accessed.executed {m m₁ : Machine κ} {e : Effect} (w : Word)
    (h : Accessed (entered m) e.stored m₁) :
    Executed m w e m₁ (e.apply (complaint w m₁.cpu.lastPc) m₁) := by
  have hregister : ∀ r, m₁.cpu.register r = m.cpu.register r := by
    intro r
    rw [h.cpu]
    rfl
  have hlast : m₁.cpu.lastPc = m.cpu.pc - 1 := by rw [h.cpu]; rfl
  have hillegal : m₁.cpu.stopOnIllegal = m.cpu.stopOnIllegal := by rw [h.cpu]; rfl
  constructor
  · intro r
    rw [← hregister r]
    unfold Effect.apply Cpu.register
    cases e.result with
    | none => rfl
    | some x => exact Table.get_set _ _ _ _
  · rfl
  · show e.condition.getD m₁.cpu.condition = _
    rw [h.cpu]
    rfl
  · show (if e.illegal ∧ m₁.cpu.stopOnIllegal then _ else _) = _
    rw [hillegal]
  · exact hlast
  · show m₁.cpu.executed = _
    rw [h.cpu]
    rfl
  · exact hillegal
  · exact h.words
  · exact h.memory
  · exact h.map
  · rfl
  · show (if e.illegal ∧ m₁.cpu.stopOnIllegal then _ else _) = _
    rw [hillegal, hlast]

/-- Executing a word does what its bits mean, in every state and whatever the devices do. Nothing
but a device can make it fail. -/
theorem execute_meaning (m : Machine κ) (w : Word) (hsize : m.memory.size = 65536) :
    (bits w 12 4 ≠ 15 →
      match (meaning w m.cpu).perform (entered m) with
      | .ok (e, m₁) => ∃ m', Machine.execute w m = .ok (m'.cpu.stop, m') ∧ Executed m w e m₁ m'
      | .error f => Machine.execute w m = .error f ∧ Fails (entered m) f) ∧
    (bits w 12 4 = 15 → ∀ c m', Machine.execute w m = .ok (c, m') →
      c = m'.cpu.stop ∧ Trapped m m') := by
  constructor
  · intro hw
    have hrun := perform_eq (decode_ne_trap hw) (fun _ => decode_reserved) (entered m)
    have hmeaning : meaningOf (entered m).cpu (Instruction.decode w) = meaning w m.cpu := by
      rw [← meaning_eq]
      rfl
    rw [hmeaning, outcome] at hrun
    rw [execute_run, hrun]
    have ht : (meaning w m.cpu).Tells none := by
      rw [meaning_eq]
      exact meaningOf_tells m.cpu _
    have hstart : Accessed (entered m) none (entered m) := ⟨rfl, rfl, rfl, fun _ => rfl⟩
    split
    · rename_i e m₁ hp
      exact ⟨_, rfl, (Accesses.perform_accessed ht hstart hp).executed w⟩
    · rename_i f hp
      exact ⟨rfl, Accesses.perform_fails ht hstart hsize hp⟩
  · intro hw c m' h
    rw [execute_run, decode_eq_trap hw] at h
    split at h
    · rename_i m₁ hp
      cases h
      have hs := Routine.perform_trap hp
      refine ⟨rfl, ?_⟩
      constructor
      · rw [hs.registers 7 (by decide)]
        exact Table.get_set_self _ _ _
      · intro r h0 h7
        rw [hs.registers r h0]
        exact Table.get_set_of_ne _ (Ne.symm h7) _
      · exact hs.pc
      · exact hs.condition
      · exact hs.lastPc
      · exact hs.executed
      · exact hs.stopOnIllegal
    · cases h

/-- `LDI R1, #0` with the address of the keyboard in front of it, and `A` typed. -/
theorem execute_meaning_keyboard :
    (Machine.sample [0xFE02] [.key 0x41]).memory.size = 65536 ∧
      ∃ m', Machine.execute 0xA200 (Machine.sample [0xFE02] [.key 0x41]) = .ok (m'.cpu.stop, m') ∧
        m'.cpu.register 1 = 0x41 ∧ m'.cpu.condition = .positive ∧ m'.cpu.pc = 0x3000 := by
  have h := (execute_meaning (Machine.sample [0xFE02] [.key 0x41]) 0xA200 rfl).1 (by decide)
  obtain ⟨m', hrun, hx⟩ := h
  exact ⟨rfl, m', hrun, hx.registers 1, hx.condition, hx.pc⟩

end InstructionSet

end LittleComputer
