import LittleComputer.Opcode

/-!
# Instructions

Every instruction is one word. Its opcode stands in bits 12 to 15, and the other bits are fields
whose position does not depend on the opcode. `Instruction.decode` reads every word as an
instruction that keeps the fields its opcode uses and forgets the others, so two words that decode
alike can only behave alike.
-/

namespace LittleComputer

abbrev RegisterNumber := BitVec 3

/-! ## Fields of an instruction word -/

namespace Field

variable (w : Word)

def opcode : BitVec 4 := w.extractLsb' 12 4

def destination : RegisterNumber := w.extractLsb' 9 3

def source : RegisterNumber := w.extractLsb' 9 3

def first : RegisterNumber := w.extractLsb' 6 3

def second : RegisterNumber := w.extractLsb' 0 3

def base : RegisterNumber := w.extractLsb' 6 3

/-- Bits 9 to 11, the conditions of a branch: negative, zero and positive. -/
def conditions : BitVec 3 := w.extractLsb' 9 3

def immediate : Word := w.signed 5

def offset6 : Word := w.signed 6

def offset9 : Word := w.signed 9

def offset11 : Word := w.signed 11

def vector : Byte := Word.lowByte w

/-- Bit 5: the second operand is the immediate number and not a register. -/
def hasImmediate : Bool := w.getLsbD 5

/-- Bit 11: the target of a call is an offset and not a register. -/
def hasOffset : Bool := w.getLsbD 11

end Field

/-- The second operand of an addition or a conjunction. -/
inductive Operand where
  | register (r : RegisterNumber)
  | immediate (value : Word)
  deriving DecidableEq, Repr

/-- The sixteen kinds of instruction, with the fields that matter. Offsets are already extended to
a word. The two opcodes without a meaning keep the whole word. -/
inductive Instruction where
  | br (conditions : BitVec 3) (offset : Word)
  | add (destination first : RegisterNumber) (second : Operand)
  | ld (destination : RegisterNumber) (offset : Word)
  | st (source : RegisterNumber) (offset : Word)
  | jsr (offset : Word)
  | jsrr (base : RegisterNumber)
  | and (destination first : RegisterNumber) (second : Operand)
  | ldr (destination base : RegisterNumber) (offset : Word)
  | str (source base : RegisterNumber) (offset : Word)
  /-- Return from an interrupt, which no program may do here. -/
  | rti (word : Word)
  | not (destination source : RegisterNumber)
  | ldi (destination : RegisterNumber) (offset : Word)
  | sti (source : RegisterNumber) (offset : Word)
  | jmp (base : RegisterNumber)
  /-- The opcode without a meaning. -/
  | res (word : Word)
  | lea (destination : RegisterNumber) (offset : Word)
  | trap (vector : Byte)
  deriving DecidableEq, Repr

namespace Instruction

def operand (w : Word) : Operand :=
  if Field.hasImmediate w then .immediate (Field.immediate w) else .register (Field.second w)

/-- Every word is an instruction. -/
def decode (w : Word) : Instruction :=
  match Opcode.ofBits (Field.opcode w) with
  | .br => br (Field.conditions w) (Field.offset9 w)
  | .add => add (Field.destination w) (Field.first w) (operand w)
  | .ld => ld (Field.destination w) (Field.offset9 w)
  | .st => st (Field.source w) (Field.offset9 w)
  | .jsr => if Field.hasOffset w then jsr (Field.offset11 w) else jsrr (Field.base w)
  | .and => and (Field.destination w) (Field.first w) (operand w)
  | .ldr => ldr (Field.destination w) (Field.base w) (Field.offset6 w)
  | .str => str (Field.source w) (Field.base w) (Field.offset6 w)
  | .rti => rti w
  | .not => not (Field.destination w) (Field.first w)
  | .ldi => ldi (Field.destination w) (Field.offset9 w)
  | .sti => sti (Field.source w) (Field.offset9 w)
  | .jmp => jmp (Field.base w)
  | .res => res w
  | .lea => lea (Field.destination w) (Field.offset9 w)
  | .trap => trap (Field.vector w)

def opcode : Instruction → Opcode
  | br .. => .br | add .. => .add | ld .. => .ld | st .. => .st
  | jsr .. => .jsr | jsrr .. => .jsr | and .. => .and | ldr .. => .ldr
  | str .. => .str | rti .. => .rti | not .. => .not | ldi .. => .ldi
  | sti .. => .sti | jmp .. => .jmp | res .. => .res | lea .. => .lea
  | trap .. => .trap

/-- Decoding keeps the opcode bits. -/
theorem opcode_decode (w : Word) : (decode w).opcode = Opcode.ofBits (Field.opcode w) := by
  unfold decode
  split <;> (try split) <;> simp_all [opcode]

end Instruction

end LittleComputer
