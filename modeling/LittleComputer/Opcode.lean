import LittleComputer.Fault
import LittleComputer.Text

/-!
# Opcodes and trap services

The four most significant bits of an instruction word select one of sixteen opcodes. The opcode
for system calls names one of 256 trap vectors, of which six have a service.
-/

namespace LittleComputer

/-- The sixteen opcodes, in the order of their bit patterns. -/
inductive Opcode where
  | br | add | ld | st | jsr | and | ldr | str
  | rti | not | ldi | sti | jmp | res | lea | trap
  deriving DecidableEq, Repr, Inhabited

namespace Opcode

/-- All opcodes, each at the position that is its bit pattern. -/
def all : List Opcode :=
  [br, add, ld, st, jsr, and, ldr, str, rti, not, ldi, sti, jmp, res, lea, trap]

def bits : Opcode → BitVec 4
  | br => 0 | add => 1 | ld => 2 | st => 3 | jsr => 4 | and => 5 | ldr => 6 | str => 7
  | rti => 8 | not => 9 | ldi => 10 | sti => 11 | jmp => 12 | res => 13 | lea => 14 | trap => 15

/-- The opcode with a given number, which must be below sixteen. -/
def ofNat? (n : Nat) : Option Opcode := all[n]?

/-- The opcode of a number that may be wider than an instruction word; only sixteen bit numbers
have one. -/
def decode? (w : BitVec 32) : Option Opcode := ofNat? (w >>> 12).toNat

def ofBits : BitVec 4 → Opcode
  | 0 => br | 1 => add | 2 => ld | 3 => st | 4 => jsr | 5 => and | 6 => ldr | 7 => str
  | 8 => rti | 9 => not | 10 => ldi | 11 => sti | 12 => jmp | 13 => res | 14 => lea | _ => trap

theorem ofBits_bits (o : Opcode) : ofBits o.bits = o := by cases o <;> rfl

theorem bits_ofBits (b : BitVec 4) : (ofBits b).bits = b := by decide +revert

def mnemonic : Opcode → Text
  | br => "BR" | add => "ADD" | ld => "LD" | st => "ST"
  | jsr => "JSR" | and => "AND" | ldr => "LDR" | str => "STR"
  | rti => "RTI" | not => "NOT" | ldi => "LDI" | sti => "STI"
  | jmp => "JMP" | res => "RES" | lea => "LEA" | trap => "TRAP"

/-- The mnemonic of the opcode with a given number, which must be below sixteen. -/
def nameOf (n : Nat) : Except Fault Text :=
  match ofNat? n with
  | some o => .ok o.mnemonic
  | none => .error (.opcode n)

/-- The number that an instruction word has for its opcode always has a mnemonic. -/
theorem nameOf_bits (o : Opcode) : nameOf o.bits.toNat = .ok o.mnemonic := by cases o <;> rfl

end Opcode

/-- What a program can ask for with a trap. -/
inductive Service where
  /-- Read one character, without echo. -/
  | readChar
  | writeChar
  /-- Write a string that holds one character in each word. -/
  | writeString
  /-- Prompt for one character, read it and echo it. -/
  | promptChar
  /-- Write a string that holds two characters in each word. -/
  | writePacked
  | halt
  deriving DecidableEq, Repr

namespace Service

def vector : Service → Byte
  | readChar => 0x20 | writeChar => 0x21 | writeString => 0x22
  | promptChar => 0x23 | writePacked => 0x24 | halt => 0x25

def ofVector? : Byte → Option Service
  | 0x20 => some readChar | 0x21 => some writeChar | 0x22 => some writeString
  | 0x23 => some promptChar | 0x24 => some writePacked | 0x25 => some halt
  | _ => none

theorem ofVector?_vector (s : Service) : ofVector? s.vector = some s := by cases s <;> rfl

def name : Service → Text
  | readChar => "GETC" | writeChar => "OUT" | writeString => "PUTS"
  | promptChar => "IN" | writePacked => "PUTSP" | halt => "HALT"

end Service

end LittleComputer
