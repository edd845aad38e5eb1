import LittleComputer.Fault
import LittleComputer.Instruction
import LittleComputer.Table

/-!
# Processor state

Eight general registers, a program counter, a condition that is exactly one of positive, zero and
negative, and the reason why the last execution stopped.
-/

namespace LittleComputer

/-- Why an execution stopped. -/
inductive StopCode where
  | running
  | finished
  | endOfInput
  | illegalOpcode
  | halt
  /-- A jump to itself; no execution reports it. -/
  | endlessLoop
  | breakpoint
  | interrupted
  deriving DecidableEq, Repr, Inhabited

namespace StopCode

/-- All stop codes, each at the position that is its number. -/
def all : List StopCode :=
  [running, finished, endOfInput, illegalOpcode, halt, endlessLoop, breakpoint, interrupted]

def number : StopCode → Nat
  | running => 0 | finished => 1 | endOfInput => 2 | illegalOpcode => 3
  | halt => 4 | endlessLoop => 5 | breakpoint => 6 | interrupted => 7

def ofNat? (n : Nat) : Option StopCode := all[n]?

theorem ofNat?_number (c : StopCode) : ofNat? c.number = some c := by cases c <;> rfl

def description : StopCode → Text
  | running => "running"
  | finished => "instruction count reached"
  | endOfInput => "end of file on console input"
  | illegalOpcode => "illegal opcode"
  | halt => "halt"
  | endlessLoop => "endless loop"
  | breakpoint => "breakpoint"
  | interrupted => "break"

/-- What a message says about a number that may not be a stop code. -/
def describe (n : Nat) : Text := ((ofNat? n).map description).getD "unknown"

end StopCode

/-- The condition codes: what the last result was. -/
inductive Condition where
  | positive
  | zero
  | negative
  deriving DecidableEq, Repr, Inhabited

namespace Condition

/-- The bit of a condition, at the same place as the bit of a branch that asks for it. -/
def bits : Condition → BitVec 3
  | positive => 1 | zero => 2 | negative => 4

/-- The condition of a result, read as a two's complement number. -/
def ofWord (w : Word) : Condition :=
  if w = 0 then zero else if w.msb then negative else positive

def ofNat? : Nat → Option Condition
  | 1 => some positive | 2 => some zero | 4 => some negative | _ => none

theorem ofNat?_bits (c : Condition) : ofNat? c.bits.toNat = some c := by cases c <;> rfl

end Condition

structure Cpu where
  registers : Table Word 3
  pc : Word
  condition : Condition
  stop : StopCode
  /-- The address of the last instruction. -/
  lastPc : Word
  /-- The number of instructions executed by runs since the last reset. -/
  executed : Nat
  /-- Whether an illegal instruction stops the execution; otherwise it does nothing. -/
  stopOnIllegal : Bool

namespace Cpu

def name : Text := "LC3"

def description : Text := "LC-3 microprocessor"

/-- Where user programs start by convention. -/
def userStart : Word := 0x3000

/-- The state after power on. -/
def initial : Cpu :=
  { registers := .fill 0, pc := userStart, condition := .zero, stop := .running
    lastPc := 0, executed := 0, stopOnIllegal := true }

/-- The state after a reset, which keeps the address of the last instruction and the choice of
what an illegal instruction does. -/
def reset (c : Cpu) : Cpu :=
  { initial with lastPc := c.lastPc, stopOnIllegal := c.stopOnIllegal }

def setPc (c : Cpu) (a : Word) : Cpu := { c with pc := a }

/-- Sets the condition by its bits, of which exactly one must be set. -/
def setCondition (c : Cpu) (bits : Byte) : Except Fault Cpu :=
  match Condition.ofNat? bits.toNat with
  | some condition => .ok { c with condition }
  | none => .error (.condition bits)

def register (c : Cpu) (r : RegisterNumber) : Word := c.registers.get r

def setRegister (c : Cpu) (r : RegisterNumber) (v : Word) : Cpu :=
  { c with registers := c.registers.set r v }

/-- Puts a result into a register and sets the condition from it. -/
def setResult (c : Cpu) (r : RegisterNumber) (v : Word) : Cpu :=
  { c.setRegister r v with condition := .ofWord v }

/-- Asks a run to stop after the current instruction. -/
def breakWith (c : Cpu) (reason : StopCode) : Cpu := { c with stop := reason }

def illegal (c : Cpu) : Cpu := if c.stopOnIllegal then c.breakWith .illegalOpcode else c

def operand (c : Cpu) : Operand → Word
  | .register r => c.register r
  | .immediate value => value

end Cpu

/-- The registers that an operator can look at and change. -/
inductive Register where
  | general (r : RegisterNumber)
  | pc
  | condition
  deriving DecidableEq, Repr

namespace Register

/-- The general registers, the program counter and the condition, in the order of their codes. -/
def all : List Register :=
  [general 0, general 1, general 2, general 3, general 4, general 5, general 6, general 7,
    pc, condition]

def ofCode? (code : Nat) : Option Register := all[code]?

def code : Register → Nat
  | general r => r.toNat | pc => 8 | condition => 9

def name : Register → Text
  | general r => "R" ++ Text.decimal r.toNat
  | pc => "PC"
  | condition => "CC"

end Register

namespace Cpu

/-- The number of bits of the register with a given code; a code without a register counts as a
word. -/
def registerSize (code : Nat) : Nat :=
  if Register.ofCode? code = some .condition then 3 else 16

/-- The contents of the register with a given code; a code without a register reads as zero. -/
def inspect (c : Cpu) (code : Nat) : Word :=
  match Register.ofCode? code with
  | some (.general r) => c.register r
  | some .pc => c.pc
  | some .condition => c.condition.bits.setWidth 16
  | none => 0

/-- Changes the contents of the register with a given code. A code without a register, and
anything but one condition bit for the condition, change nothing. -/
def deposit (c : Cpu) (code : Nat) (v : Word) : Cpu :=
  match Register.ofCode? code with
  | some (.general r) => c.setRegister r v
  | some .pc => c.setPc v
  | some .condition =>
    match Condition.ofNat? v.toNat with
    | some condition => { c with condition := condition }
    | none => c
  | none => c

end Cpu

end LittleComputer
