import LittleComputer.Word

/-!
# Faults

An operation that is asked for something it does not define ends in a fault, which names the rule
that was broken. Two more causes say that an execution did not come to an end: it waits for a key
that will never be typed, or it was given too few steps. They are no broken rules, and they are
kept apart so that giving up is never mistaken for a result.
-/

namespace LittleComputer

/-- Why an operation has no result. -/
inductive Fault where
  /-- The address lies beyond the end of memory. -/
  | address (a : Word)
  /-- The addresses do not delimit a range inside memory. -/
  | range (first last : Word)
  /-- A memory has at least one and at most 65536 words. -/
  | memorySize (size : Nat)
  /-- A device has at least one register. -/
  | emptyDevice
  /-- A device was asked for a register below its first one. -/
  | port (a : Word)
  | unknownDevice
  /-- A condition is exactly one of positive, zero and negative. -/
  | condition (bits : Byte)
  /-- There are sixteen opcodes. -/
  | opcode (number : Nat)
  | unnamedLog
  | secondLog
  | secondWindow
  /-- The execution waits for a key that will never be typed. -/
  | stalled
  /-- The execution was given too few steps to come to an end. -/
  | outOfSteps
  deriving DecidableEq, Repr

namespace Fault

/-- Whether the fault is a broken rule, and not an execution without an end. -/
def isViolation : Fault → Bool
  | stalled | outOfSteps => false
  | _ => true

end Fault

end LittleComputer
