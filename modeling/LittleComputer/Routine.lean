import LittleComputer.Instruction.Disassembly
import LittleComputer.Machine

/-!
# Routines

What the processor does is a sequence of elementary operations: it looks at its own state, changes
it, reads and writes memory, and reports. A routine is such a sequence as data, in which the answer
to each operation decides how to go on. `Routine.run` carries a routine out on a machine.
-/

namespace LittleComputer

/-- An elementary operation of the processor, with the type of its answer. -/
inductive Operation : Type → Type 1 where
  | look : Operation Cpu
  | change (f : Cpu → Cpu) : Operation Unit
  | load (a : Word) : Operation Word
  | store (a w : Word) : Operation Unit
  | warn (text : Text) : Operation Unit
  /-- Log an instruction before it is executed, if that is asked for. -/
  | trace (address word : Word) : Operation Unit

/-- A sequence of operations with a result. -/
inductive Routine (α : Type) : Type 1 where
  | done (a : α)
  | act {β : Type} (o : Operation β) (next : β → Routine α)

namespace Operation

variable {κ : Type} [Console κ] {α : Type}

def traceText (address word : Word) : Text :=
  Text.ofWord address ++ "/ " ++ Text.ofWord word ++ "\t" ++ disassemble word address

def run : Operation α → Action κ α
  | look => fun m => .ok (m.cpu, m)
  | change f => Machine.modifyCpu f
  | load a => Machine.load a
  | store a w => Machine.store a w
  | warn text => Machine.modifyHost (·.reportFormatted .warning text)
  | trace address word => Machine.modifyHost fun h =>
    if h.isLogged .trace then h.reportFormatted .trace (traceText address word) else h

end Operation

namespace Routine

variable {κ : Type} [Console κ] {α β : Type}

/-- Goes on with the result of a routine. -/
def bind : Routine α → (α → Routine β) → Routine β
  | done a, f => f a
  | act o next, f => act o fun b => (next b).bind f

instance : Monad Routine where
  pure := done
  bind := bind

/-- The routine of one operation. -/
def one (o : Operation α) : Routine α := act o done

def look : Routine Cpu := one .look

def change (f : Cpu → Cpu) : Routine Unit := one (.change f)

def load (a : Word) : Routine Word := one (.load a)

def store (a w : Word) : Routine Unit := one (.store a w)

def warn (text : Text) : Routine Unit := one (.warn text)

def trace (address word : Word) : Routine Unit := one (.trace address word)

def run : Routine α → Action κ α
  | done a => fun m => .ok (a, m)
  | act o next => fun m =>
    match o.run m with
    | .ok (b, m) => (next b).run m
    | .error e => .error e

end Routine

end LittleComputer
