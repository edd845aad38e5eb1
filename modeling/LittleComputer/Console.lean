import LittleComputer.Text

/-!
# Consoles

What a terminal and a log need from the console behind them. A console is a value that every
operation replaces, so the whole outside world of a program is the state of its console.

There are no laws: a console may answer anything. `Console.patience` bounds how long to wait for a
key, and an execution that waits longer ends in a fault.
-/

namespace LittleComputer

/-- The result of asking a console for one key. -/
inductive KeyRead where
  | key (b : Byte)
  | nothing
  /-- No key will be typed any more. -/
  | ended
  deriving DecidableEq, Repr

class Console (κ : Type) where
  /-- Whether the operator asked for an interruption; the request counts once. -/
  takeBreak : κ → Bool × κ
  /-- Asks for one key and waits at most the given number of milliseconds. -/
  read : κ → Nat → KeyRead × κ
  write : κ → List Byte → κ
  message : κ → Text → κ
  /-- How often asking for a key can be in vain before there is a key, an interruption or the end
  of the input. -/
  patience : κ → Nat

end LittleComputer
