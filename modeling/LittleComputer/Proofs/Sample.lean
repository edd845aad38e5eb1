import LittleComputer.Console.Script
import LittleComputer.Image

/-!
# A sample machine

A machine with a memory of full size, a terminal at its usual place, and a script instead of a
person, on which general statements can be tried.
-/

namespace LittleComputer

/-- A memory of full size, all of it ordinary. -/
def Memory.full : Memory :=
  { size := 65536, words := .fill 0, ram := .fill true, io := .fill false, breaks := .fill false
    size_pos := by decide, size_le := by decide }

/-- A machine with a program at the address where user programs start, and a script that tells what
happens at its terminal. -/
def Machine.sample (program : List Word) (script : List ScriptEntry) : Machine Script :=
  { cpu := .initial
    memory := { Memory.full.place Cpu.userStart program with
      io := (Table.fill false).fillRange 0xFE00 0xFE06 true }
    map := ⟨(Table.fill none).fillRange 0xFE00 0xFE06 (some 0)⟩
    devices := [(0, .newTerminal (Text.ofString "CON") true)]
    host := .new (.ofEntries script 0) (.empty []) default }

namespace Machine

variable {κ α : Type}

/-- The machine after an action, or the one before it if the action fails. -/
def after (x : Except Fault (α × Machine κ)) (m : Machine κ) : Machine κ :=
  match x with
  | .ok (_, m') => m'
  | .error _ => m

/-- To know that an action succeeds it is enough to compute its result. -/
theorem eq_ok_of_result {x : Except Fault (α × Machine κ)} {a : α} (m : Machine κ)
    (h : x.toOption.map (·.1) = some a) : x = .ok (a, after x m) := by
  cases x with
  | error e => cases h
  | ok x =>
    cases h
    rfl

end Machine

end LittleComputer
