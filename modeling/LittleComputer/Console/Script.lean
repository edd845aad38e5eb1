import LittleComputer.Console

/-!
# Scripted consoles

A console that plays a fixed script of keys, pauses and interruptions, and records what is written
to it. After the script it pauses a given number of times, and then the input ends.
-/

namespace LittleComputer

inductive ScriptEntry where
  | key (b : Byte)
  /-- The input ends here; later entries can still be read. -/
  | ended
  | pause
  | interrupt
  deriving DecidableEq, Repr

/-- The state of a scripted console. -/
structure Script where
  entries : List ScriptEntry
  /-- How many pauses follow the script. -/
  idle : Nat
  output : Array Byte

namespace Script

def ofEntries (entries : List ScriptEntry) (idle : Nat) : Script := { entries, idle, output := #[] }

def feed (s : Script) (entries : List ScriptEntry) : Script :=
  { s with entries := s.entries ++ entries }

/-- An interruption is noticed when it is next in the script. -/
def takeBreak (s : Script) : Bool × Script :=
  match s.entries with
  | .interrupt :: rest => (true, { s with entries := rest })
  | _ => (false, s)

/-- The next entry of the script. An interruption hides what follows it until it is noticed. -/
def read (s : Script) : KeyRead × Script :=
  match s.entries with
  | .key b :: rest => (.key b, { s with entries := rest })
  | .ended :: rest => (.ended, { s with entries := rest })
  | .pause :: rest => (.nothing, { s with entries := rest })
  | .interrupt :: _ => (.nothing, s)
  | [] => if s.idle = 0 then (.ended, s) else (.nothing, { s with idle := s.idle - 1 })

def write (s : Script) (bytes : List Byte) : Script := { s with output := s.output ++ bytes }

instance : Console Script where
  takeBreak := takeBreak
  read s _ := s.read
  write := write
  message := write
  patience s := s.entries.length + s.idle

end Script

end LittleComputer
