import LittleComputer.Clock
import LittleComputer.FileStore

/-!
# Messages

A message has a severity, and a log sends it to the console, to a file or to both, each of which
asks for a least severity. This module holds the state of a log and the exact form that a message
takes in each place; `LittleComputer.Host` carries the messages there.
-/

namespace LittleComputer

/-- How severe a message is. The ranks 1 to 5 have names, 6 is more severe than every message, and
the others occur only as arguments. -/
abbrev Severity := Fin 8

namespace Severity

def trace : Severity := 1

def debug : Severity := 2

def warning : Severity := 3

def error : Severity := 4

def command : Severity := 5

/-- Nothing is this severe, so a log with this level is silent. -/
def silent : Severity := 6

/-- What the lines of a log file call a severity. -/
def name (s : Severity) : Text :=
  match s.val with
  | 1 => "TRACE" | 2 => "DEBUG" | 3 => "WARN" | 4 => "ERROR" | 5 => "CMDERR" | _ => "UNKNOWN"

/-- The severities that the program itself uses; every other rank counts as `silent`. -/
def normalize (s : Severity) : Severity :=
  if 1 ≤ s.val ∧ s.val ≤ 5 then s else silent

end Severity

structure LogFile where
  path : Path
  /-- The name it was opened with, with its extension. -/
  name : Text
  level : Severity

structure Log where
  /-- What messages call the program. -/
  program : Text
  /-- Whether messages go to the console; otherwise they go to the standard error output. -/
  toConsole : Bool
  level : Severity
  file : Option LogFile

namespace Log

/-- A log that shows warnings and worse and has no file. -/
def new (program : Text) (toConsole : Bool) : Log :=
  { program, toConsole, level := .warning, file := none }

def isShown (l : Log) (s : Severity) : Bool := l.level ≤ s

def isFiled (l : Log) (s : Severity) : Bool :=
  match l.file with
  | some file => file.level ≤ s
  | none => false

def isLogged (l : Log) (s : Severity) : Bool := l.isShown s || l.isFiled s

def fileName (l : Log) : Text := (l.file.map (·.name)).getD []

def fileLevel (l : Log) : Severity := (l.file.map (·.level)).getD .silent

/-- The longest text of a formatted message. -/
def messageLimit : Nat := 1023

/-- The longest message on the console, its decoration included. -/
def shownLimit : Nat := messageLimit + 64

/-- A formatted message is cut to its limit. -/
def formatted (text : Text) : Text := (Text.untilNul text).take messageLimit

/-- The line that shows a message. Traces and debugging messages are marked by their form, and all
others name the program. -/
def shownLine (l : Log) (s : Severity) (text : Text) : Text :=
  let decorated : Text :=
    if s = .trace then "-- " ++ text ++ "\n"
    else if s = .debug then "[" ++ text ++ "]\n"
    else l.program ++ ": " ++ text ++ "\n"
  decorated.take shownLimit

/-- The lines that a message takes in a log file: one for each of its own lines, all with the same
time and severity in front. -/
def filedLines (now : Moment) (s : Severity) (text : Text) : Text :=
  (Text.splitAt Byte.newline text).flatMap fun piece =>
    now.timeOfDay ++ " " ++ s.name ++ "\t" ++ piece ++ "\n"

end Log

end LittleComputer
