import LittleComputer.Console
import LittleComputer.Fault
import LittleComputer.Log

/-!
# The host

Everything outside of the simulated machine: the console, the files, the log and the standard
error output. The log is optional, and without one every message is dropped.
-/

namespace LittleComputer

/-- The world around a machine. -/
structure Host (κ : Type) where
  console : κ
  files : FileStore
  log : Option Log
  /-- What was written to the standard error output. -/
  errors : Array Byte
  /-- The time that log files are stamped with. -/
  now : Moment

namespace Host

variable {κ : Type} [Console κ]

def new (console : κ) (files : FileStore) (now : Moment) : Host κ :=
  { console, files, log := none, errors := #[], now }

def isLogged (h : Host κ) (s : Severity) : Bool :=
  match h.log with
  | some l => l.isLogged s
  | none => false

def fileMessage (h : Host κ) (l : Log) (s : Severity) (text : Text) : Host κ :=
  match l.file with
  | some file =>
    if file.level ≤ s then
      { h with files := h.files.append file.path (Log.filedLines h.now s text) }
    else h
  | none => h

def showMessage (h : Host κ) (l : Log) (s : Severity) (text : Text) : Host κ :=
  if l.isShown s then
    if l.toConsole then { h with console := Console.message h.console (l.shownLine s text) }
    else { h with errors := h.errors ++ l.shownLine s text }
  else h

/-- Sends a message, up to its first zero byte, to the log file and then to the console, as far as
each wants it. -/
def send (h : Host κ) (s : Severity) (text : Text) : Host κ :=
  match h.log with
  | some l => (h.fileMessage l s (Text.untilNul text)).showMessage l s (Text.untilNul text)
  | none => h

/-- Logs a message of any length. -/
def report (h : Host κ) (s : Severity) (text : Text) : Host κ :=
  if h.isLogged s then h.send s text else h

/-- Logs a formatted message, which is cut to its limit. -/
def reportFormatted (h : Host κ) (s : Severity) (text : Text) : Host κ :=
  h.report s (Log.formatted text)

def modifyLog (h : Host κ) (f : Log → Log) : Host κ := { h with log := h.log.map f }

/-- Attaches a log. There can be only one. -/
def attachLog (h : Host κ) (l : Log) : Except Fault (Host κ) :=
  match h.log with
  | some _ => .error .secondLog
  | none => .ok { h with log := some l }

/-- Closes the log file, if one is open, after a last message in it. -/
def closeLog (h : Host κ) : Host κ :=
  match h.log.bind (·.file) with
  | some file =>
    (h.report .debug ("log " ++ file.name ++ " closed")).modifyLog fun l => { l with file := none }
  | none => h

/-- Opens a log file in place of the one that is open, and says whether that worked. The name gets
the extension `.log` by default. Old contents of the file are kept in front if `keep` is set.
Without a log there is nothing to open a file for. -/
def openLog (h : Host κ) (name : Text) (level : Severity) (keep : Bool) :
    Except Fault (Bool × Host κ) :=
  if h.log.isNone then .ok (false, h)
  else if name = [] then .error .unnamedLog
  else
    let h := h.closeLog
    let name := withDefaultExtension name ".log"
    match h.files.create name keep with
    | .error e =>
      .ok (false, h.report .command ("unable to open log " ++ name ++ " - " ++ e.message))
    | .ok (path, files) =>
      let h := { h with files }.modifyLog fun l => { l with file := some { path, name, level } }
      .ok (true, h.report .debug ("log " ++ name ++ " opened"))

def detachLog (h : Host κ) : Host κ := { h.closeLog with log := none }

end Host

end LittleComputer
