import LittleComputer.CommandLine
import LittleComputer.Console.Window
import LittleComputer.Execution
import LittleComputer.Image

/-!
# The simulator

The whole program: it reads its command line, sets up a machine with 65536 words of memory and a
terminal, loads the images in order, runs the machine from the origin of the first one, and says
why it stopped. It succeeds if and only if the simulated program halted.

The program has three parts, so that a caller can hand in the standard input when it is needed:
`prepare` ends before the run, `runMachine` is the run, and `finish` ends the program.
-/

namespace LittleComputer.Simulator

def programName : Text := "LC3SIM"

def version : Nat := 1

/-- The version of its library. -/
def libraryVersion : Nat := 153

def terminalName : Text := "TTY"

def terminalId : DeviceId := 0

/-- The end of a program: whether it succeeded, and the world it leaves behind. -/
structure Outcome where
  succeeded : Bool
  host : Host Window

def Outcome.status (o : Outcome) : Nat := if o.succeeded then 0 else 1

/-- What there is before the run: either a machine that is ready, or the end of the program. -/
inductive Preparation where
  | ready (options : Options) (machine : Machine Window)
  | ended (outcome : Outcome)

/-- Closes the log and then the window. -/
def shutDown (succeeded : Bool) (host : Host Window) : Outcome :=
  let host := host.detachLog
  { succeeded, host := { host with console := host.console.close } }

/-- Loads images in order, up to the first that fails, and sets the program counter to the origin
of the first one. The result says whether all were loaded. -/
def loadImages : List Text → Action Window Bool
  | [] => return true
  | name :: rest => do
    let result ← Machine.loadImage name
    if result.stored.isNone then return false
    else
      Machine.modifyCpu (·.setPc (result.origin.getD 0))
      loadRest rest
where
  loadRest : List Text → Action Window Bool
    | [] => return true
    | name :: rest => do
      let result ← Machine.loadImage name
      if result.stored.isNone then return false else loadRest rest

/-- Shows and files what the options ask for. The result says whether the log file could be
opened. -/
def configureLog (o : Options) (host : Host Window) : Except Fault (Bool × Host Window) :=
  let level := if o.trace then Severity.trace else Severity.debug
  let host := if o.debug then host.modifyLog fun l => { l with level } else host
  if o.logFile = [] then .ok (true, host) else host.openLog o.logFile level false

/-- Makes the machine and loads the images. The result says whether all went well. -/
def setUp (o : Options) : Action Window Bool := do
  Machine.modifyMemory (·.setAllRam)
  Machine.modifyCpu fun c => { c with stopOnIllegal := !o.ignoreIllegal }
  modify (·.addDevice terminalId (Device.newTerminal terminalName true))
  if ← Machine.installDevice terminalId then
    if ← loadImages o.images then
      let pc := (← get).cpu.pc
      Machine.modifyHost (·.reportFormatted .debug ("starting at " ++ Text.address pc))
      return true
    else return false
  else
    Machine.modifyHost (·.report .error ("unable to install " ++ terminalName))
    return false

def prepare (arguments : List Text) (host : Host Window) : Except Fault Preparation := do
  let host ← host.attachLog (Log.new programName true)
  match Options.read arguments with
  | .error e => return .ended (shutDown false (e.messages.foldl (·.report .command ·) host))
  | .ok o =>
    let (opened, host) ← configureLog o host
    if opened then
      let host := host.reportFormatted .debug
        ("LC-3 Simulator v" ++ Text.decimal version ++ " emulator Library v" ++
          Text.decimal libraryVersion)
      let memory ← Memory.new? 65536
      let (ok, machine) ← setUp o (.new memory host)
      if ok then return .ready o machine else return .ended (shutDown false machine.host)
    else return .ended (shutDown false host)

def runMachine (o : Options) (budget : Nat) : Action Window StopCode := Machine.run o.limit budget

def finish (stop : StopCode) (machine : Machine Window) : Outcome :=
  let c := machine.cpu
  let place : Text := " at " ++ Text.address c.lastPc
  let host := { machine.host with console := machine.host.console.cookedMode }
  let host := host.reportFormatted .debug
    (stop.description ++ place ++ " after " ++ Text.decimal c.executed ++ " instructions")
  let host :=
    if stop = .halt ∨ stop = .finished then host
    else host.reportFormatted .warning (stop.description ++ place)
  shutDown (stop = .halt) host

/-- The whole program. A run without a limit is given a number of steps after which it counts as
endless. -/
def simulate (arguments : List Text) (host : Host Window) (budget : Nat) :
    Except Fault Outcome := do
  match ← prepare arguments host with
  | .ended outcome => return outcome
  | .ready o machine =>
    let (stop, machine) ← runMachine o budget machine
    return finish stop machine

end LittleComputer.Simulator
