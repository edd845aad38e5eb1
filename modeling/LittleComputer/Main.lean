import LittleComputer.Simulator

/-!
# The command

The command line program around `LittleComputer.Simulator`. It copies the images that the command
line names into a file store, runs the simulator on it, and copies what the simulator wrote to the
standard output and to the log file. The standard input is read to its end before the run, and only
if there is a run. Lines of the log file carry the time at which the file was made.
-/

namespace LittleComputer.Command

def textOf (s : String) : Text := s.toUTF8.toList.map (·.toBitVec)

/-- Bytes as the operating system takes them. -/
def rawBytes (bytes : List Byte) : ByteArray := ⟨(bytes.map UInt8.ofBitVec).toArray⟩

def stringOf (t : Text) : String := (String.fromUTF8? (rawBytes t)).getD ""

/-- Copies an image into the store. One that cannot be read counts as a directory, unless it does
not exist. -/
def copyImage (s : FileStore) (name : Text) : IO FileStore := do
  try
    let bytes ← IO.FS.readBinFile (stringOf name)
    let contents := { bytes := bytes.data.map (·.toBitVec), failure := none }
    return (s.addParents name).addFile name contents
  catch
    | .noFileOrDirectory .. => return s
    | _ => return (s.addParents name).addDirectory name

/-- Makes the log file, and gives a store in which it can be made too, with the present time. -/
def makeLog (s : FileStore) (name : Text) : IO (FileStore × Moment) := do
  try
    IO.FS.writeFile (stringOf name) ""
    let made := (← ((← IO.currentDir) / stringOf name).metadata).modified
    return (s.addParents name, ⟨made.sec, made.nsec.toNat / 1000⟩)
  catch
    | .noFileOrDirectory .. => return (s, default)
    | _ => return ((s.addParents name).addDirectory name, default)

partial def readAll (input : IO.FS.Stream) (before : ByteArray) : IO ByteArray := do
  let more ← input.read 65536
  if more.isEmpty then return before else readAll input (before ++ more)

/-- Writes what the program wrote, and gives its exit status. -/
def finish (logName : Text) (outcome : Simulator.Outcome) : IO UInt32 := do
  let output ← IO.getStdout
  output.write (rawBytes outcome.host.console.output.toList)
  output.flush
  if let some bytes := outcome.host.files.bytes? logName then
    IO.FS.writeBinFile (stringOf logName) (rawBytes bytes.toList)
  return outcome.status.toUInt32

/-- The number of steps after which a run counts as endless. -/
def budget : Nat := 0x4000000000000000

def runWith (arguments : List Text) : IO UInt32 := do
  let current := (← IO.currentDir).toString
  let mut files := FileStore.empty (FileStore.components (textOf current))
  let mut now : Moment := default
  let mut logName : Text := []
  if let .ok o := Options.read arguments then
    if o.logFile ≠ [] then
      logName := withDefaultExtension o.logFile ".log"
      (files, now) ← makeLog files logName
    for name in o.images do
      files ← copyImage files name
  match Simulator.prepare arguments (Host.new (Window.new false [] []) files now) with
  | .error _ => return 1
  | .ok (.ended outcome) => finish logName outcome
  | .ok (.ready o machine) =>
    let input ← readAll (← IO.getStdin) ByteArray.empty
    let window := { machine.host.console with events := input.toList.map (.byte ·.toBitVec) }
    let machine := { machine with host := { machine.host with console := window } }
    match Simulator.runMachine o budget machine with
    | .error _ => return 1
    | .ok (stop, machine) => finish logName (Simulator.finish stop machine)

end LittleComputer.Command

/-- Reads the command line, simulates, and ends with status zero if the program halted. -/
def main (arguments : List String) : IO UInt32 :=
  LittleComputer.Command.runWith (arguments.map LittleComputer.Command.textOf)
