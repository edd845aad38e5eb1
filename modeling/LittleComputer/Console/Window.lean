import LittleComputer.Console
import LittleComputer.Fault

/-!
# The console window

The console on top of the standard input and output. If the standard input is a terminal, it is put
into raw mode while the simulated machine reads and writes, and back into cooked mode for messages.
Keys are read ahead into a buffer whenever the window looks for the break character, and the break
character and zero bytes are dropped on the way.

The window here does not call an operating system. What the calls will answer is part of its state,
as two queues of events, and what was asked for is recorded beside them. Without any event left, a
terminal stays silent and everything else is at its end.
-/

namespace LittleComputer

/-- What waiting for input and reading one byte of it will do. -/
inductive KeyEvent where
  | byte (b : Byte)
  | silence
  | endOfFile
  | waitInterrupted
  | waitFailed
  | readInterrupted
  | readFailed
  deriving DecidableEq, Repr

inductive WriteEvent where
  | written
  /-- Writing is interrupted by a signal before the byte is written. -/
  | interrupted
  | failed
  deriving DecidableEq, Repr

/-- The settings of a terminal that matter here. -/
structure TerminalMode where
  /-- How many bytes reading waits for. -/
  minimum : Nat
  /-- How long reading waits, in tenths of a second. -/
  time : Nat
  processesOutput : Bool
  /-- A line feed is shown with a carriage return. -/
  returnsCarriage : Bool
  editsLines : Bool
  echoes : Bool
  signals : Bool
  /-- A carriage return is read as a line feed. -/
  readsLineFeed : Bool
  deriving DecidableEq, Repr

namespace TerminalMode

def cooked : TerminalMode :=
  { minimum := 1, time := 3, processesOutput := true, returnsCarriage := true, editsLines := true
    echoes := true, signals := true, readsLineFeed := true }

/-- Raw settings: keys come one by one, unchanged and at once, but output is still processed, so
that lines start at the left. -/
def raw (found : TerminalMode) : TerminalMode :=
  { found with
    minimum := 0, time := 0, processesOutput := true, returnsCarriage := true, editsLines := false
    echoes := false, signals := false, readsLineFeed := false }

end TerminalMode

/-- What a window does to the standard input and output. -/
inductive Deed where
  | set (mode : TerminalMode)
  | wait (microseconds : Nat)
  | put (b : Byte)
  | tell (text : Text)
  deriving DecidableEq, Repr

/-- The state of the console window, the answers it will get and the record of what it did. -/
structure Window where
  /-- The standard input is a terminal whose settings are known. -/
  isTerminal : Bool
  found : TerminalMode
  inRawMode : Bool
  /-- The break character was read and nobody has asked for it yet. -/
  breakSeen : Bool
  ended : Bool
  keys : List Byte
  events : List KeyEvent
  writes : List WriteEvent
  output : Array Byte
  /-- How long each wait was to last at most, in microseconds. -/
  waits : Array Nat
  settings : Array TerminalMode
  /-- Output, waits and settings together, in the order in which they came. -/
  deeds : Array Deed

namespace Window

def breakCharacter : Byte := 0x05

def new (isTerminal : Bool) (events : List KeyEvent) (writes : List WriteEvent) : Window :=
  { isTerminal, found := .cooked, inRawMode := false, breakSeen := false, ended := false, keys := []
    events, writes, output := #[], waits := #[], settings := #[], deeds := #[] }

/-- Opens the window of a program that may have one already. There can be only one. -/
def open? (current : Option Window) (isTerminal : Bool) (events : List KeyEvent)
    (writes : List WriteEvent) : Except Fault Window :=
  match current with
  | some _ => .error .secondWindow
  | none => .ok (new isTerminal events writes)

/-! ## Deeds -/

/-- Gives settings to the terminal. -/
def set (w : Window) (mode : TerminalMode) : Window :=
  { w with settings := w.settings.push mode, deeds := w.deeds.push (.set mode) }

/-- Waits for input. -/
def wait (w : Window) (microseconds : Nat) : Window :=
  { w with waits := w.waits.push microseconds, deeds := w.deeds.push (.wait microseconds) }

/-- Writes one byte of the simulated machine. -/
def put (w : Window) (b : Byte) : Window :=
  { w with output := w.output.push b, deeds := w.deeds.push (.put b) }

/-- Writes a text of the program itself. -/
def tell (w : Window) (text : Text) : Window :=
  { w with output := w.output ++ text, deeds := w.deeds.push (.tell text) }

/-! ## Requests -/

def rawMode (w : Window) : Window :=
  if w.inRawMode || !w.isTerminal then w else { w.set w.found.raw with inRawMode := true }

def cookedMode (w : Window) : Window :=
  if w.inRawMode then { w.set w.found with inRawMode := false } else w

/-- Shows a message, up to its first zero byte, in cooked mode. -/
def message (w : Window) (text : Text) : Window := w.cookedMode.tell (Text.untilNul text)

/-- Tries to write one byte until that works or fails, and gives the events that are left. -/
def tryWrite : List WriteEvent → Bool × List WriteEvent
  | .interrupted :: rest => tryWrite rest
  | .failed :: rest => (false, rest)
  | .written :: rest => (true, rest)
  | [] => (true, [])

/-- Writes bytes with their first bit cleared, without those that are zero then. A failure loses
the rest. -/
def writeAll : List Byte → Window → Window
  | [], w => w
  | b :: rest, w =>
    let shown := b &&& 0x7F
    if shown = 0 then writeAll rest w
    else
      match tryWrite w.writes with
      | (true, writes) => writeAll rest (put { w with writes } shown)
      | (false, writes) => { w with writes }

def rawWrite (w : Window) (bytes : List Byte) : Window := writeAll bytes w.rawMode

/-- The next event. Without one left, a terminal is silent and other input is at its end. -/
def nextEvent (w : Window) : KeyEvent × Window :=
  match w.events with
  | e :: rest => (e, { w with events := rest })
  | [] => (if w.isTerminal then .silence else .endOfFile, w)

/-- Waits at most `timeout` milliseconds for one key. The break character and zero bytes are taken
but count as no key, and a failure counts as the end of the input, but only the real end is
remembered. -/
def readKey (w : Window) (timeout : Nat) : KeyRead × Window :=
  if w.ended then (.ended, w)
  else
    let w := w.rawMode.wait (timeout * 1000)
    match w.nextEvent with
    | (.byte b, w) =>
      if b = breakCharacter then (.nothing, { w with breakSeen := true })
      else if b = 0 then (.nothing, w)
      else (.key b, w)
    | (.silence, w) | (.waitInterrupted, w) | (.readInterrupted, w) => (.nothing, w)
    | (.waitFailed, w) | (.readFailed, w) => (.ended, w)
    | (.endOfFile, w) => if w.isTerminal then (.nothing, w) else (.ended, { w with ended := true })

/-- Reads keys one after the other until none comes, at most `n`, and gives them in order together
with the answer that was no key. -/
def readKeys (timeout : Nat) : Nat → Window → List Byte × Option KeyRead × Window
  | 0, w => ([], none, w)
  | n + 1, w =>
    match w.readKey timeout with
    | (.key b, w) =>
      let (keys, stop, w) := readKeys timeout n w
      (b :: keys, stop, w)
    | (stop, w) => ([], some stop, w)

/-- Reads ahead every key that has been typed. There is at most one key for each event. -/
def readAhead (w : Window) (timeout : Nat) : Window :=
  let (keys, _, w) := readKeys timeout (w.events.length + 1) w
  if keys.isEmpty then w else { w with keys := w.keys ++ keys }

/-- Reads ahead, and says whether the break character was read since the last time somebody
asked. -/
def takeBreak (w : Window) (timeout : Nat) : Bool × Window :=
  let w := w.readAhead timeout
  (w.breakSeen, { w with breakSeen := false })

/-- Reads at most `n` bytes, first those that were read ahead. There is no result at the end of the
input if nothing was read at all. -/
def rawRead (w : Window) (n timeout : Nat) : Option (List Byte) × Window :=
  let ahead := w.keys.take n
  let (keys, stop, w) := readKeys timeout (n - ahead.length) { w with keys := w.keys.drop n }
  let all := ahead ++ keys
  (if stop = some .ended && all.isEmpty then none else some all, w)

def close (w : Window) : Window := w.cookedMode

instance : Console Window where
  takeBreak w := w.takeBreak 0
  read w timeout :=
    match w.rawRead 1 timeout with
    | (none, w) => (.ended, w)
    | (some [], w) => (.nothing, w)
    | (some (b :: _), w) => (.key b, w)
  write := rawWrite
  message := message
  patience w := w.events.length

end Window

end LittleComputer
