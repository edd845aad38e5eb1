import LittleComputer.Cpu
import LittleComputer.Host

/-!
# The terminal

The keyboard and the display are four registers at every other address from `0xFE00`. The keyboard
holds at most one character; while it holds one, or once its input has ended, the console is not
asked for another. Reading the data register waits for a character, and gives up with all ones when
the input ends or the processor is stopped.

The functions here work on a `Session`: the terminal, the stop code of the processor and the host.
-/

namespace LittleComputer

structure Terminal where
  buffer : Byte
  /-- Whether the last character has not been read yet. -/
  ready : Bool
  ended : Bool
  /-- Whether the operator's interruptions stop the processor. -/
  attached : Bool
  deriving DecidableEq, Repr

namespace Terminal

/-- The keyboard status register, with its first bit set when a character is waiting. -/
def keyboardStatus : Word := 0xFE00

def keyboardData : Word := 0xFE02

def displayStatus : Word := 0xFE04

def displayData : Word := 0xFE06

/-- The number of addresses from the first to the last register. -/
def registerCount : Word := 7

/-- The value of a status register whose device is ready. -/
def readyBit : Word := 0x8000

/-- What the data register reads as when there will be no character. -/
def noCharacter : Word := 0xFFFF

/-- How many milliseconds one look at the keyboard takes at most while waiting for a character. -/
def pollTimeout : Nat := 100

def new (attached : Bool) : Terminal := { buffer := 0, ready := false, ended := false, attached }

def clear (t : Terminal) : Terminal := { t with buffer := 0, ready := false }

/-- Programs expect a line feed at the end of a line. -/
def received (b : Byte) : Byte := if b = Byte.carriageReturn then Byte.newline else b

def describe (t : Terminal) : Text :=
  Text.line ("KBSR=" ++ Text.ofWord (if t.ready then readyBit else 0) ++
    " KBDR=" ++ Text.ofWord (Word.ofByte t.buffer) ++ " DSR=" ++ Text.ofWord readyBit ++
    (if t.ended then Text.ofString " EOF" else []) ++ "\n")

/-- What an access to a terminal can change. -/
structure Session (κ : Type) where
  terminal : Terminal
  stop : StopCode
  host : Host κ

variable {κ : Type} [Console κ]

/-- Takes notice of an interruption, which stops the processor if the terminal is attached. -/
def Session.noticeBreak (s : Session κ) : Session κ :=
  let (asked, console) := Console.takeBreak s.host.console
  { s with
    host := { s.host with console }
    stop := if asked && s.terminal.attached then .interrupted else s.stop }

/-- Asks the console for a character, for the terminal with the given name. -/
def Session.receive (name : Text) (timeout : Nat) (s : Session κ) : Session κ :=
  let (answer, console) := Console.read s.host.console timeout
  let host := { s.host with console }
  match answer with
  | .key b => { s with host, terminal := { s.terminal with buffer := received b, ready := true } }
  | .nothing => { s with host }
  | .ended =>
    { s with
      host := host.report .debug ("end of file on " ++ name)
      terminal := { s.terminal with ended := true } }

/-- Looks at the console: first for an interruption, and then for a character if none is waiting
and the input has not ended. -/
def Session.poll (name : Text) (timeout : Nat) (s : Session κ) : Session κ :=
  let s := s.noticeBreak
  if s.terminal.ready || s.terminal.ended then s else s.receive name timeout

/-- Waits for a character, looking at the console at most `tries` times. -/
def Session.await (name : Text) : Nat → Session κ → Except Fault (Word × Session κ)
  | tries, s =>
    if s.terminal.ready then
      .ok (Word.ofByte s.terminal.buffer, { s with terminal := { s.terminal with ready := false } })
    else if s.terminal.ended then .ok (noCharacter, s)
    else if s.terminal.attached && s.stop != .running then .ok (noCharacter, s)
    else
      match tries with
      | 0 => .error .stalled
      | tries + 1 => Session.await name tries (s.poll name pollTimeout)

def Session.readRegister (name : Text) (address : Word) (s : Session κ) :
    Except Fault (Word × Session κ) :=
  if address < keyboardStatus then .error (.port address)
  else if address = keyboardStatus then
    let s := s.poll name 0
    .ok (if s.terminal.ready then readyBit else 0, s)
  else if address = keyboardData then
    s.await name (Console.patience s.host.console + 1)
  else if address = displayStatus then .ok (readyBit, s)
  else .ok (0, s)

/-- Writes the register at an address. Only the display data register takes notice. -/
def Session.writeRegister (address value : Word) (s : Session κ) : Except Fault (Session κ) :=
  if address < keyboardStatus then .error (.port address)
  else if address = displayData then
    let console := Console.write s.host.console [Word.lowByte value]
    .ok { s with host := { s.host with console } }
  else .ok s

end Terminal

end LittleComputer
