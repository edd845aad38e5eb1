import LittleComputer.Terminal

/-!
# Devices

A device owns a block of addresses and answers when the processor reads or writes one of them. A
plain device reads as all ones and ignores writes; an echo device remembers the last word written
to it; a terminal talks to the console.
-/

namespace LittleComputer

/-- What a device does. -/
inductive DeviceKind where
  | plain
  /-- Holds the word that was written last. -/
  | echo (last : Word)
  | terminal (t : Terminal)

namespace DeviceKind

/-- The kind as the operator sees it. -/
def typeName : DeviceKind → Text
  | plain => "PLAIN"
  | echo _ => "ECHO"
  | terminal _ => "TERMINAL"

/-- The kind as messages call it. -/
def description : DeviceKind → Text
  | plain => "Plain Device"
  | echo _ => "Echo Device"
  | terminal _ => "Console Terminal"

end DeviceKind

/-- A device with its block of addresses. -/
structure Device where
  name : Text
  kind : DeviceKind
  /-- Whether the processor may expect something from reading. -/
  input : Bool
  /-- Whether the processor may expect something from writing. -/
  output : Bool
  base : Word
  count : Word

namespace Device

/-- A device, which must have at least one address. -/
def new? (name : Text) (kind : DeviceKind) (input output : Bool) (base count : Word) :
    Except Fault Device :=
  if count = 0 then .error .emptyDevice else .ok { name, kind, input, output, base, count }

/-- A terminal at its usual place. -/
def newTerminal (name : Text) (attached : Bool) : Device :=
  { name, kind := .terminal (.new attached), input := true, output := true
    base := Terminal.keyboardStatus, count := Terminal.registerCount }

/-- The last address, which is not reduced if the block runs past the top of the address space. -/
def last (d : Device) : Nat := d.base.toNat + d.count.toNat - 1

def clear (d : Device) : Device :=
  match d.kind with
  | .plain => d
  | .echo _ => { d with kind := .echo 0 }
  | .terminal t => { d with kind := .terminal t.clear }

def describe (d : Device) : Text :=
  let place : Text := d.name ++ " (" ++ d.kind.description ++ ") at 0x" ++
    Text.lowerHexadecimal d.base.toNat ++ "..0x" ++ Text.lowerHexadecimal d.last
  match d.kind with
  | .terminal t => t.describe ++ place
  | _ => place

variable {κ : Type} [Console κ]

/-- Reads the register at an address. A terminal may stop the processor, whose stop code and host
are handed in and out. -/
def read (d : Device) (address : Word) (stop : StopCode) (host : Host κ) :
    Except Fault (Word × Device × StopCode × Host κ) :=
  match d.kind with
  | .plain => .ok (Word.allOnes, d, stop, host)
  | .echo last => .ok (last + (address - d.base), d, stop, host)
  | .terminal t =>
    match Terminal.Session.readRegister d.name address ⟨t, stop, host⟩ with
    | .ok (w, s) => .ok (w, { d with kind := .terminal s.terminal }, s.stop, s.host)
    | .error e => .error e

def write (d : Device) (address value : Word) (host : Host κ) : Except Fault (Device × Host κ) :=
  match d.kind with
  | .plain => .ok (d, host)
  | .echo _ => .ok ({ d with kind := .echo value }, host)
  | .terminal t =>
    match Terminal.Session.writeRegister address value ⟨t, .running, host⟩ with
    | .ok s => .ok (d, s.host)
    | .error e => .error e

end Device

end LittleComputer
