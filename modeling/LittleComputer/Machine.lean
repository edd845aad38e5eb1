import LittleComputer.Device
import LittleComputer.DeviceMap
import LittleComputer.Memory

/-!
# The machine

A processor, a memory, the devices with the map that says where they answer, and the host. This
module holds what the parts do to each other: the accesses of the processor to memory, which may
reach a device, and the installation of devices.
-/

namespace LittleComputer

/-- The whole state of a simulation. -/
structure Machine (κ : Type) where
  cpu : Cpu
  memory : Memory
  map : DeviceMap
  devices : List (DeviceId × Device)
  host : Host κ

/-- A step of a simulation: it changes a machine and has a result, or ends in a fault. -/
abbrev Action (κ α : Type) := StateT (Machine κ) (Except Fault) α

namespace Machine

variable {κ : Type} [Console κ]

/-- A machine after power on, without devices. -/
def new (memory : Memory) (host : Host κ) : Machine κ :=
  { cpu := .initial, memory, map := .empty, devices := [], host }

/-! ## Parts -/

def device? (m : Machine κ) (d : DeviceId) : Option Device := m.devices.lookup d

/-- Adds a device, or replaces the one with the same number. It is not installed anywhere. -/
def addDevice (m : Machine κ) (d : DeviceId) (device : Device) : Machine κ :=
  { m with devices := (d, device) :: m.devices.filter (·.1 ≠ d) }

def setDevice (m : Machine κ) (d : DeviceId) (device : Device) : Machine κ :=
  { m with devices := m.devices.map fun entry => if entry.1 = d then (d, device) else entry }

def getDevice (d : DeviceId) : Action κ Device := fun m =>
  match m.device? d with
  | some device => .ok (device, m)
  | none => .error .unknownDevice

def modifyCpu (f : Cpu → Cpu) : Action κ Unit := fun m => .ok ((), { m with cpu := f m.cpu })

def modifyMemory (f : Memory → Except Fault Memory) : Action κ Unit := fun m =>
  match f m.memory with
  | .ok memory => .ok ((), { m with memory })
  | .error e => .error e

def askMemory {α : Type} (f : Memory → Except Fault α) : Action κ α := fun m =>
  match f m.memory with
  | .ok a => .ok (a, m)
  | .error e => .error e

def modifyHost (f : Host κ → Host κ) : Action κ Unit := fun m =>
  .ok ((), { m with host := f m.host })

/-! ## Accesses of the processor -/

def readDevice (d : DeviceId) (a : Word) : Action κ Word := fun m =>
  match m.device? d with
  | none => .error .unknownDevice
  | some device =>
    match device.read a m.cpu.stop m.host with
    | .error e => .error e
    | .ok (w, device, stop, host) =>
      .ok (w, { m with cpu := { m.cpu with stop }, host }.setDevice d device)

def writeDevice (d : DeviceId) (a w : Word) : Action κ Unit := fun m =>
  match m.device? d with
  | none => .error .unknownDevice
  | some device =>
    match device.write a w m.host with
    | .error e => .error e
    | .ok (device, host) => .ok ((), { m with host }.setDevice d device)

/-- Reads the register of the device at an address. Where there is no device, all ones are read. -/
def readMapped (a : Word) : Action κ Word := fun m =>
  match m.map.owner? a with
  | some d => readDevice d a m
  | none => .ok (Word.allOnes, m)

def writeMapped (a w : Word) : Action κ Unit := fun m =>
  match m.map.owner? a with
  | some d => writeDevice d a w m
  | none => .ok ((), m)

/-- Reads a word for the processor: from a device, from ordinary memory, or all ones. -/
def load (a : Word) : Action κ Word := fun m =>
  if m.memory.isValid a then
    if m.memory.io.get a then readMapped a m
    else .ok (if m.memory.ram.get a then m.memory.words.get a else Word.allOnes, m)
  else .error (.address a)

/-- Writes a word for the processor: to a device or to ordinary memory. Anywhere else there is
only a warning. -/
def store (a w : Word) : Action κ Unit := fun m =>
  if m.memory.isValid a then
    if m.memory.io.get a then writeMapped a w m
    else if m.memory.ram.get a then
      .ok ((), { m with memory := { m.memory with words := m.memory.words.set a w } })
    else
      let warning : Text := "write to nonexistent memory at " ++ Text.address a
      .ok ((), { m with host := m.host.reportFormatted .warning warning })
  else .error (.address a)

/-! ## Installation of devices -/

/-- Installs a device at its own block of addresses, if no other device has any of them, and says
whether it did. -/
def installDevice (d : DeviceId) : Action κ Bool := fun m =>
  match m.device? d with
  | none => .error .unknownDevice
  | some device =>
    match m.map.install d device.base device.count with
    | .error e => .error e
    | .ok (false, _) => .ok (false, m)
    | .ok (true, map) =>
      match m.memory.setIo device.base (device.base + device.count - 1) true with
      | .error e => .error e
      | .ok memory => .ok (true, { m with map, memory })

/-- Removes a device from all its addresses, which become what they were underneath, and says
whether it had any. -/
def removeDevice (d : DeviceId) : Action κ Bool := fun m =>
  match m.device? d with
  | none => .error .unknownDevice
  | some device =>
    match m.map.lowest? d with
    | none => .ok (false, m)
    | some first =>
      match m.memory.setIo first (first + device.count - 1) false with
      | .error e => .error e
      | .ok memory => .ok (true, { m with map := (m.map.remove d).2, memory })

def clearDevice (d : DeviceId) : Action κ Unit := do
  let device ← getDevice d
  modify (·.setDevice d device.clear)

def deviceNameAt (m : Machine κ) (a : Word) : Option Text :=
  ((m.map.owner? a).bind m.device?).map (·.name)

end Machine

end LittleComputer
