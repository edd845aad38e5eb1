import LittleComputer.Fault
import LittleComputer.Table

/-!
# Device maps

Which device answers at which address. A device is given a block of consecutive addresses, which
may run past the top of the address space to zero, and a block is installed as a whole or not at
all.
-/

namespace LittleComputer

/-- What tells devices apart. -/
abbrev DeviceId := Nat

/-- The device that owns each address, if there is one. -/
structure DeviceMap where
  owners : Table (Option DeviceId) 16

namespace DeviceMap

def empty : DeviceMap := ⟨.fill none⟩

def owner? (m : DeviceMap) (a : Word) : Option DeviceId := m.owners.get a

/-- The lowest address of a device. -/
def lowest? (m : DeviceMap) (d : DeviceId) : Option Word :=
  (m.owners.first? (· = some d)).map (BitVec.ofNat 16)

def count (m : DeviceMap) : Nat := m.owners.count (·.isSome)

/-- The addresses of a block, in order. -/
def block (first count : Word) : List Word :=
  (List.range count.toNat).map fun i => first + BitVec.ofNat 16 i

/-- Whether some address of a block belongs to a device. -/
def isTaken (m : DeviceMap) (first count : Word) : Bool :=
  (block first count).any fun a => (m.owner? a).isSome

def assign (d : DeviceId) (m : DeviceMap) (a : Word) : DeviceMap := ⟨m.owners.set a (some d)⟩

/-- Gives a block to a device, if none of it is taken, and says whether it did. -/
def install (m : DeviceMap) (d : DeviceId) (first count : Word) :
    Except Fault (Bool × DeviceMap) :=
  if count = 0 then .error .emptyDevice
  else if m.isTaken first count then .ok (false, m)
  else .ok (true, (block first count).foldl (assign d) m)

/-- Takes all its addresses from a device, and says whether it had any. -/
def remove (m : DeviceMap) (d : DeviceId) : Bool × DeviceMap :=
  ((m.lowest? d).isSome, ⟨m.owners.map fun o => if o = some d then none else o⟩)

/-- The stretches of addresses that belong to one device each, in ascending order. -/
def runs (m : DeviceMap) : List (Table.Run DeviceId) :=
  m.owners.runs.filterMap fun r => r.value.map fun d => ⟨r.first, r.last, d⟩

end DeviceMap

end LittleComputer
