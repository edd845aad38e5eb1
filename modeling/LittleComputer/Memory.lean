import LittleComputer.Fault
import LittleComputer.Table

/-!
# Memory

A memory has a word and three marks at each of its addresses: whether there is ordinary memory,
whether a device answers instead, and whether a run stops there. The operator reads and writes the
words whatever the marks say; the processor's accesses are in `LittleComputer.Machine`.

Every operation on an address beyond the end is a fault, and so is a range that is not inside
memory.
-/

namespace LittleComputer

/-- Words and marks for the addresses below `size`. -/
structure Memory where
  size : Nat
  words : Table Word 16
  /-- There is ordinary memory. -/
  ram : Table Bool 16
  /-- A device answers. -/
  io : Table Bool 16
  /-- A run stops before executing what is here. -/
  breaks : Table Bool 16
  size_pos : 0 < size
  size_le : size ≤ 65536

namespace Memory

/-- A memory of a given size, with zeros everywhere and no marks. -/
def new? (size : Nat) : Except Fault Memory :=
  if h : 0 < size ∧ size ≤ 65536 then
    .ok { size, words := .fill 0, ram := .fill false, io := .fill false, breaks := .fill false
          size_pos := h.1, size_le := h.2 }
  else .error (.memorySize size)

def top (m : Memory) : Word := BitVec.ofNat 16 (m.size - 1)

def isValid (m : Memory) (a : Word) : Bool := a.toNat < m.size

def check (m : Memory) (a : Word) : Except Fault Unit :=
  if m.isValid a then .ok () else .error (.address a)

def checkRange (m : Memory) (first last : Word) : Except Fault Unit :=
  if m.isValid first && m.isValid last && first ≤ last then .ok () else .error (.range first last)

/-- The word at an address, whatever the marks say. -/
def peek (m : Memory) (a : Word) : Except Fault Word := do
  m.check a
  return m.words.get a

/-- Changes the word at an address, whatever the marks say. -/
def poke (m : Memory) (a w : Word) : Except Fault Memory := do
  m.check a
  return { m with words := m.words.set a w }

/-- The words from an address on, wrapping around. -/
def peekAll (m : Memory) (a : Word) : Nat → Except Fault (List Word)
  | 0 => return []
  | n + 1 => do
    let w ← m.peek a
    return w :: (← m.peekAll (a + 1) n)

/-- Stores words from an address on, wrapping around. -/
def pokeAll (m : Memory) (a : Word) : List Word → Except Fault Memory
  | [] => return m
  | w :: rest => do (← m.poke a w).pokeAll (a + 1) rest

/-- Stores one word at every address from `first` to `last`; there are none if `last` is less. -/
def pokeRange (m : Memory) (first last w : Word) : Except Fault Memory :=
  if last < first then .ok m
  else do
    m.checkRange first last
    return { m with words := m.words.fillRange first last w }

def clear (m : Memory) : Memory := { m with words := .fill 0 }

/-- Whether there is ordinary memory at an address and no device in front of it. -/
def isRam (m : Memory) (a : Word) : Except Fault Bool := do
  m.check a
  return m.ram.get a && !m.io.get a

def isIo (m : Memory) (a : Word) : Except Fault Bool := do
  m.check a
  return m.io.get a

def isBreak (m : Memory) (a : Word) : Except Fault Bool := do
  m.check a
  return m.breaks.get a

/-- Marks a range as ordinary memory, also where devices answered. -/
def setRam (m : Memory) (first last : Word) : Except Fault Memory := do
  m.checkRange first last
  return { m with
    ram := m.ram.fillRange first last true
    io := m.io.fillRange first last false }

def setAllRam (m : Memory) : Except Fault Memory := m.setRam 0 m.top

/-- Marks a range as nonexistent memory, also where devices answered. -/
def setNonexistent (m : Memory) (first last : Word) : Except Fault Memory := do
  m.checkRange first last
  return { m with
    ram := m.ram.fillRange first last false
    io := m.io.fillRange first last false }

/-- Marks a range as answered by a device or not; what is underneath stays. -/
def setIo (m : Memory) (first last : Word) (on : Bool) : Except Fault Memory := do
  m.checkRange first last
  return { m with io := m.io.fillRange first last on }

def setBreak (m : Memory) (a : Word) (on : Bool) : Except Fault Memory := do
  m.check a
  return { m with breaks := m.breaks.set a on }

def clearBreaks (m : Memory) : Memory := { m with breaks := .fill false }

/-- The marks of one address, as the operator sees them. -/
structure Marks where
  ram : Bool
  io : Bool
  isBreak : Bool
  deriving DecidableEq, Repr

/-- The stretches of addresses with equal marks, in ascending order. -/
def map (m : Memory) : List (Table.Run Marks) :=
  let marks := Table.zipWith (fun (ram, io) isBreak => Marks.mk (ram && !io) io isBreak)
    (Table.zipWith Prod.mk m.ram m.io) m.breaks
  (marks.runs.filter (·.first < m.size)).map fun r => { r with last := min r.last (m.size - 1) }

/-- The addresses whose words differ from those of an earlier memory, with their new words. -/
def changesSince (old new : Memory) : List (Nat × Word) := old.words.changes new.words

end Memory

end LittleComputer
