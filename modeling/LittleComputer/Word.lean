/-!
# Words and bytes

Memory locations, registers and addresses are all sixteen bit words, and address arithmetic wraps
around at the top of memory. Bytes are what the keyboard, the display and files are made of.
-/

namespace LittleComputer

/-- A memory location, a register or an address. -/
abbrev Word := BitVec 16

abbrev Byte := BitVec 8

namespace Word

def lowByte {n : Nat} (x : BitVec n) : Byte := x.setWidth 8

/-- Bits 8 to 15 of a value of any width. -/
def highByte {n : Nat} (x : BitVec n) : Byte := x.extractLsb' 8 8

/-- The word with the given bytes, the more significant one first. -/
def ofBytes (high low : Byte) : Word := high ++ low

def ofByte (b : Byte) : Word := b.setWidth 16

/-- Whether two values have a one bit in common. -/
def meets {n : Nat} (x y : BitVec n) : Bool := x &&& y != 0

def lowThree {n : Nat} (x : BitVec n) : BitVec 3 := x.setWidth 3

def toAddress {n : Nat} (x : BitVec n) : Word := x.setWidth 16

/-- Fills every bit from `bits` upwards with ones if bit `bits - 1` is set, and changes nothing
otherwise. On a field that is already cut to `bits` bits this is sign extension. -/
def extendSign (bits : Nat) (w : Word) : Word :=
  if w.getLsbD (bits - 1) then w ||| (BitVec.allOnes 16 <<< bits) else w

/-- The least significant `bits` bits, read as a two's complement number. -/
def signed (bits : Nat) (w : Word) : Word := (w.setWidth bits).signExtend 16

/-- Every bit set: the value of a location where nothing answers. -/
def allOnes : Word := 0xFFFF

end Word

namespace Byte

def newline : Byte := 0x0A
def carriageReturn : Byte := 0x0D
def tab : Byte := 0x09
def space : Byte := 0x20
def slash : Byte := 0x2F
def dot : Byte := 0x2E
def minus : Byte := 0x2D
def plus : Byte := 0x2B
def zeroDigit : Byte := 0x30

end Byte

end LittleComputer
