import LittleComputer.Word

/-!
# Texts

A text is the list of its bytes, so that names and messages are carried through unchanged whatever
their encoding. String literals stand for the texts of their characters.

The numerals are those of the program's messages: decimal, decimal with a sign, and hexadecimal
with upper case digits, filled up with zeros to a least width.
-/

namespace LittleComputer

/-- A sequence of bytes that is read as characters. -/
abbrev Text := List Byte

namespace Text

/-- The text of a string whose characters are all below 256. -/
def ofString (s : String) : Text := s.toList.map fun c => BitVec.ofNat 8 c.toNat

instance : Coe String Text := ⟨Text.ofString⟩

/-- Everything before the first zero byte, which ends a name or a message. -/
def untilNul (t : Text) : Text := t.takeWhile (· != 0)

/-- The parts of a text between occurrences of `separator`, empty ones included. -/
def splitAt (separator : Byte) : Text → List Text
  | [] => [[]]
  | b :: rest =>
    if b = separator then [] :: splitAt separator rest
    else
      match splitAt separator rest with
      | [] => [[b]]
      | part :: parts => (b :: part) :: parts

def decimalDigit (n : Nat) : Byte := Byte.zeroDigit + BitVec.ofNat 8 n

/-- The decimal numeral of a natural number, without leading zeros. -/
def decimal (n : Nat) : Text :=
  if n < 10 then [decimalDigit n] else decimal (n / 10) ++ [decimalDigit (n % 10)]

def integer : Int → Text
  | .ofNat n => decimal n
  | .negSucc n => Byte.minus :: decimal (n + 1)

/-- The decimal numeral of an integer with zeros between the sign and the digits, so that it has
at least `width` characters. -/
def integerFilled (width : Nat) : Int → Text
  | .ofNat n => (decimal n).leftpad width Byte.zeroDigit
  | .negSucc n => Byte.minus :: (decimal (n + 1)).leftpad (width - 1) Byte.zeroDigit

def upperDigit (d : BitVec 4) : Byte :=
  if d < 10 then Byte.zeroDigit + d.setWidth 8 else 0x37 + d.setWidth 8

def lowerDigit (d : BitVec 4) : Byte :=
  if d < 10 then Byte.zeroDigit + d.setWidth 8 else 0x57 + d.setWidth 8

def hexDigits (n : Nat) : List (BitVec 4) :=
  if n < 16 then [BitVec.ofNat 4 n] else hexDigits (n / 16) ++ [BitVec.ofNat 4 n]

/-- The upper case hexadecimal numeral with at least `width` digits. -/
def hexadecimal (width n : Nat) : Text := ((hexDigits n).leftpad width 0).map upperDigit

/-- The lower case hexadecimal numeral without leading zeros. -/
def lowerHexadecimal (n : Nat) : Text := (hexDigits n).map lowerDigit

def ofWord (w : Word) : Text :=
  [w.extractLsb' 12 4, w.extractLsb' 8 4, w.extractLsb' 4 4, w.extractLsb' 0 4].map upperDigit

def ofByte (b : Byte) : Text := [b.extractLsb' 4 4, b.extractLsb' 0 4].map upperDigit

/-- A word as messages show it: `0x` and four digits. -/
def address (w : Word) : Text := "0x" ++ ofWord w

def lineLimit : Nat := 511

def line (t : Text) : Text := (untilNul t).take lineLimit

/-- A text set in a field of the given width and cut to a line: to the right of the field, or to
its left if the width is negative. A text wider than the field is not cut to it. -/
def field (width : Int) (t : Text) : Text :=
  let body := untilNul t
  let blanks := List.replicate (min (width.natAbs - body.length) lineLimit) Byte.space
  (if width < 0 then body ++ blanks else blanks ++ body).take lineLimit

end Text

end LittleComputer
