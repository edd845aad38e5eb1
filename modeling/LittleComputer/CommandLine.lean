import LittleComputer.Text

/-!
# The command line

    lc3sim [-d] [-t] [-l logfile] [-n count] [-c] image.obj [image.obj ...]

An argument that does not start with a minus sign is an image, whatever else it is. The arguments
are read from left to right, the last log file and the last count win, and there must be an image.
-/

namespace LittleComputer

/-- What a command line asks for. -/
structure Options where
  debug : Bool
  trace : Bool
  ignoreIllegal : Bool
  /-- The number of instructions to stop after, or zero. -/
  limit : BitVec 32
  logFile : Text
  images : List Text
  deriving DecidableEq, Repr

/-- What is wrong with a command line. -/
inductive CommandLineError where
  | missingLogFile
  | missingCount
  | unknownOption (argument : Text)
  | noImage
  deriving DecidableEq, Repr

def usage : Text :=
  "usage: lc3sim [-d] [-t] [-l logfile] [-n count] [-c] image.obj [image.obj ...]"

def CommandLineError.messages : CommandLineError → List Text
  | missingLogFile => ["log file name required for -l"]
  | missingCount => ["instruction count required for -n"]
  | unknownOption argument => ["unknown option \"" ++ argument ++ "\"", usage]
  | noImage => [usage]

namespace Numeral

/-- Blanks, tabs and the ends of lines and pages. -/
def isBlank (b : Byte) : Bool := b == Byte.space || (9 ≤ b && b ≤ 13)

def digit? (b : Byte) : Option Nat :=
  if Byte.zeroDigit ≤ b && b ≤ Byte.zeroDigit + 9 then some (b.toNat - Byte.zeroDigit.toNat)
  else none

/-- The number that decimal digits stand for, after digits that stand for `n`. -/
def ofDigits? (n : Nat) : Text → Option Nat
  | [] => some n
  | b :: rest =>
    match digit? b with
    | some d => ofDigits? (10 * n + d) rest
    | none => none

/-- The number that a text of digits stands for. There must be a digit. -/
def decimal? (t : Text) : Option Nat := if t = [] then none else ofDigits? 0 t

def largest : Nat := 0xFFFFFFFFFFFFFFFF

/-- Reads a whole text as a number of 64 bits: blanks, a sign and decimal digits. A number that is
too large counts as the largest one, and a minus sign negates a number that is not. -/
def read64? (t : Text) : Option (BitVec 64) :=
  let t := t.dropWhile isBlank
  let negative := t.head? == some Byte.minus
  let digits := if negative || t.head? == some Byte.plus then t.tail else t
  (decimal? digits).map fun n =>
    if largest < n then BitVec.ofNat 64 largest
    else if negative then -BitVec.ofNat 64 n else BitVec.ofNat 64 n

end Numeral

namespace Options

def none : Options :=
  { debug := false, trace := false, ignoreIllegal := false, limit := 0, logFile := []
    images := [] }

/-- The count of instructions that a text asks for: the last 32 bits of its number, which must not
be zero. -/
def count? (t : Text) : Option (BitVec 32) :=
  match Numeral.read64? t with
  | some n => if n.setWidth 32 = 0 then .none else some (n.setWidth 32)
  | .none => .none

/-- Reads arguments from left to right, after those that asked for `o`. -/
def readFrom (o : Options) : List Text → Except CommandLineError Options
  | [] => .ok o
  | argument :: rest =>
    if argument.head? ≠ some Byte.minus then
      { o with images := o.images ++ [argument] }.readFrom rest
    else if argument = Text.ofString "-d" then { o with debug := true }.readFrom rest
    else if argument = Text.ofString "-t" then { o with trace := true, debug := true }.readFrom rest
    else if argument = Text.ofString "-c" then { o with ignoreIllegal := true }.readFrom rest
    else if argument = Text.ofString "-l" then
      match rest with
      | [] => .error .missingLogFile
      | name :: rest => { o with logFile := name }.readFrom rest
    else if argument = Text.ofString "-n" then
      match rest with
      | [] => .error .missingCount
      | text :: rest =>
        match count? text with
        | some limit => { o with limit }.readFrom rest
        | .none => .error .missingCount
    else .error (.unknownOption argument)

def read (arguments : List Text) : Except CommandLineError Options :=
  match none.readFrom arguments with
  | .ok o => if o.images = [] then .error .noImage else .ok o
  | .error e => .error e

end Options

end LittleComputer
