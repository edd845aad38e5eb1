import LittleComputer.Machine

/-!
# Program images

An image is a sequence of words, the more significant byte first: an origin, and the words that
belong at consecutive addresses from there on. `Image.ofBytes?` reads an image and `Image.toBytes`
writes one.

Words that do not fit below the end of memory are dropped, and so is an odd byte at the end. Both
get only a warning. A file that cannot be read, or that has no word after its origin, is an error.
-/

namespace LittleComputer

/-- An image as it was read. -/
structure Image where
  origin : Word
  words : List Word
  /-- Whether one more byte followed the last word. -/
  oddByte : Bool
  deriving DecidableEq, Repr

namespace Image

/-- The complete words of a sequence of bytes, and whether one byte is left over. -/
def wordsOf : List Byte → List Word × Bool
  | high :: low :: rest =>
    let (words, odd) := wordsOf rest
    (Word.ofBytes high low :: words, odd)
  | [_] => ([], true)
  | [] => ([], false)

/-- Reads an image, which must have an origin. -/
def ofBytes? : List Byte → Option Image
  | high :: low :: rest =>
    let (words, oddByte) := wordsOf rest
    some { origin := Word.ofBytes high low, words, oddByte }
  | _ => none

def bytesOf (w : Word) : List Byte := [Word.highByte w, Word.lowByte w]

def toBytes (origin : Word) (words : List Word) : List Byte :=
  bytesOf origin ++ words.flatMap bytesOf

/-- How many words of an image fit into a memory with `size` words. -/
def fitting (i : Image) (size : Nat) : Nat := min i.words.length (size - i.origin.toNat)

end Image

/-- Stores words at consecutive addresses. -/
def Memory.place (m : Memory) (a : Word) (words : List Word) : Memory :=
  { m with words := go m.words a words }
where
  go (table : Table Word 16) (a : Word) : List Word → Table Word 16
    | [] => table
    | w :: rest => go (table.set a w) (a + 1) rest

/-- The result of loading an image: the number of words stored, unless there was an error, and the
origin, if the file has one. -/
structure LoadResult where
  stored : Option Nat
  origin : Option Word
  deriving DecidableEq, Repr

namespace Machine

variable {κ : Type} [Console κ]

/-- Logs an error about a file. A zero byte in its name ends the message. -/
def fileError (problem name : Text) (cause : Option FileError) : Action κ Unit :=
  modifyHost (·.report .error
    (match cause with
    | some e => problem ++ " " ++ name ++ " - " ++ e.message
    | none => problem ++ " - " ++ name))

/-- Stores an image that was read from the named file, after whose bytes came `failure` or the
end. Formatted messages show the name up to its first zero byte; the others end there. -/
def placeImage (name : Text) (image : Image) (failure : Option FileError) :
    Action κ LoadResult := do
  let size := (← get).memory.size
  let stored := image.fitting size
  modify fun m =>
    { m with memory := m.memory.place image.origin (image.words.take stored) }
  let truncated := stored < image.words.length
  if truncated then
    let top := (← get).memory.top
    modifyHost (·.reportFormatted .warning
      (Text.untilNul name ++ " truncated at " ++ Text.address top))
  else if image.oddByte then
    modifyHost (·.report .warning (name ++ " has an odd number of bytes"))
  match (if truncated then none else failure) with
  | some e =>
    fileError "error reading" name (some e)
    return ⟨none, some image.origin⟩
  | none =>
    if stored = 0 then
      fileError "no data in file" name none
      return ⟨none, some image.origin⟩
    else
      modifyHost (·.reportFormatted .debug
        ("loaded " ++ Text.decimal stored ++ " words from " ++ Text.untilNul name ++ " at " ++
          Text.address image.origin))
      return ⟨some stored, some image.origin⟩

/-- Loads the image in the named file. The marks of the memory do not matter. -/
def loadImage (name : Text) : Action κ LoadResult := do
  match (← get).host.files.read name with
  | .error e =>
    fileError "unable to open" name (some e)
    return ⟨none, none⟩
  | .ok contents =>
    match Image.ofBytes? contents.bytes.toList with
    | none =>
      fileError "no origin in file" name none
      return ⟨none, none⟩
    | some image => placeImage name image contents.failure

end Machine

end LittleComputer
