import LittleComputer.Text

/-!
# Files

The files and directories that names are resolved in. A name is a sequence of components between
slashes, followed from the current directory or, with a slash in front, from the root. What follows
a zero byte is not part of a name, so several texts can name one file.

`FileStore.read` and `FileStore.create` say which names can be opened and why the others cannot.
-/

namespace LittleComputer

/-- Why a file cannot be opened or read. -/
inductive FileError where
  | notFound
  | notDirectory
  | nameTooLong
  | isDirectory
  | inputOutput
  deriving DecidableEq, Repr

def FileError.message : FileError → Text
  | notFound => "No such file or directory"
  | notDirectory => "Not a directory"
  | nameTooLong => "File name too long"
  | isDirectory => "Is a directory"
  | inputOutput => "Input/output error"

/-- What can be read from an open file: some bytes and then either its end or a failure. -/
structure Contents where
  bytes : Array Byte
  failure : Option FileError
  deriving Inhabited

/-- The components that lead from the root to a file or directory. -/
abbrev Path := List Text

/-- Directories, files and the directory that names are followed from. The root is a directory that
is always there. -/
structure FileStore where
  current : Path
  directories : List Path
  files : List (Path × Contents)
  deriving Inhabited

/-- Where a name leads. -/
inductive Place where
  | directory (path : Path)
  | file (path : Path)
  /-- There is nothing, in a directory that exists. -/
  | vacant (path : Path)
  deriving DecidableEq, Repr

namespace FileStore

def componentLimit : Nat := 255

def nameLimit : Nat := 4095

/-- A store with an empty current directory and the directories above it. -/
def empty (current : Path) : FileStore :=
  { current, files := []
    directories := (List.range (current.length + 1)).map fun n => current.take n }

def file? (s : FileStore) (path : Path) : Option Contents := s.files.lookup path

/-- Follows one component from a directory. -/
def enter (s : FileStore) (here : Path) (name : Text) : Except FileError Place :=
  if name = Text.ofString "." then .ok (.directory here)
  else if name = Text.ofString ".." then .ok (.directory here.dropLast)
  else if componentLimit < name.length then .error .nameTooLong
  else if s.directories.contains (here ++ [name]) then .ok (.directory (here ++ [name]))
  else if (s.file? (here ++ [name])).isSome then .ok (.file (here ++ [name]))
  else .ok (.vacant (here ++ [name]))

/-- Follows components from a place. -/
def follow (s : FileStore) : Place → List Text → Except FileError Place
  | place, [] => .ok place
  | .directory here, name :: rest =>
    match s.enter here name with
    | .ok place => s.follow place rest
    | .error e => .error e
  | .file _, _ :: _ => .error .notDirectory
  | .vacant _, _ :: _ => .error .notFound

/-- The components of a name. Slashes at its ends count for nothing, and repeated slashes count
once. -/
def components (name : Text) : List Text :=
  (Text.splitAt Byte.slash name).filter (· ≠ [])

/-- Where a name leads, which is read up to its first zero byte, and then some more components. -/
def locateThen (s : FileStore) (name : Text) (more : List Text) : Except FileError Place :=
  let name := Text.untilNul name
  if name = [] then .error .notFound
  else if nameLimit < name.length then .error .nameTooLong
  else
    let start : Path := if name.head? = some Byte.slash then [] else s.current
    s.follow (.directory start) (components name ++ more)

/-- Whether a name ends in a slash, and so can only be the name of a directory. -/
def asksForDirectory (name : Text) : Bool := (Text.untilNul name).getLast? == some Byte.slash

/-- Where a name leads. A slash at its end is followed like a step from a directory to itself. -/
def locate (s : FileStore) (name : Text) : Except FileError Place :=
  s.locateThen name (if asksForDirectory name then [Text.ofString "."] else [])

/-- Opens a file for reading. A directory can be opened too, but nothing can be read from it. -/
def read (s : FileStore) (name : Text) : Except FileError Contents :=
  match s.locate name with
  | .ok (.directory _) => .ok ⟨#[], some .isDirectory⟩
  | .ok (.file path) => .ok ((s.file? path).getD default)
  | .ok (.vacant _) => .error .notFound
  | .error e => .error e

def bytes? (s : FileStore) (name : Text) : Option (Array Byte) :=
  match s.locate name with
  | .ok (.file path) => (s.file? path).map (·.bytes)
  | _ => none

def modify (s : FileStore) (path : Path) (f : Contents → Contents) : FileStore :=
  { s with files := s.files.map fun (p, c) => if p = path then (p, f c) else (p, c) }

def append (s : FileStore) (path : Path) (bytes : Text) : FileStore :=
  s.modify path fun c => { c with bytes := c.bytes ++ bytes }

/-- Opens a file for writing, and makes it if there is none. Its old contents stay in front of what
will be written if `keep` is set, and are dropped otherwise. -/
def create (s : FileStore) (name : Text) (keep : Bool) : Except FileError (Path × FileStore) :=
  match s.locate name with
  | .ok (.directory _) => .error .isDirectory
  | .ok (.file path) =>
    .ok (path, if keep then s else s.modify path fun c => { c with bytes := #[] })
  | .ok (.vacant path) => .ok (path, { s with files := (path, ⟨#[], none⟩) :: s.files })
  | .error e => .error e

/-- Makes a directory under a name that leads nowhere yet. The name may end in a slash, although
the directory is not there to be entered. -/
def addDirectory (s : FileStore) (name : Text) : FileStore :=
  match s.locateThen name [] with
  | .ok (.vacant path) => { s with directories := path :: s.directories }
  | _ => s

/-- The directories on the way to a name, the outermost one first. -/
def parents (name : Text) : List Text :=
  (List.range name.length).filterMap fun i =>
    if i ≠ 0 ∧ name[i]? = some Byte.slash then some (name.take i) else none

def addParents (s : FileStore) (name : Text) : FileStore :=
  (parents (Text.untilNul name)).foldl addDirectory s

/-- Puts a file under a name, in place of the one that has the name already. -/
def addFile (s : FileStore) (name : Text) (contents : Contents) : FileStore :=
  match s.locate name with
  | .ok (.vacant path) => { s with files := (path, contents) :: s.files }
  | .ok (.file path) => s.modify path fun _ => contents
  | _ => s

end FileStore

/-- A file name with a default extension, which is added if no dot follows the last slash. Zero
bytes count like all others here. -/
def withDefaultExtension (name extension : Text) : Text :=
  if (name.reverse.takeWhile (· ≠ Byte.slash)).contains Byte.dot then name else name ++ extension

end LittleComputer
