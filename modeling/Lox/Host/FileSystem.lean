/-!
# Files

Programs read, write and append to files by path.  Files are kept by the names that lead to them
from the root.  A directory exists exactly if it leads to a file or to the working directory,
because programs can neither make nor remove directories.
-/

namespace Lox

/-- Why a file cannot be read or written. -/
inductive FileError where
  | nulInName
  | notFound
  | notDirectory
  | isDirectory
  | nameTooLong
  | notText
deriving DecidableEq

def FileError.message : FileError → String
  | nulInName => "file name contained an unexpected NUL byte"
  | notFound => "No such file or directory (os error 2)"
  | notDirectory => "Not a directory (os error 20)"
  | isDirectory => "Is a directory (os error 21)"
  | nameTooLong => "File name too long (os error 36)"
  | notText => "stream did not contain valid UTF-8"

/-- The names that lead from the root to a file or directory. -/
abbrev Location := List String

structure FileSystem where
  workingDirectory : Location := []
  files : List (Location × List UInt8) := []

namespace FileSystem

/-- What a location holds. -/
inductive Entry where
  | directory
  | file (content : List UInt8)

def isDirectory (fs : FileSystem) (location : Location) : Bool :=
  location.isPrefixOf fs.workingDirectory || fs.files.any fun (l, _) ↦ location.isPrefixOf l

def entry? (fs : FileSystem) (location : Location) : Option Entry :=
  match fs.files.lookup location with
  | some content => some (.file content)
  | none => if fs.isDirectory location then some .directory else none

/-- The longest name of a file or directory, in bytes. -/
def maxName : Nat := 255

/-- The longest path, in bytes. -/
def maxPath : Nat := 4095

/-- Follow one name from a directory to another. -/
def enter (fs : FileSystem) (here : Location) (name : String) : Except FileError Location :=
  if name = "." then .ok here
  else if name = ".." then .ok here.dropLast
  else if maxName < name.utf8ByteSize then .error .nameTooLong
  else
    match fs.entry? (here ++ [name]) with
    | some .directory => .ok (here ++ [name])
    | some (.file _) => .error .notDirectory
    | none => .error .notFound

/-- What a path leads to. A vacant location is one where a file can be created. -/
inductive Target where
  | directory
  | file (location : Location) (content : List UInt8)
  | vacant (location : Location)

/-- Follow the last name of a path. Behind a slash it must lead to a directory. -/
def target (fs : FileSystem) (creating slashed : Bool) (here : Location) (name : String) :
    Except FileError Target :=
  if name = "." ∨ name = ".." then .ok .directory
  else if creating && slashed then .error .isDirectory
  else if maxName < name.utf8ByteSize then .error .nameTooLong
  else
    let location := here ++ [name]
    match fs.entry? location with
    | some .directory => .ok .directory
    | some (.file content) =>
      if slashed then .error .notDirectory else .ok (.file location content)
    | none => .ok (.vacant location)

/-- Follow a path. -/
def locate (fs : FileSystem) (creating : Bool) (path : String) : Except FileError Target := do
  if path.toList.contains '\x00' then throw .nulInName
  if path = "" then throw .notFound
  if maxPath < path.utf8ByteSize then throw .nameTooLong
  let names := (path.splitOn "/").filter (· ≠ "")
  let origin := if path.startsWith "/" then [] else fs.workingDirectory
  match names.getLast? with
  | none => return .directory
  | some last =>
    let here ← names.dropLast.foldlM fs.enter origin
    fs.target creating (path.endsWith "/") here last

/-- The content of the file at a path. -/
def read (fs : FileSystem) (path : String) : Except FileError (List UInt8) := do
  match ← fs.locate false path with
  | .directory => throw .isDirectory
  | .file _ content => return content
  | .vacant _ => throw .notFound

def put (fs : FileSystem) (location : Location) (content : List UInt8) : FileSystem :=
  { fs with files := (location, content) :: fs.files.filter (·.1 ≠ location) }

/-- Give the file at a path the content that `change` makes of the old one, creating it if need
be. -/
def update (fs : FileSystem) (path : String) (change : List UInt8 → List UInt8) :
    Except FileError FileSystem := do
  match ← fs.locate true path with
  | .directory => throw .isDirectory
  | .file location content => return fs.put location (change content)
  | .vacant location => return fs.put location (change [])

end FileSystem

end Lox
