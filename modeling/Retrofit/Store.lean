import Std.Data.HashMap
import Retrofit.Path

/-!
# File stores

A tree of directories and files, as far as a run can see it. Paths are walked piece by piece from
the root or from the working directory. Looking changes nothing; writing adds or replaces one file,
and the directories on the way to it.
-/

namespace Retrofit

/-- Why a path could not be used. -/
inductive AccessError where
  | notFound
  /-- A piece that is not the last one names a file. -/
  | notADirectory
  | isADirectory
  | nameTooLong
  /-- The path holds a NUL character. -/
  | invalidName
  deriving DecidableEq, Repr

namespace AccessError

/-- The wording of an access failure. -/
def message : AccessError → String
  | notFound => "no such file or directory"
  | notADirectory => "not a directory"
  | isADirectory => "is a directory"
  | nameTooLong => "file name too long"
  | invalidName => "file name contained an unexpected NUL byte"

end AccessError

/-- What is at a place of the tree. -/
inductive Item where
  | directory
  | file (bytes : List UInt8)
  deriving DecidableEq, Repr

/-- The names on the way from the root to a place of the tree. -/
abbrev Place := List String

/-- Directories and files. The root is always there. -/
structure Store where
  items : Std.HashMap Place Item
  /-- Where paths that are not absolute start. -/
  workingDirectory : Place

namespace Store

/-- A store that holds nothing but its working directory. -/
def empty (workingDirectory : Place) : Store :=
  ⟨(List.range workingDirectory.length).foldl
    (fun items n => items.insert (workingDirectory.take (n + 1)) .directory) ∅, workingDirectory⟩

/-- What is at a place. -/
def item? (s : Store) (place : Place) : Option Item :=
  if place = [] then some .directory else s.items[place]?

/-- The store with something put at a place. -/
def put (s : Store) (place : Place) (item : Item) : Store :=
  { s with items := s.items.insert place item }

/-! ### Walking -/

/-- The longest path, and the longest name in one, in bytes. -/
def pathLimit : Nat := 4095

def nameLimit : Nat := 255

/-- The pieces of a path and the place where they start. -/
def start (s : Store) (path : String) : Except AccessError (Place × List String) :=
  let cs := path.toList
  if cs.contains '\x00' then .error .invalidName
  else if cs = [] then .error .notFound
  else if pathLimit < path.utf8ByteSize then .error .nameTooLong
  else
    .ok (if Path.isAbsolute cs then [] else s.workingDirectory,
      (Path.split cs).map String.ofList)

/-- One step of a walk from a directory; empty pieces and single dots stay there. -/
def step (s : Store) (place : Place) (piece : String) : Except AccessError Place :=
  match s.item? place with
  | some .directory =>
    if piece = "" ∨ piece = "." then .ok place
    else if piece = ".." then .ok place.dropLast
    else if nameLimit < piece.utf8ByteSize then .error .nameTooLong
    else
      match s.item? (place ++ [piece]) with
      | some _ => .ok (place ++ [piece])
      | none => .error .notFound
  | _ => .error .notADirectory

/-- Where the pieces lead. -/
def walk (s : Store) (place : Place) : List String → Except AccessError Place
  | [] => .ok place
  | piece :: pieces =>
    match s.step place piece with
    | .ok next => s.walk next pieces
    | .error e => .error e

/-- Where a path leads. -/
def locate (s : Store) (path : String) : Except AccessError Place := do
  let (place, pieces) ← s.start path
  s.walk place pieces

/-! ### Looking -/

/-- Whether the path leads to a directory. -/
def isDirectory (s : Store) (path : String) : Except AccessError Bool := do
  let place ← s.locate path
  return s.item? place == some .directory

/-- The content of the file that the path leads to. -/
def read (s : Store) (path : String) : Except AccessError (List UInt8) := do
  match s.item? (← s.locate path) with
  | some (.file bytes) => return bytes
  | some .directory => throw .isADirectory
  | none => throw .notFound

/-- The files in and below a directory: the names on the way down to each. -/
def filesBelow (s : Store) (directory : Place) : List Place :=
  s.items.toList.filterMap fun (place, item) =>
    match item with
    | .file _ => if directory.isPrefixOf place then some (place.drop directory.length) else none
    | .directory => none

/-! ### Writing -/

/-- Walk the pieces, making the directories that are missing. Those made before a failure stay. -/
def makeDirectories (s : Store) (place : Place) : List String → Store × Except AccessError Place
  | [] =>
    match s.item? place with
    | some .directory => (s, .ok place)
    | _ => (s, .error .notADirectory)
  | piece :: pieces =>
    match s.step place piece with
    | .ok next => s.makeDirectories next pieces
    | .error .notFound =>
      (s.put (place ++ [piece]) .directory).makeDirectories (place ++ [piece]) pieces
    | .error e => (s, .error e)

/-- Write a file into a directory that is there. -/
def writeAt (s : Store) (directory : Place) (name : String) (bytes : List UInt8) :
    Except AccessError Store :=
  if name = "" ∨ name = "." ∨ name = ".." then .error .isADirectory
  else if nameLimit < name.utf8ByteSize then .error .nameTooLong
  else
    match s.item? (directory ++ [name]) with
    | some .directory => .error .isADirectory
    | _ => .ok (s.put (directory ++ [name]) (.file bytes))

/-- Write a file, making the directories on the way to it. -/
def write (s : Store) (path : String) (bytes : List UInt8) : Store × Except AccessError Unit :=
  match s.start path with
  | .error e => (s, .error e)
  | .ok (place, pieces) =>
    match s.makeDirectories place pieces.dropLast with
    | (s, .error e) => (s, .error e)
    | (s, .ok directory) =>
      match s.writeAt directory (pieces.getLastD "") bytes with
      | .ok s => (s, .ok ())
      | .error e => (s, .error e)

end Store

end Retrofit
