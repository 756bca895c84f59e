import Retrofit.Event

/-!
# Class paths

Directories and archives in which classes are looked up by name. The first place that holds a class
wins; a place that cannot be searched is passed over with a warning. Of an archive only the reading of
its entries matters here, which may be any function.
-/

namespace Retrofit

/-- A place in which classes are looked up. An archive is known by the reading of its entries. -/
inductive Source where
  | directory (path : String)
  | archive (path : String) (content : String → Except ArchiveError (Option (List UInt8)))

namespace Source

def path : Source → String
  | directory path => path
  | archive path _ => path

/-- The place that a path leads to. A file has to be an archive. -/
def ofPath (s : Store) (path : String) : Except Failure Source :=
  match s.isDirectory path with
  | .error e => .error (.pathUnavailable path (.access e))
  | .ok true => .ok (directory path)
  | .ok false =>
    match s.read path with
    | .error e => .error (.pathUnavailable path (.access e))
    | .ok bytes =>
      match Archive.ofBytes bytes with
      | .error e => .error (.pathUnavailable path (.archive e))
      | .ok a => .ok (archive path a.read?)

/-- The content of an entry, if the place has it. -/
def read? (s : Store) (entry : String) : Source → Except SourceError (Option (List UInt8))
  | directory path =>
    match s.read (Path.below path entry) with
    | .ok bytes => .ok (some bytes)
    | .error .notFound => .ok none
    | .error e => .error (.access e)
  | archive _ content =>
    match content entry with
    | .ok bytes => .ok bytes
    | .error e => .error (.archive e)

end Source

/-- Places in the order in which they are searched. -/
structure ClassPath where
  sources : List Source

namespace ClassPath

def empty : ClassPath := ⟨[]⟩

def isEmpty (cp : ClassPath) : Bool := cp.sources.isEmpty

/-- The paths of the places. -/
def paths (cp : ClassPath) : List String := cp.sources.map Source.path

/-- The class path with one more place at its end. -/
def append (cp : ClassPath) (s : Store) (path : String) : Except Failure ClassPath := do
  return ⟨cp.sources ++ [← Source.ofPath s path]⟩

/-- The class path with one more place, if it can be used; what is told about it, and whether it
could. -/
def register (cp : ClassPath) (s : Store) (path : String) : ClassPath × Event × Bool :=
  match cp.append s path with
  | .ok cp => (cp, .registered path, true)
  | .error e => (cp, .rejected e, false)

/-- The name of the entry that holds a class. -/
def entryName (name : String) : String := ClassName.internal name ++ ".class"

/-- Search places in order for the entry of a class, and tell which of them were passed over. -/
def search (s : Store) (name : String) : List Source → Option (List UInt8) × List Event
  | [] => (none, [])
  | source :: rest =>
    match source.read? s (entryName name) with
    | .ok (some bytes) => (some bytes, [])
    | .ok none => search s name rest
    | .error e =>
      let (found, events) := search s name rest
      (found, .skipped source.path name e :: events)

/-- The bytes of a class, under either spelling of its name. -/
def find? (cp : ClassPath) (s : Store) (name : String) : Option (List UInt8) × List Event :=
  search s name cp.sources

/-- The bytes of a class, or that it is nowhere. -/
def find (cp : ClassPath) (s : Store) (name : String) : Except Failure (List UInt8) × List Event :=
  match cp.find? s name with
  | (some bytes, events) => (.ok bytes, events)
  | (none, events) => (.error (.classNotFound name), events)

/-- Look up a class and decode it. -/
def resolve (cp : ClassPath) (s : Store) (name : String) : Except Failure ClassUnit × List Event :=
  match cp.find s name with
  | (.error e, events) => (.error e, events)
  | (.ok bytes, events) =>
    match ClassUnit.ofBytes bytes with
    | .ok u => (.ok u, events)
    | .error e => (.error (.malformedClass name e), events)

end ClassPath

end Retrofit
