import Retrofit.Archive.Directory
import Retrofit.Compression.Bzip2
import Retrofit.Compression.Deflate
import Retrofit.Compression.Xz
import Retrofit.Compression.Zstandard

/-!
# Archives

An archive holds named entries behind one another, and a directory that says where each entry
starts. The content of an entry is stored as it is or packed by one of several methods.
-/

namespace Retrofit

/-- Why an archive or an entry could not be read. -/
inductive ArchiveError where
  | noDirectory
  | encrypted
  | unknownMethod (method : Nat)
  | corrupt
  deriving DecidableEq, Repr

namespace ArchiveError

/-- The wording of an archive failure. -/
def message : ArchiveError → String
  | noDirectory => "invalid archive: no directory found"
  | encrypted => "the entry is encrypted"
  | unknownMethod method => s!"compression method {method} is not supported"
  | corrupt => "the entry is corrupt"

end ArchiveError

/-- An archive whose directory has been read. -/
structure Archive where
  data : Array UInt8
  entries : List ArchiveEntry

namespace Archive

/-- Read the directory of an archive. -/
def ofBytes (bytes : List UInt8) : Except ArchiveError Archive :=
  let data := bytes.toArray
  match Directory.entries? data (data.size - 21) with
  | some entries => .ok ⟨data, entries⟩
  | none => .error .noDirectory

/-- The entry with the given name; of several the last one. -/
def entry? (a : Archive) (name : String) : Option ArchiveEntry :=
  a.entries.reverse.find? fun e => e.name == name

/-- The bytes of an entry as they are in the archive. They end with the archive at the latest. -/
def storedBytes? (a : Archive) (e : ArchiveEntry) : Option (Array UInt8) := do
  let mark ← Packed.number? a.data e.offset 4
  let nameSize ← Packed.number? a.data (e.offset + 26) 2
  let extraSize ← Packed.number? a.data (e.offset + 28) 2
  let start := e.offset + 30 + nameSize + extraSize
  if mark = entryMark then return a.data.extract start (start + e.storedSize) else none

/-- Unpack bytes that were packed by a method. -/
def unpack (method : Nat) (stored : Array UInt8) : Except ArchiveError (Array UInt8) :=
  let known : Option (Array UInt8) → Except ArchiveError (Array UInt8)
    | some bytes => .ok bytes
    | none => .error .corrupt
  match method with
  | 0 => .ok stored
  | 8 => known (Compression.Deflate.unpack? .narrow stored)
  | 9 => known (Compression.Deflate.unpack? .wide stored)
  | 12 => known (Compression.Bzip2.unpack? stored)
  | 93 => known (Compression.Zstandard.unpack? stored)
  | 95 => known (Compression.Xz.unpack? stored)
  | method => .error (.unknownMethod method)

/-- The content of an entry, which has to have the checksum that the directory gives. -/
def content (a : Archive) (e : ArchiveEntry) : Except ArchiveError (List UInt8) := do
  if e.isLocked then throw .encrypted
  let some stored := a.storedBytes? e | throw .corrupt
  let bytes := (← unpack e.method stored).toList
  if Checksum.crc32 bytes = e.checksum then return bytes else throw .corrupt

/-- The content of the entry with the given name, if there is one. -/
def read? (a : Archive) (name : String) : Except ArchiveError (Option (List UInt8)) :=
  match a.entry? name with
  | some e => some <$> a.content e
  | none => .ok none

end Archive

end Retrofit
