import Retrofit.Archive.Entry
import Retrofit.Checksum
import Retrofit.ClassName
import Retrofit.Packed

/-!
# Packing archives

Entries are stored as they are, one behind the other, then their descriptions, then the record that
closes the directory.
-/

namespace Retrofit.Archive

open Packed (numberBytes)

/-- The fields that an entry and its description share, from the flags to the name's size. The
flag says that names are UTF-8. -/
def sharedFields (name content : List UInt8) : List UInt8 :=
  numberBytes 2 0x800 ++ (numberBytes 2 0 ++ (numberBytes 4 0 ++
    (numberBytes 4 (Checksum.crc32 content).toNat ++ (numberBytes 4 content.length ++
      (numberBytes 4 content.length ++ numberBytes 2 name.length)))))

/-- An entry whose content is stored as it is. -/
def entryBytes (name content : List UInt8) : List UInt8 :=
  numberBytes 4 entryMark ++ (numberBytes 2 20 ++ (sharedFields name content ++
    (numberBytes 2 0 ++ (name ++ content))))

/-- The description of an entry that starts at `offset`. -/
def descriptionBytes (offset : Nat) (name content : List UInt8) : List UInt8 :=
  numberBytes 4 descriptionMark ++ (numberBytes 2 20 ++ (numberBytes 2 20 ++
    (sharedFields name content ++ (numberBytes 2 0 ++ (numberBytes 2 0 ++ (numberBytes 2 0 ++
      (numberBytes 2 0 ++ (numberBytes 4 0 ++ (numberBytes 4 offset ++ name)))))))))

/-- An archive of the given entries. -/
def pack (entries : List (String × List UInt8)) : List UInt8 :=
  let entries := entries.map fun (name, content) => (bytesOfText name, content)
  let packed := entries.map fun (name, content) => entryBytes name content
  let offsets := packed.scanl (fun offset bytes => offset + bytes.length) 0
  let directory := (offsets.zip entries).flatMap fun (offset, name, content) =>
    descriptionBytes offset name content
  packed.flatten ++ (directory ++ (numberBytes 4 closingMark ++ (numberBytes 4 0 ++
    (numberBytes 2 entries.length ++ (numberBytes 2 entries.length ++
      (numberBytes 4 directory.length ++ (numberBytes 4 packed.flatten.length ++
        numberBytes 2 0)))))))

end Retrofit.Archive
