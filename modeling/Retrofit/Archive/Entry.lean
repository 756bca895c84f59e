/-!
# Entries

What the directory of an archive says about an entry.
-/

namespace Retrofit

/-- An entry as the directory of an archive describes it. -/
structure ArchiveEntry where
  name : String
  /-- The name as it is in the archive. -/
  rawName : List UInt8
  comment : String
  isEncrypted : Bool
  /-- The strength of its cipher, if a field gives one. -/
  strength : Option Nat
  method : Nat
  checksum : UInt32
  size : Nat
  /-- Bytes that the entry takes in the archive. -/
  storedSize : Nat
  /-- Where the entry starts. -/
  offset : Nat

namespace ArchiveEntry

/-- Whether the content cannot be read without a password. -/
def isLocked (e : ArchiveEntry) : Bool := e.isEncrypted || e.strength.isSome

end ArchiveEntry

namespace Archive

/-- The mark in front of an entry. -/
def entryMark : Nat := 0x04034b50

/-- The mark in front of the description of an entry. -/
def descriptionMark : Nat := 0x02014b50

/-- The mark of the record that closes the directory. -/
def closingMark : Nat := 0x06054b50

/-- The mark of the record that closes a large directory. -/
def wideClosingMark : Nat := 0x06064b50

/-- The mark of the record that tells where a large directory is closed. -/
def locatorMark : Nat := 0x07064b50

end Archive

end Retrofit
