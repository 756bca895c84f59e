import Retrofit.ClassName
import Retrofit.Constant

/-!
# Constant pools

The pool keeps the constants in order, and beside them the size that its class file states. New
entries only go to the end, so an index once given out stays good.
-/

namespace Retrofit

/-- A constant pool. Entry `i` is the constant at index `i + 1`. -/
structure Pool where
  /-- The size stated in the class file: one more than the number of slots. -/
  statedSize : UInt16
  entries : Array Constant
  deriving DecidableEq

/-- A member named by a pool entry. -/
structure MemberRef where
  owner : String
  name : String
  descriptor : String
  interface : Bool
  deriving DecidableEq, Repr

namespace Pool

/-! ### Bytes -/

/-- Read entries into the given number of slots; a wide one is followed by an unusable slot. -/
def readEntries : Nat → Array Constant → Reader (Array Constant)
  | 0, acc => pure acc
  | slots + 1, acc => fun s =>
    match Constant.read s with
    | .error e => .error e
    | .ok (c, s') =>
      if c.isWide then
        match slots with
        | 0 => .ok ((acc.push c).push .unusable, s')
        | rest + 1 => readEntries rest ((acc.push c).push .unusable) s'
      else readEntries slots (acc.push c) s'

/-- The stated size and the entries. -/
def read : Reader Pool := do
  let size ← Reader.u16
  let entries ← readEntries (size.toNat - 1) #[]
  pure ⟨size, entries⟩

def bytes (p : Pool) : List UInt8 :=
  Bytes.ofUInt16 p.statedSize ++ p.entries.toList.flatMap Constant.bytes

/-! ### Looking up -/

/-- The constant at a 1-based index. -/
def constant? (p : Pool) (index : UInt16) : Option Constant :=
  if index = 0 then none else p.entries[index.toNat - 1]?

/-- The text of a text entry. -/
def text? (p : Pool) (index : UInt16) : Option String :=
  match p.constant? index with
  | some (.utf8 bytes) => textOfBytes? bytes
  | _ => none

/-- The internal name of a class entry. -/
def className? (p : Pool) (index : UInt16) : Option String :=
  match p.constant? index with
  | some (.classInfo name) => p.text? name
  | _ => none

/-- Name and descriptor of a name-and-type entry. -/
def nameAndType? (p : Pool) (index : UInt16) : Option (String × String) :=
  match p.constant? index with
  | some (.nameAndType name descriptor) => do
    let n ← p.text? name
    let d ← p.text? descriptor
    return (n, d)
  | _ => none

/-- The member that a field, method or interface method entry names. -/
def member? (p : Pool) (index : UInt16) : Option MemberRef :=
  match p.constant? index with
  | some (.fieldRef owner nt) | some (.methodRef owner nt) => resolve owner nt false
  | some (.interfaceMethodRef owner nt) => resolve owner nt true
  | _ => none
where
  resolve (owner nt : UInt16) (interface : Bool) : Option MemberRef := do
    let o ← p.className? owner
    let (n, d) ← p.nameAndType? nt
    return ⟨o, n, d, interface⟩

/-- The index of the first entry that passes the test. -/
def indexOf? (p : Pool) (test : Constant → Bool) : Option UInt16 :=
  (p.entries.findIdx? test).map fun i => UInt16.ofNat (i + 1)

/-- The index of the first text entry with the given text. -/
def findText? (p : Pool) (text : String) : Option UInt16 :=
  let bytes := bytesOfText text
  p.indexOf? fun c => match c with
    | .utf8 bs => bs == bytes
    | _ => false

/-- Slots left before the 16-bit limit. -/
def headroom (p : Pool) : Nat := 65535 - (p.entries.size + 1)

/-! ### Adding -/

/-- The pool with the stated size brought in line with the entries. -/
def sync (p : Pool) : Pool := { p with statedSize := UInt16.ofNat (p.entries.size + 1) }

/-- Add an entry; the answer is its index. -/
def push (p : Pool) (c : Constant) : Pool × UInt16 :=
  let entries := p.entries.push c
  (⟨UInt16.ofNat (entries.size + 1), entries⟩, UInt16.ofNat entries.size)

/-- The index of `c`, which is the first entry that passes the test, or else is added. -/
def intern (p : Pool) (test : Constant → Bool) (c : Constant) : Pool × UInt16 :=
  match p.indexOf? test with
  | some i => (p, i)
  | none => p.push c

/-- Add a text entry, whether or not there is one already. -/
def addText (p : Pool) (text : String) : Pool × UInt16 := p.push (.utf8 (bytesOfText text))

/-- The index of a text entry, added if missing. -/
def internText (p : Pool) (text : String) : Pool × UInt16 :=
  match p.findText? text with
  | some i => (p, i)
  | none => p.addText text

/-- The index of a class entry, added if missing. -/
def internClass (p : Pool) (name : String) : Pool × UInt16 :=
  let (p, n) := p.internText name
  p.intern (· == .classInfo n) (.classInfo n)

/-- The index of a name-and-type entry, added if missing. -/
def internNameAndType (p : Pool) (name descriptor : String) : Pool × UInt16 :=
  let (p, n) := p.internText name
  let (p, d) := p.internText descriptor
  p.intern (· == .nameAndType n d) (.nameAndType n d)

/-- The index of a method entry, of the interface kind if asked for, added if missing. -/
def internMethod (p : Pool) (owner name descriptor : String) (interface : Bool) : Pool × UInt16 :=
  let (p, o) := p.internClass owner
  let (p, nt) := p.internNameAndType name descriptor
  let c : Constant := if interface then .interfaceMethodRef o nt else .methodRef o nt
  p.intern (· == c) c

end Pool

end Retrofit
