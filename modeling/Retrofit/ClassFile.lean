import Retrofit.Attribute
import Retrofit.Pool

/-!
# Class files

The whole file: versions, constant pool, flags, names, members and attributes. Only the constant
pool is ever taken apart further; all else is carried through.
-/

namespace Retrofit

/-- A field or a method. -/
structure Member where
  access : UInt16
  name : UInt16
  descriptor : UInt16
  attributes : List Attribute
  deriving DecidableEq, Repr

namespace Member

def read : Reader Member := do
  let access ← Reader.u16
  let name ← Reader.u16
  let descriptor ← Reader.u16
  let attributes ← Reader.counted Attribute.read
  pure ⟨access, name, descriptor, attributes⟩

def bytes (m : Member) : List UInt8 :=
  Bytes.ofUInt16 m.access ++ (Bytes.ofUInt16 m.name ++ (Bytes.ofUInt16 m.descriptor ++
    countedBytes Attribute.bytes m.attributes))

/-- The position of the first attribute with the given name. -/
def attributePosition? (m : Member) (pool : Pool) (name : String) : Option Nat :=
  m.attributes.findIdx? fun a => pool.text? a.name == some name

end Member

/-- A class file. -/
structure ClassFile where
  minor : UInt16
  major : UInt16
  pool : Pool
  access : UInt16
  thisClass : UInt16
  superClass : UInt16
  interfaces : List UInt16
  fields : List Member
  methods : List Member
  attributes : List Attribute
  deriving DecidableEq

namespace ClassFile

/-- The four bytes every class file starts with. -/
def magic : UInt32 := 0xcafebabe

def read : Reader ClassFile := do
  let mark ← Reader.u32
  if mark ≠ magic then Reader.fail .badMagic
  let minor ← Reader.u16
  let major ← Reader.u16
  let pool ← Pool.read
  let access ← Reader.u16
  let thisClass ← Reader.u16
  let superClass ← Reader.u16
  let interfaces ← Reader.counted Reader.u16
  let fields ← Reader.counted Member.read
  let methods ← Reader.counted Member.read
  let attributes ← Reader.counted Attribute.read
  pure ⟨minor, major, pool, access, thisClass, superClass, interfaces, fields, methods, attributes⟩

def bytes (c : ClassFile) : List UInt8 :=
  Bytes.ofUInt32 magic ++ (Bytes.ofUInt16 c.minor ++ (Bytes.ofUInt16 c.major ++ (c.pool.bytes ++
    (Bytes.ofUInt16 c.access ++ (Bytes.ofUInt16 c.thisClass ++ (Bytes.ofUInt16 c.superClass ++
      (countedBytes Bytes.ofUInt16 c.interfaces ++ (countedBytes Member.bytes c.fields ++
        (countedBytes Member.bytes c.methods ++ countedBytes Attribute.bytes c.attributes)))))))))

/-- The class file at the front of the bytes. -/
def decode (bytes : List UInt8) : Except ReadError ClassFile := read.run bytes

/-- The internal name of the class. -/
def thisName? (c : ClassFile) : Option String := c.pool.className? c.thisClass

end ClassFile

end Retrofit
