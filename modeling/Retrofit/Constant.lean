import Retrofit.Bytes

/-!
# Constants

One entry of a constant pool, its bytes and its reader. Entries refer to others by 1-based index.
-/

namespace Retrofit

/-- A constant pool entry. Numbers are kept as bits, text as bytes. -/
inductive Constant where
  | utf8 (bytes : List UInt8)
  | integer (value : Int32)
  | float (bits : UInt32)
  | long (value : Int64)
  | double (bits : UInt64)
  | classInfo (name : UInt16)
  | string (text : UInt16)
  | fieldRef (owner nameAndType : UInt16)
  | methodRef (owner nameAndType : UInt16)
  | interfaceMethodRef (owner nameAndType : UInt16)
  | nameAndType (name descriptor : UInt16)
  | methodHandle (kind : UInt8) (reference : UInt16)
  | methodType (descriptor : UInt16)
  | dynamic (bootstrap nameAndType : UInt16)
  | invokeDynamic (bootstrap nameAndType : UInt16)
  | moduleInfo (name : UInt16)
  | packageInfo (name : UInt16)
  /-- A slot without a constant: the second slot of a long or double. -/
  | unusable
  deriving DecidableEq, Repr

namespace Constant

/-- Whether the entry takes two slots of the pool. -/
def isWide : Constant → Bool
  | long _ | double _ => true
  | _ => false

/-- The bytes of an entry. A slot without a constant has none. -/
def bytes : Constant → List UInt8
  | utf8 bs => 1 :: (Bytes.ofUInt16 (UInt16.ofNat bs.length) ++ bs)
  | integer value => 3 :: Bytes.ofInt32 value
  | float bits => 4 :: Bytes.ofUInt32 bits
  | long value => 5 :: Bytes.ofInt64 value
  | double bits => 6 :: Bytes.ofUInt64 bits
  | classInfo name => 7 :: Bytes.ofUInt16 name
  | string text => 8 :: Bytes.ofUInt16 text
  | fieldRef owner nt => 9 :: (Bytes.ofUInt16 owner ++ Bytes.ofUInt16 nt)
  | methodRef owner nt => 10 :: (Bytes.ofUInt16 owner ++ Bytes.ofUInt16 nt)
  | interfaceMethodRef owner nt => 11 :: (Bytes.ofUInt16 owner ++ Bytes.ofUInt16 nt)
  | nameAndType name descriptor => 12 :: (Bytes.ofUInt16 name ++ Bytes.ofUInt16 descriptor)
  | methodHandle kind reference => 15 :: kind :: Bytes.ofUInt16 reference
  | methodType descriptor => 16 :: Bytes.ofUInt16 descriptor
  | dynamic bootstrap nt => 17 :: (Bytes.ofUInt16 bootstrap ++ Bytes.ofUInt16 nt)
  | invokeDynamic bootstrap nt => 18 :: (Bytes.ofUInt16 bootstrap ++ Bytes.ofUInt16 nt)
  | moduleInfo name => 19 :: Bytes.ofUInt16 name
  | packageInfo name => 20 :: Bytes.ofUInt16 name
  | unusable => []

/-- Two 16-bit operands. -/
def readPair (make : UInt16 → UInt16 → Constant) : Reader Constant := do
  let first ← Reader.u16
  make first <$> Reader.u16

/-- The payload of an entry with the given tag. Tag 0 marks a slot without a constant. -/
def readPayload (tag : UInt8) : Reader Constant :=
  match tag with
  | 0 => pure unusable
  | 1 => do
    let length ← Reader.u16
    utf8 <$> Reader.bytes length.toNat
  | 3 => integer <$> Reader.i32
  | 4 => float <$> Reader.u32
  | 5 => long <$> Reader.i64
  | 6 => double <$> Reader.u64
  | 7 => classInfo <$> Reader.u16
  | 8 => string <$> Reader.u16
  | 9 => readPair fieldRef
  | 10 => readPair methodRef
  | 11 => readPair interfaceMethodRef
  | 12 => readPair nameAndType
  | 15 => do
    let kind ← Reader.u8
    methodHandle kind <$> Reader.u16
  | 16 => methodType <$> Reader.u16
  | 17 => readPair dynamic
  | 18 => readPair invokeDynamic
  | 19 => moduleInfo <$> Reader.u16
  | 20 => packageInfo <$> Reader.u16
  | _ => Reader.fail .endOfData

/-- An entry. Any failure is blamed on the entry's tag. -/
def read : Reader Constant := Reader.blame .badItem do
  let tag ← Reader.u8
  readPayload tag

end Constant

end Retrofit
