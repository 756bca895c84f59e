import Retrofit.Bytes

/-!
# Attributes

Classes, members and code carry attributes: a name, as a pool index, and bytes whose meaning depends
on the name. The tables of code positions that many methods carry are defined here too.
-/

namespace Retrofit

/-- A named run of bytes. -/
structure Attribute where
  name : UInt16
  info : List UInt8
  deriving DecidableEq, Repr

namespace Attribute

def read : Reader Attribute := do
  let name ← Reader.u16
  let length ← Reader.u32
  let info ← Reader.bytes length.toNat
  pure ⟨name, info⟩

def bytes (a : Attribute) : List UInt8 :=
  Bytes.ofUInt16 a.name ++ (Bytes.ofUInt32 (UInt32.ofNat a.info.length) ++ a.info)

end Attribute

/-- A list behind its 16-bit count. -/
def countedBytes {α : Type} (item : α → List UInt8) (items : List α) : List UInt8 :=
  Bytes.ofUInt16 (UInt16.ofNat items.length) ++ items.flatMap item

/-! ### Tables of code positions -/

/-- From `start` on, code belongs to a source line. -/
structure LineEntry where
  start : UInt16
  line : UInt16
  deriving DecidableEq, Repr

namespace LineEntry

def read : Reader LineEntry := do
  let start ← Reader.u16
  let line ← Reader.u16
  pure ⟨start, line⟩

def bytes (e : LineEntry) : List UInt8 := Bytes.ofUInt16 e.start ++ Bytes.ofUInt16 e.line

end LineEntry

/-- A local variable lives in `slot` for `length` bytes of code from `start` on. Its type is a
descriptor in one table and a generic signature in the other. -/
structure LocalEntry where
  start : UInt16
  length : UInt16
  name : UInt16
  type : UInt16
  slot : UInt16
  deriving DecidableEq, Repr

namespace LocalEntry

def read : Reader LocalEntry := do
  let start ← Reader.u16
  let length ← Reader.u16
  let name ← Reader.u16
  let type ← Reader.u16
  let slot ← Reader.u16
  pure ⟨start, length, name, type, slot⟩

def bytes (e : LocalEntry) : List UInt8 :=
  Bytes.ofUInt16 e.start ++ (Bytes.ofUInt16 e.length ++ (Bytes.ofUInt16 e.name ++
    (Bytes.ofUInt16 e.type ++ Bytes.ofUInt16 e.slot)))

end LocalEntry

/-- Code in `[start, stop)` is guarded by the handler at `handler`. -/
structure Guard where
  start : UInt16
  stop : UInt16
  handler : UInt16
  catchType : UInt16
  deriving DecidableEq, Repr

namespace Guard

def read : Reader Guard := do
  let start ← Reader.u16
  let stop ← Reader.u16
  let handler ← Reader.u16
  let catchType ← Reader.u16
  pure ⟨start, stop, handler, catchType⟩

def bytes (g : Guard) : List UInt8 :=
  Bytes.ofUInt16 g.start ++ (Bytes.ofUInt16 g.stop ++ (Bytes.ofUInt16 g.handler ++
    Bytes.ofUInt16 g.catchType))

end Guard

end Retrofit
