import Retrofit.Attribute

/-!
# The attribute of code

The attribute that holds a method's instructions, with its limits, guards and nested attributes.
The instructions stay raw bytes here.
-/

namespace Retrofit

/-- Content of a `Code` attribute. -/
structure CodeAttribute where
  maxStack : UInt16
  maxLocals : UInt16
  code : List UInt8
  guards : List Guard
  attributes : List Attribute
  deriving DecidableEq, Repr

namespace CodeAttribute

def read : Reader CodeAttribute := do
  let maxStack ← Reader.u16
  let maxLocals ← Reader.u16
  let length ← Reader.u32
  let code ← Reader.bytes length.toNat
  let guards ← Reader.counted Guard.read
  let attributes ← Reader.counted Attribute.read
  pure ⟨maxStack, maxLocals, code, guards, attributes⟩

def bytes (c : CodeAttribute) : List UInt8 :=
  Bytes.ofUInt16 c.maxStack ++ (Bytes.ofUInt16 c.maxLocals ++
    (Bytes.ofUInt32 (UInt32.ofNat c.code.length) ++ (c.code ++
      (countedBytes Guard.bytes c.guards ++ countedBytes Attribute.bytes c.attributes))))

end CodeAttribute

end Retrofit
