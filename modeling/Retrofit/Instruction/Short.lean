import Retrofit.Instruction

/-!
# Shortest forms

Instructions that replacements are lowered to, each in its shortest form.
-/

namespace Retrofit.Instruction

def dup : Instruction := .plain ⟨0x59, rfl⟩

def pop : Instruction := .plain ⟨0x57, rfl⟩

/-- Create an instance of the class with the given pool index. -/
def new (index : UInt16) : Instruction := .pooled ⟨0xbb, rfl⟩ index

/-- Load the reference in a local slot. -/
def aload (index : UInt16) : Instruction :=
  match index with
  | 0 => .plain ⟨0x2a, rfl⟩
  | 1 => .plain ⟨0x2b, rfl⟩
  | 2 => .plain ⟨0x2c, rfl⟩
  | 3 => .plain ⟨0x2d, rfl⟩
  | _ =>
    if index < 256 then .slot ⟨0x19, rfl⟩ index.toUInt8
    else .wideSlot ⟨0x19, rfl⟩ index

/-- Store a reference into a local slot. -/
def astore (index : UInt16) : Instruction :=
  match index with
  | 0 => .plain ⟨0x4b, rfl⟩
  | 1 => .plain ⟨0x4c, rfl⟩
  | 2 => .plain ⟨0x4d, rfl⟩
  | 3 => .plain ⟨0x4e, rfl⟩
  | _ =>
    if index < 256 then .slot ⟨0x3a, rfl⟩ index.toUInt8
    else .wideSlot ⟨0x3a, rfl⟩ index

/-- Push a small int constant. Only the low 16 bits of the value are kept. -/
def pushInt (value : Int32) : Instruction :=
  if value = -1 then .plain ⟨0x02, rfl⟩
  else if value = 0 then .plain ⟨0x03, rfl⟩
  else if value = 1 then .plain ⟨0x04, rfl⟩
  else if value = 2 then .plain ⟨0x05, rfl⟩
  else if value = 3 then .plain ⟨0x06, rfl⟩
  else if value = 4 then .plain ⟨0x07, rfl⟩
  else if value = 5 then .plain ⟨0x08, rfl⟩
  else if -128 ≤ value ∧ value ≤ 127 then .bipush value.toInt8
  else .sipush value.toInt16

end Retrofit.Instruction
