import Retrofit.Bytes
import Retrofit.Opcode

/-!
# Instructions

One machine instruction, its bytes at a given address, and the reader that takes it back. The
address matters only to the two switches, whose tables start at a multiple of four. The main
statement is that a successful reading consumes at least one byte, so a code array is read to its
end.
-/

namespace Retrofit

/-- One instruction. Displacements are relative to the instruction's own address. -/
inductive Instruction where
  /-- An opcode without operands. -/
  | plain (op : Opcode .plain)
  /-- `Bipush`: push a byte as an int. -/
  | bipush (value : Int8)
  /-- `Sipush`: push a 16-bit word as an int. -/
  | sipush (value : Int16)
  | small (op : Opcode .small) (operand : UInt8)
  | pooled (op : Opcode .pooled) (index : UInt16)
  /-- An access to one of the first 256 local slots. -/
  | slot (op : Opcode .slot) (index : UInt8)
  /-- An access to any local slot. -/
  | wideSlot (op : Opcode .slot) (index : UInt16)
  | iinc (index : UInt8) (amount : Int8)
  | wideIinc (index : UInt16) (amount : Int16)
  | jump (op : Opcode .jump) (displacement : Int16)
  | longJump (op : Opcode .longJump) (displacement : Int32)
  | tableswitch (default low high : Int32) (displacements : List Int32)
  /-- The number of cases is stated beside the cases. -/
  | lookupswitch (default : Int32) (stated : UInt32) (cases : List (Int32 × Int32))
  | invokevirtual (index : UInt16)
  | invokespecial (index : UInt16)
  | invokestatic (index : UInt16)
  | invokeinterface (index : UInt16) (count filler : UInt8)
  | invokedynamic (index : UInt16) (filler : UInt16)
  | multianewarray (index : UInt16) (dimensions : UInt8)
  deriving DecidableEq

namespace Instruction

/-- How many bytes lie between a switch opcode at `address` and the next multiple of four. -/
def padding (address : Nat) : Nat := (4 - (address + 1) % 4) % 4

/-- The length of an instruction placed at `address`. -/
def size (address : Nat) : Instruction → Nat
  | plain _ => 1
  | bipush _ | small _ _ | slot _ _ => 2
  | sipush _ | pooled _ _ | iinc _ _ | jump _ _ => 3
  | invokevirtual _ | invokespecial _ | invokestatic _ => 3
  | wideSlot _ _ | multianewarray _ _ => 4
  | longJump _ _ | invokeinterface _ _ _ | invokedynamic _ _ => 5
  | wideIinc _ _ => 6
  | tableswitch _ _ _ displacements => 1 + padding address + 12 + 4 * displacements.length
  | lookupswitch _ _ cases => 1 + padding address + 8 + 8 * cases.length

/-- Whether the instruction carries displacements. -/
def isBranch : Instruction → Bool
  | jump _ _ | longJump _ _ | tableswitch _ _ _ _ | lookupswitch _ _ _ => true
  | _ => false

/-! ### Writing -/

/-- The bytes of an instruction placed at `address`. Padding is zero. -/
def bytes (address : Nat) : Instruction → List UInt8
  | plain op => [op.byte]
  | bipush value => [0x10, value.toUInt8]
  | sipush value => 0x11 :: Bytes.ofInt16 value
  | small op operand => [op.byte, operand]
  | pooled op index => op.byte :: Bytes.ofUInt16 index
  | slot op index => [op.byte, index]
  | wideSlot op index => 0xc4 :: op.byte :: Bytes.ofUInt16 index
  | iinc index amount => [0x84, index, amount.toUInt8]
  | wideIinc index amount => 0xc4 :: 0x84 :: (Bytes.ofUInt16 index ++ Bytes.ofInt16 amount)
  | jump op displacement => op.byte :: Bytes.ofInt16 displacement
  | longJump op displacement => op.byte :: Bytes.ofInt32 displacement
  | tableswitch default low high displacements =>
    0xaa :: (List.replicate (padding address) 0 ++ (Bytes.ofInt32 default ++ (Bytes.ofInt32 low ++
      (Bytes.ofInt32 high ++ displacements.flatMap Bytes.ofInt32))))
  | lookupswitch default stated cases =>
    0xab :: (List.replicate (padding address) 0 ++ (Bytes.ofInt32 default ++
      (Bytes.ofUInt32 stated ++
        cases.flatMap fun c => Bytes.ofInt32 c.1 ++ Bytes.ofInt32 c.2)))
  | invokevirtual index => 0xb6 :: Bytes.ofUInt16 index
  | invokespecial index => 0xb7 :: Bytes.ofUInt16 index
  | invokestatic index => 0xb8 :: Bytes.ofUInt16 index
  | invokeinterface index count filler => 0xb9 :: (Bytes.ofUInt16 index ++ [count, filler])
  | invokedynamic index filler => 0xba :: (Bytes.ofUInt16 index ++ Bytes.ofUInt16 filler)
  | multianewarray index dimensions => 0xc5 :: (Bytes.ofUInt16 index ++ [dimensions])

/-! ### Reading -/

/-- The operands of a `tableswitch` at `address`: bounds in order, and one displacement for each
value between them. -/
def readTableswitch (address : Nat) : Reader Instruction := do
  let _ ← Reader.bytes (padding address)
  let default ← Reader.i32
  let low ← Reader.i32
  let high ← Reader.i32
  if low ≤ high then
    let displacements ← Reader.many (high.toInt - low.toInt + 1).toNat Reader.i32
    pure (tableswitch default low high displacements)
  else
    Reader.fail .endOfData

/-- The operands of a `lookupswitch` at `address`. -/
def readLookupswitch (address : Nat) : Reader Instruction := do
  let _ ← Reader.bytes (padding address)
  let default ← Reader.i32
  let stated ← Reader.u32
  let cases ← Reader.many stated.toNat do
    let value ← Reader.i32
    let displacement ← Reader.i32
    pure (value, displacement)
  pure (lookupswitch default stated cases)

/-- What follows a `wide` opcode: a slot access or an increment with 16-bit operands. -/
def readWide : Reader Instruction := do
  let op ← Reader.u8
  match h : Opcode.family? op with
  | some .slot => wideSlot ⟨op, h⟩ <$> Reader.u16
  | _ =>
    if op = 0x84 then
      let index ← Reader.u16
      wideIinc index <$> Reader.i16
    else
      Reader.fail .endOfData

/-- The operands of an instruction at `address` whose opcode has no family. -/
def readSingular (address : Nat) (op : UInt8) : Reader Instruction :=
  match op with
  | 0x10 => bipush <$> Reader.i8
  | 0x11 => sipush <$> Reader.i16
  | 0x84 => do
    let index ← Reader.u8
    iinc index <$> Reader.i8
  | 0xaa => readTableswitch address
  | 0xab => readLookupswitch address
  | 0xb6 => invokevirtual <$> Reader.u16
  | 0xb7 => invokespecial <$> Reader.u16
  | 0xb8 => invokestatic <$> Reader.u16
  | 0xb9 => do
    let index ← Reader.u16
    let count ← Reader.u8
    invokeinterface index count <$> Reader.u8
  | 0xba => do
    let index ← Reader.u16
    invokedynamic index <$> Reader.u16
  | 0xc4 => readWide
  | 0xc5 => do
    let index ← Reader.u16
    multianewarray index <$> Reader.u8
  | _ => Reader.fail .endOfData

/-- The operands of an instruction at `address` with the given opcode. -/
def readOperands (address : Nat) (op : UInt8) : Reader Instruction :=
  match h : Opcode.family? op with
  | some .plain => pure (plain ⟨op, h⟩)
  | some .small => small ⟨op, h⟩ <$> Reader.u8
  | some .slot => slot ⟨op, h⟩ <$> Reader.u8
  | some .pooled => pooled ⟨op, h⟩ <$> Reader.u16
  | some .jump => jump ⟨op, h⟩ <$> Reader.i16
  | some .longJump => longJump ⟨op, h⟩ <$> Reader.i32
  | none => readSingular address op

/-- The instruction at `address`. -/
def read (address : Nat) : Reader Instruction := do
  let op ← Reader.u8
  readOperands address op

/-! ### Reading consumes -/

open Reader

theorem shrinks_readTableswitch (address : Nat) : Shrinks (readTableswitch address) := by
  refine (shrinks_bytes _).bind fun _ => shrinks_i32.bind fun _ => shrinks_i32.bind fun _ =>
    shrinks_i32.bind fun _ => ?_
  split
  · exact (shrinks_i32.many _).bind fun _ => shrinks_pure _
  · exact shrinks_fail _

theorem shrinks_readLookupswitch (address : Nat) : Shrinks (readLookupswitch address) :=
  (shrinks_bytes _).bind fun _ => shrinks_i32.bind fun _ => shrinks_u32.bind fun _ =>
    ((shrinks_i32.bind fun _ => shrinks_i32.bind fun _ => shrinks_pure _).many _).bind fun _ =>
      shrinks_pure _

theorem shrinks_readWide : Shrinks readWide := by
  refine shrinks_u8.bind fun op => ?_
  split
  · exact shrinks_u16.map _
  · split
    · exact shrinks_u16.bind fun _ => shrinks_i16.map _
    · exact shrinks_fail _

theorem shrinks_readSingular (address : Nat) (op : UInt8) : Shrinks (readSingular address op) := by
  unfold readSingular
  split
  · exact shrinks_i8.map _
  · exact shrinks_i16.map _
  · exact shrinks_u8.bind fun _ => shrinks_i8.map _
  · exact shrinks_readTableswitch address
  · exact shrinks_readLookupswitch address
  · exact shrinks_u16.map _
  · exact shrinks_u16.map _
  · exact shrinks_u16.map _
  · exact shrinks_u16.bind fun _ => shrinks_u8.bind fun _ => shrinks_u8.map _
  · exact shrinks_u16.bind fun _ => shrinks_u16.map _
  · exact shrinks_readWide
  · exact shrinks_u16.bind fun _ => shrinks_u8.map _
  · exact shrinks_fail _

theorem shrinks_readOperands (address : Nat) (op : UInt8) : Shrinks (readOperands address op) := by
  unfold readOperands
  split
  · exact shrinks_pure _
  · exact shrinks_u8.map _
  · exact shrinks_u8.map _
  · exact shrinks_u16.map _
  · exact shrinks_i16.map _
  · exact shrinks_i32.map _
  · exact shrinks_readSingular address op

/-- An instruction takes at least its opcode. -/
theorem read_consumes {address : Nat} {s s' : Input} {i : Instruction}
    (h : read address s = .ok (i, s')) : s'.rest.length < s.rest.length := by
  unfold read at h
  rw [bind_apply] at h
  split at h
  · rename_i op t ht
    have hlt : t.rest.length < s.rest.length := by
      unfold u8 at ht
      split at ht
      · cases ht
      · rename_i heq
        cases ht
        simp [heq]
    exact Nat.lt_of_le_of_lt (shrinks_readOperands address op t i s' h) hlt
  · cases h

end Instruction

end Retrofit
