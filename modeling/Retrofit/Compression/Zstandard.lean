import Retrofit.Checksum.XxHash
import Retrofit.Compression.Zstandard.Literals
import Retrofit.Compression.Zstandard.Sequences

/-!
# Data in frames of blocks

Packed data is a sequence of frames; some of them are to be skipped. A frame consists of blocks: of
bytes as they are, of one byte repeated, or of literals and the sequences that use them. Blocks may
use codes of the blocks before them in the frame.
-/

namespace Retrofit.Compression.Zstandard

/-- What a frame says about itself at its front. -/
structure FrameHeader where
  /-- How far references may reach back. -/
  window : Nat
  /-- How many bytes the frame stands for, if it says so. -/
  size : Option Nat
  hasChecksum : Bool

namespace FrameHeader

/-- How far references may reach at most. -/
def mostWindow : Nat := 0x8000001

/-- A block stands for at most so many bytes. -/
def blockLimit (h : FrameHeader) : Nat := min h.window 0x20000

/-- The window that its description stands for: a power of two and some eighths of it. -/
def windowOf (n : Nat) : Nat :=
  let base := 1 <<< (n / 8 + 10)
  base + base / 8 * (n % 8)

/-- Read the front of a frame behind its mark, and give the place behind it. No dictionary may be
asked for. -/
def read? (data : Array UInt8) (start : Nat) : Option (FrameHeader × Nat) := do
  let flags ← Packed.number? data start 1
  let isWhole := flags.testBit 5
  let windowWidth := if isWhole then 0 else 1
  let dictionaryWidth := #[0, 1, 2, 4][flags % 4]?.getD 0
  let sizeWidth := if flags / 64 = 0 then isWhole.toNat else 1 <<< (flags / 64)
  let window ← Packed.number? data (start + 1) windowWidth
  let next := start + 1 + windowWidth
  let dictionary ← Packed.number? data next dictionaryWidth
  let next := next + dictionaryWidth
  let n ← Packed.number? data next sizeWidth
  let size := if sizeWidth = 2 then n + 256 else n
  let window := if isWhole then size else windowOf window
  if flags.testBit 3 ∨ dictionary ≠ 0 ∨ mostWindow < window then none
  else
    return (⟨window, if sizeWidth = 0 then none else some size, flags.testBit 2⟩, next + sizeWidth)

end FrameHeader

/-- What the blocks of a frame leave for those that come behind them. -/
structure Frame where
  out : Array UInt8
  code : Option WeightCode
  fields : Option FieldCodes
  recent : Recent

namespace Frame

def start : Frame := ⟨#[], none, none, .start⟩

/-- A block of literals and sequences, or of nothing at all. -/
def packed? (f : Frame) (data : Array UInt8) (limit : Nat) : Option Frame := do
  if data.isEmpty then return f
  let literals ← Literals.read? data f.code limit
  let (out, fields, recent) ←
    carryOut? data literals.next literals.bytes (f.out.size + limit) f.fields f.recent f.out
  return ⟨out, literals.code, fields, recent⟩

/-- A block of `size` bytes at `start`, and the place behind it. -/
def block? (f : Frame) (data : Array UInt8) (start limit size : Nat) : Nat → Option (Frame × Nat)
  | 0 => do
    let bytes ← Packed.stretch? data start size
    return ({ f with out := f.out ++ bytes }, start + size)
  | 1 => do
    let byte ← data[start]?
    return ({ f with out := Window.pushAll byte size f.out }, start + 1)
  | 2 => do
    let bytes ← Packed.stretch? data start size
    let f ← f.packed? bytes limit
    return (f, start + size)
  | _ => none

/-- Blocks up to the last one, and the place behind it. -/
def blocks? (data : Array UInt8) (limit : Nat) : Nat → Frame → Nat → Option (Array UInt8 × Nat)
  | 0, _, _ => none
  | fuel + 1, f, start => do
    let head ← Packed.number? data start 3
    if limit < head / 8 then none
    else
      let (f, next) ← f.block? data (start + 3) limit (head / 8) (head / 2 % 4)
      if head % 2 = 1 then return (f.out, next) else blocks? data limit fuel f next

/-- A frame behind its mark, and the place behind it. -/
def read? (data : Array UInt8) (start : Nat) : Option (Array UInt8 × Nat) := do
  let (h, next) ← FrameHeader.read? data start
  let (out, next) ← blocks? data h.blockLimit data.size .start next
  if h.size.any (· ≠ out.size) then none
  else if h.hasChecksum then
    let checksum ← Packed.number? data next 4
    if (Checksum.XxHash.digest out.toList).toUInt32.toNat = checksum then return (out, next + 4)
    else none
  else return (out, next)

end Frame

/-- The mark of a frame. -/
def frameMark : Nat := 0xfd2fb528

/-- The mark of a frame to skip, but for its last four bits. -/
def skipMark : Nat := 0x184d2a5

/-- Frames up to the end of the data. -/
def frames? (data : Array UInt8) : Nat → Nat → Array UInt8 → Option (Array UInt8)
  | 0, _, _ => none
  | fuel + 1, start, out => do
    let mark ← Packed.number? data start 4
    let (bytes, next) ←
      if mark = frameMark then Frame.read? data (start + 4)
      else if mark / 16 = skipMark then do
        let size ← Packed.number? data (start + 4) 4
        let _ ← Packed.stretch? data (start + 8) size
        pure (#[], start + 8 + size)
      else none
    if next = data.size then return out ++ bytes else frames? data fuel next (out ++ bytes)

/-- What the packed data stands for. -/
def unpack? (data : Array UInt8) : Option (Array UInt8) := frames? data data.size 0 #[]

end Retrofit.Compression.Zstandard
