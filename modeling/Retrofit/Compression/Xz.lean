import Retrofit.Checksum
import Retrofit.Checksum.Sha256
import Retrofit.Compression.Lzma

/-!
# Streams of checked blocks

A stream is a header, blocks of packed data, an index of the blocks and a footer that repeats the
header. Each part is padded to four bytes and has a checksum, and a block has a check of what it
stands for.
-/

namespace Retrofit.Compression.Xz

/-! ### Fields -/

/-- The mark at the front of a stream. -/
def headerMark : List UInt8 := [0xfd, 0x37, 0x7a, 0x58, 0x5a, 0]

/-- The mark at the end of a stream. -/
def footerMark : List UInt8 := [0x59, 0x5a]

/-- Whether the bytes of a stretch have the checksum that stands at `place`. -/
def hasChecksum (data : Array UInt8) (start length place : Nat) : Bool :=
  match Packed.stretch? data start length, Packed.number? data place 4 with
  | some bytes, some n => (Checksum.crc32 bytes.toList).toNat == n
  | _, _ => false

/-- Whether a stretch of the data holds zeros only. -/
def isZeros (data : Array UInt8) (start length : Nat) : Bool :=
  match Packed.stretch? data start length with
  | some bytes => bytes.all (· == 0)
  | none => false

/-- How many bytes fill up to a multiple of four. -/
def padding (n : Nat) : Nat := (4 - n % 4) % 4

/-- A number in at most nine bytes of seven bits, the lowest ones first, and the place behind it.
The high bit of a byte says that more follow; the last byte is zero only if it is the first one,
too. -/
def size? (data : Array UInt8) : Nat → Nat → Option (Nat × Nat)
  | 0, _ => none
  | room + 1, start => do
    let byte ← Packed.number? data start 1
    if byte < 128 then
      if byte = 0 ∧ room < 8 then none else return (byte, start + 1)
    else
      let (rest, next) ← size? data room (start + 1)
      return (byte - 128 + 128 * rest, next)

/-- A number that is there only if it is announced. -/
def sizeIf? (data : Array UInt8) (announced : Bool) (start : Nat) : Option (Option Nat × Nat) :=
  if announced then (size? data 9 start).map fun p => (some p.1, p.2) else some (none, start)

/-! ### Checks -/

/-- How many bytes a kind of check takes. -/
def checkSize (kind : Nat) : Nat :=
  #[0, 4, 4, 4, 8, 8, 8, 16, 16, 16, 32, 32, 32, 64, 64, 64][kind]?.getD 0

/-- The check of the bytes. Some kinds are passed over. -/
def check? (kind : Nat) (bytes : Array UInt8) : Option (List UInt8) :=
  match kind with
  | 1 => some (Packed.numberBytes 4 (Checksum.crc32 bytes.toList).toNat)
  | 4 => some (Packed.numberBytes 8 (Checksum.crc64 bytes.toList).toNat)
  | 10 => some (Checksum.Sha256.digest bytes.toList)
  | _ => none

/-! ### Blocks -/

/-- What a block says about itself: the sizes it has and stands for, how far references reach, and
how long its header is. -/
structure BlockHeader where
  packedSize : Option Nat
  size : Option Nat
  reach : Nat
  length : Nat

/-- How far references reach: a power of two or half as much again, in steps of 16. -/
def reachOf? (n : Nat) : Option Nat :=
  if n < 40 then some (max 4096 ((2 + n % 2) <<< (n / 2 + 11)))
  else if n = 40 then some 0x100000000
  else none

/-- The header of a block. The data goes through one filter, which unpacks it. -/
def blockHeader? (data : Array UInt8) (start : Nat) : Option BlockHeader := do
  let head ← Packed.number? data start 1
  let length := 4 * (head + 1)
  let flags ← Packed.number? data (start + 1) 1
  if flags % 64 ≠ 0 ∨ ¬ hasChecksum data start (length - 4) (start + length - 4) then none
  else
    let (packedSize, next) ← sizeIf? data (flags.testBit 6) (start + 2)
    let (size, next) ← sizeIf? data (flags.testBit 7) next
    let (filter, next) ← size? data 9 next
    let (width, next) ← size? data 9 next
    let n ← Packed.number? data next 1
    let reach ← reachOf? n
    let last := start + length - 4
    if filter = 0x21 ∧ width = 1 ∧ next + 1 ≤ last ∧ packedSize ≠ some 0 ∧
        isZeros data (next + 1) (last - (next + 1)) then
      return ⟨packedSize, size, reach, length⟩
    else none

/-- A block: what it stands for, its length without the padding, and the place behind it. -/
def block? (data : Array UInt8) (check start : Nat) : Option (Array UInt8 × Nat × Nat) := do
  let h ← blockHeader? data start
  let (bytes, next) ← Lzma.unpack? data h.reach (start + h.length)
  let packed := next - (start + h.length)
  let fill := padding (next - start)
  let found ← Packed.stretch? data (next + fill) (checkSize check)
  if h.packedSize.any (· ≠ packed) ∨ h.size.any (· ≠ bytes.size) ∨ ¬ isZeros data next fill ∨
      (check? check bytes).any (· ≠ found.toList) then none
  else
    return (bytes, next - start + checkSize check, next + fill + checkSize check)

/-- The sizes of the blocks as the index lists them, and the place behind them. -/
def records? (data : Array UInt8) : Nat → Nat → Option (List (Nat × Nat) × Nat)
  | 0, start => some ([], start)
  | n + 1, start => do
    let (length, next) ← size? data 9 start
    let (size, next) ← size? data 9 next
    let (rest, next) ← records? data n next
    return ((length, size) :: rest, next)

/-- Make sure that the index at `start` lists these blocks, and that the footer behind it fits the
flags. -/
def closed? (data : Array UInt8) (flags : List UInt8) (blocks : List (Nat × Nat)) (start : Nat) :
    Option Unit := do
  let (count, next) ← size? data 9 (start + 1)
  if count ≠ blocks.length then none
  else
    let (records, next) ← records? data count next
    let fill := padding (next - start)
    let footer := next + fill + 4
    let size ← Packed.number? data (footer + 4) 4
    let found ← Packed.stretch? data (footer + 8) 4
    if records = blocks ∧ isZeros data next fill ∧
        hasChecksum data start (next + fill - start) (next + fill) ∧
        hasChecksum data (footer + 4) 6 footer ∧ 4 * (size + 1) = footer - start ∧
        found.toList = flags ++ footerMark then
      return ()
    else none

/-- Blocks up to the index, which has to list them. -/
def blocks? (data : Array UInt8) (flags : List UInt8) (check : Nat) :
    Nat → List (Nat × Nat) → Nat → Array UInt8 → Option (Array UInt8)
  | 0, _, _, _ => none
  | fuel + 1, before, start, out => do
    let head ← Packed.number? data start 1
    if head = 0 then
      closed? data flags before.reverse start
      return out
    else
      let (bytes, length, next) ← block? data check start
      blocks? data flags check fuel ((length, bytes.size) :: before) next (out ++ bytes)

/-- What a stream stands for. What lies behind its end is left alone. -/
def unpack? (data : Array UInt8) : Option (Array UInt8) := do
  let mark ← Packed.stretch? data 0 6
  let flags ← Packed.stretch? data 6 2
  let reserved ← Packed.number? data 6 1
  let check ← Packed.number? data 7 1
  if mark.toList = headerMark ∧ reserved = 0 ∧ check < 16 ∧ hasChecksum data 6 2 8 then
    blocks? data flags.toList check data.size [] 12 #[]
  else none

end Retrofit.Compression.Xz
