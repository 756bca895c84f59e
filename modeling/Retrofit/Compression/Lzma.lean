import Retrofit.Compression.RangeReader
import Retrofit.Compression.Window
import Retrofit.Packed

/-!
# Chunks of ranges

Packed data is a sequence of chunks: of bytes as they are, or of literals and references whose bits
are read by their odds. What kind a bit is depends on what came before it, so that the odds learn
what follows what.
-/

namespace Retrofit.Compression.Lzma

/-! ### Kinds of bits -/

/-- How many bits of the byte before and of the position tell kinds of bits apart. -/
structure Context where
  byteBits : Nat
  literalBits : Nat
  positionBits : Nat

namespace Context

/-- The three numbers are packed into one byte. -/
def ofByte? (n : Nat) : Option Context :=
  let c : Context := ⟨n % 9, n / 9 % 5, n / 45⟩
  if n < 225 ∧ c.byteBits + c.literalBits ≤ 4 then some c else none

end Context

namespace Kind

/-- Whether a reference follows and not a literal. -/
def isReference (phase position : Nat) : Nat := 16 * phase + position

/-- Whether a reference uses a recent distance. -/
def isRecent (phase : Nat) : Nat := 192 + phase

/-- Whether it is another recent distance than the first one. -/
def isNotFirst (phase : Nat) : Nat := 204 + phase

def isNotSecond (phase : Nat) : Nat := 216 + phase

def isNotThird (phase : Nat) : Nat := 228 + phase

/-- Whether more than one byte is repeated. -/
def isLong (phase position : Nat) : Nat := 240 + 16 * phase + position

/-- The class of a distance, which depends on the length. -/
def distanceClass (length : Nat) : Nat := 432 + 64 * min (length - 2) 3

/-- The bits of a middle distance. -/
def middleDistance : Nat := 687

/-- The lowest bits of a long distance. -/
def longDistance : Nat := 816

/-- Lengths behind new distances. -/
def newLength : Nat := 832

/-- Lengths behind recent distances. -/
def recentLength : Nat := 1346

/-- The bits of a literal. -/
def literal (context : Nat) : Nat := 1860 + 768 * context

/-- How many kinds there are. -/
def count (c : Context) : Nat := literal (1 <<< (c.byteBits + c.literalBits))

end Kind

/-! ### Symbols -/

/-- The distances that were used last, the last one first. -/
structure Recent where
  first : Nat
  second : Nat
  third : Nat
  fourth : Nat

/-- What was read of a chunk: the reader, in which order literals and references came, and the
recent distances. -/
structure Progress where
  reader : RangeReader
  phase : Nat
  recent : Recent

/-- A length of at least two. Short ones depend on the position. -/
def length? (kinds position : Nat) (r : RangeReader) : Option (Nat × RangeReader) := do
  let (isMiddle, r) ← r.bit? kinds
  if isMiddle = 0 then
    let (n, r) ← r.number? (kinds + 2 + 8 * position) 3
    return (n + 2, r)
  else
    let (isHigh, r) ← r.bit? (kinds + 1)
    if isHigh = 0 then
      let (n, r) ← r.number? (kinds + 130 + 8 * position) 3
      return (n + 10, r)
    else
      let (n, r) ← r.number? (kinds + 258) 8
      return (n + 18, r)

/-- A distance. Its class gives its two highest bits and how many there are. -/
def distance? (length : Nat) (r : RangeReader) : Option (Nat × RangeReader) := do
  let (n, r) ← r.number? (Kind.distanceClass length) 6
  if n < 4 then return (n + 1, r)
  else
    let width := n / 2 - 1
    let base := (2 + n % 2) <<< width
    if n < 14 then
      let (low, r) ← r.lowFirst? (Kind.middleDistance + base - n) width 1
      return (base + low + 1, r)
    else
      let (high, r) ← r.even? (width - 4) 0
      let (low, r) ← r.lowFirst? Kind.longDistance 4 1
      return (base + 16 * high + low + 1, r)

/-- The bits of a literal behind a reference. As long as they are those of the byte that a longer
reference would have repeated, their kinds depend on its bits. -/
def unlike? (kinds byte : Nat) : Nat → Nat → Bool → RangeReader → Option (Nat × RangeReader)
  | 0, n, _, r => some (n, r)
  | width + 1, n, isLike, r => do
    let expected := (byte.testBit width).toNat
    let (bit, r) ← r.bit? (kinds + (if isLike then 256 + 256 * expected else 0) + n)
    unlike? kinds byte width (2 * n + bit) (isLike && bit == expected) r

/-- The byte that lies `distance` back, or zero in front of the origin. -/
def byteBack (out : Array UInt8) (origin distance : Nat) : Nat :=
  if origin + distance ≤ out.size then (out[out.size - distance]?.getD 0).toNat else 0

namespace Progress

/-- A literal. -/
def literal? (p : Progress) (c : Context) (origin : Nat) (out : Array UInt8) :
    Option (Progress × Array UInt8) := do
  let position := out.size - origin
  let kinds := Kind.literal (((position % (1 <<< c.literalBits)) <<< c.byteBits) +
    (byteBack out origin 1) >>> (8 - c.byteBits))
  let (n, reader) ←
    if p.phase < 7 then p.reader.descend? kinds 8 1
    else unlike? kinds (byteBack out origin p.recent.first) 8 1 true p.reader
  let phase := if p.phase < 4 then 0 else if p.phase < 10 then p.phase - 3 else p.phase - 6
  return ({ p with reader, phase }, out.push (UInt8.ofNat n))

/-- The length of a reference with a new distance. -/
def newReference? (p : Progress) (position : Nat) : Option (Nat × Progress) := do
  let (length, reader) ← length? Kind.newLength position p.reader
  let (distance, reader) ← distance? length reader
  return (length, ⟨reader, if p.phase < 7 then 7 else 10,
    ⟨distance, p.recent.first, p.recent.second, p.recent.third⟩⟩)

/-- The length of a reference with a recent distance, which becomes the first one. -/
def recentReference? (p : Progress) (position : Nat) : Option (Nat × Progress) := do
  let ⟨first, second, third, fourth⟩ := p.recent
  let (isNotFirst, reader) ← p.reader.bit? (Kind.isNotFirst p.phase)
  let (isLong, recent, reader) ←
    if isNotFirst = 0 then do
      let (isLong, reader) ← reader.bit? (Kind.isLong p.phase position)
      pure (isLong, p.recent, reader)
    else do
      let (isNotSecond, reader) ← reader.bit? (Kind.isNotSecond p.phase)
      if isNotSecond = 0 then pure (1, ⟨second, first, third, fourth⟩, reader)
      else do
        let (isNotThird, reader) ← reader.bit? (Kind.isNotThird p.phase)
        if isNotThird = 0 then pure (1, ⟨third, first, second, fourth⟩, reader)
        else pure (1, ⟨fourth, first, second, third⟩, reader)
  if isLong = 0 then return (1, ⟨reader, if p.phase < 7 then 9 else 11, recent⟩)
  else
    let (length, reader) ← length? Kind.recentLength position reader
    return (length, ⟨reader, if p.phase < 7 then 8 else 11, recent⟩)

/-- One literal or reference. References reach back to the origin at most, and no further than
`reach`; nothing is written beyond `limit`. -/
def step? (p : Progress) (c : Context) (origin reach limit : Nat) (out : Array UInt8) :
    Option (Progress × Array UInt8) := do
  let written := out.size - origin
  let position := written % (1 <<< c.positionBits)
  let (isReference, reader) ← p.reader.bit? (Kind.isReference p.phase position)
  let p := { p with reader }
  if isReference = 0 then p.literal? c origin out
  else
    let (isRecent, reader) ← p.reader.bit? (Kind.isRecent p.phase)
    let p := { p with reader }
    let (length, p) ← if isRecent = 0 then p.newReference? position else p.recentReference? position
    if min written reach < p.recent.first ∨ limit < out.size + length then none
    else return (p, Window.copyBack p.recent.first length out)

/-- Literals and references up to `limit`. -/
def steps? (c : Context) (origin reach limit : Nat) :
    Nat → Progress → Array UInt8 → Option (Progress × Array UInt8)
  | 0, _, _ => none
  | fuel + 1, p, out =>
    if limit ≤ out.size then some (p, out)
    else do
      let (p, out) ← p.step? c origin reach limit out
      steps? c origin reach limit fuel p out

end Progress

/-! ### Chunks -/

/-- What a chunk leaves for the next one. -/
structure Memory where
  context : Context
  odds : Array UInt32
  phase : Nat
  recent : Recent

/-- Nothing has been learned yet. -/
def Memory.fresh (c : Context) : Memory :=
  ⟨c, RangeReader.evenOdds (Kind.count c), 0, ⟨1, 1, 1, 1⟩⟩

/-- What has been unpacked, where the part begins that references may reach, and what was
learned. -/
structure Unpacked where
  out : Array UInt8
  origin : Option Nat
  memory : Option Memory

namespace Unpacked

def empty : Unpacked := ⟨#[], none, none⟩

/-- A number of two bytes, the highest one first, and one more. -/
def size? (data : Array UInt8) (start : Nat) : Option Nat := do
  let high ← data[start]?
  let low ← data[start + 1]?
  return 256 * high.toNat + low.toNat + 1

/-- A chunk of bytes as they are, and the place behind it. -/
def plain? (u : Unpacked) (data : Array UInt8) (start : Nat) : Option (Unpacked × Nat) := do
  let size ← size? data start
  let bytes ← Packed.stretch? data (start + 2) size
  return ({ u with out := u.out ++ bytes }, start + 2 + size)

/-- A chunk of literals and references, and the place behind it. It gives a new context, forgets
what was learned, or goes on with it. -/
def coded? (u : Unpacked) (data : Array UInt8) (reach control start : Nat) :
    Option (Unpacked × Nat) := do
  let origin ← u.origin
  let low ← size? data start
  let length ← size? data (start + 2)
  let (memory, next) ←
    if 0xc0 ≤ control then do
      let byte ← Packed.number? data (start + 4) 1
      let context ← Context.ofByte? byte
      pure (Memory.fresh context, start + 5)
    else do
      let memory ← u.memory
      pure (if 0xa0 ≤ control then Memory.fresh memory.context else memory, start + 4)
  let count := 65536 * (control % 32) + low
  let bytes ← Packed.stretch? data next length
  let reader ← RangeReader.ofBytes? bytes memory.odds
  let (p, out) ← Progress.steps? memory.context origin reach (u.out.size + count) (count + 1)
    ⟨reader, memory.phase, memory.recent⟩ u.out
  let reader ← p.reader.widen?
  if reader.isFinished then
    return (⟨out, u.origin, some ⟨memory.context, reader.odds, p.phase, p.recent⟩⟩, next + length)
  else none

/-- Chunks up to the end mark, and the place behind it. A chunk may cut off references to what is in
front of it, and the first one has to. -/
def chunks? (data : Array UInt8) (reach : Nat) : Nat → Nat → Unpacked → Option (Unpacked × Nat)
  | 0, _, _ => none
  | fuel + 1, start, u => do
    let control ← Packed.number? data start 1
    if control = 0 then return (u, start + 1)
    else
      let u : Unpacked :=
        if 0xe0 ≤ control ∨ control = 1 then ⟨u.out, some u.out.size, none⟩ else u
      if u.origin.isNone ∨ 2 < control ∧ control < 0x80 then none
      else
        let (u, next) ←
          if control < 0x80 then u.plain? data (start + 1)
          else u.coded? data reach control (start + 1)
        chunks? data reach fuel next u

end Unpacked

/-- Unpack chunks from `start` on, and give the place behind them. -/
def unpack? (data : Array UInt8) (reach start : Nat) : Option (Array UInt8 × Nat) := do
  let (u, next) ← Unpacked.chunks? data reach (data.size + 1) start .empty
  return (u.out, next)

end Retrofit.Compression.Lzma
