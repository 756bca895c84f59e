/-!
# Ranges

A bit can be written in less than a bit if it is likely. Data is read as one long fraction: each bit
splits the range in which the fraction lies, in the proportion of the odds for a zero. The odds of
each kind of bit move towards the bits that come.
-/

namespace Retrofit.Compression

/-- Data, where the fraction goes on in it, the range and how far the fraction lies in it, and for
each kind of bit how often of 2048 times it is expected to be zero. -/
structure RangeReader where
  data : Array UInt8
  next : Nat
  range : UInt32
  code : UInt32
  odds : Array UInt32

namespace RangeReader

/-- Even odds for `n` kinds of bits. -/
def evenOdds (n : Nat) : Array UInt32 := Array.replicate n 1024

/-- A byte of zeros and the beginning of the fraction stand in front. -/
def ofBytes? (data : Array UInt8) (odds : Array UInt32) : Option RangeReader := do
  let zero ← data[0]?
  let a ← data[1]?
  let b ← data[2]?
  let c ← data[3]?
  let d ← data[4]?
  if zero = 0 then
    let code := (a.toUInt32 <<< 24) ||| (b.toUInt32 <<< 16) ||| (c.toUInt32 <<< 8) ||| d.toUInt32
    return ⟨data, 5, 0xffffffff, code, odds⟩
  else none

/-- Widen the range by a byte of the data if it has become small. -/
def widen? (r : RangeReader) : Option RangeReader :=
  if r.range < 0x1000000 then do
    let byte ← r.data[r.next]?
    return { r with next := r.next + 1
                    range := r.range <<< 8
                    code := (r.code <<< 8) ||| byte.toUInt32 }
  else some r

/-- Whether the data ends here: all of it has been used, and the fraction as well. -/
def isFinished (r : RangeReader) : Bool := r.code == 0 && r.next == r.data.size

/-- Read a bit of a kind. -/
def bit? (kind : Nat) (r : RangeReader) : Option (Nat × RangeReader) := do
  let r ← r.widen?
  let odds ← r.odds[kind]?
  let bound := (r.range >>> 11) * odds
  if r.code < bound then
    return (0, { r with range := bound
                        odds := r.odds.setIfInBounds kind (odds + ((2048 - odds) >>> 5)) })
  else
    return (1, { r with range := r.range - bound, code := r.code - bound
                        odds := r.odds.setIfInBounds kind (odds - (odds >>> 5)) })

/-- Read bits of even odds that stay even, the highest one first, behind those of `n`. -/
def even? : Nat → Nat → RangeReader → Option (Nat × RangeReader)
  | 0, n, r => some (n, r)
  | width + 1, n, r => do
    let r ← r.widen?
    let half := r.range >>> 1
    if r.code < half then even? width (2 * n) { r with range := half }
    else even? width (2 * n + 1) { r with range := half, code := r.code - half }

/-- Read bits behind those of `n`, the highest one first. The kind of a bit depends on the bits in
front of it. -/
def descend? (kinds : Nat) : Nat → Nat → RangeReader → Option (Nat × RangeReader)
  | 0, n, r => some (n, r)
  | width + 1, n, r => do
    let (bit, r) ← r.bit? (kinds + n)
    descend? kinds width (2 * n + bit) r

/-- A number of `width` bits, the highest one first. -/
def number? (kinds width : Nat) (r : RangeReader) : Option (Nat × RangeReader) := do
  let (n, r) ← r.descend? kinds width 1
  return (n - (1 <<< width), r)

/-- A number of bits with the lowest one first. The kind of a bit depends on the bits in front of
it, which are those of `n`. -/
def lowFirst? (kinds : Nat) : Nat → Nat → RangeReader → Option (Nat × RangeReader)
  | 0, _, r => some (0, r)
  | width + 1, n, r => do
    let (bit, r) ← r.bit? (kinds + n)
    let (rest, r) ← lowFirst? kinds width (2 * n + bit) r
    return (bit + 2 * rest, r)

end RangeReader

end Retrofit.Compression
