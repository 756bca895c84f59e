import Retrofit.Checksum
import Retrofit.Compression.Bzip2.Shuffle
import Retrofit.Compression.PrefixCode
import Retrofit.Compression.Window

/-!
# Data packed in sorted blocks

The bytes of a block are sorted by what follows them, which brings equal bytes together. They are
then written as places in a list whose last used byte comes first, and the places in several prefix
codes, of which each fifty symbols select one.
-/

namespace Retrofit.Compression.Bzip2

/-- The mark in front of a block. -/
def blockMark : Nat := 0x314159265359

/-- The mark behind the last block. -/
def endMark : Nat := 0x177245385090

/-! ### Symbols -/

/-- The bytes that a block uses, given which stretches of 16 bytes have any of them. -/
def used? : List Nat → Nat → Bits → Option (List UInt8 × Bits)
  | [], _, b => some ([], b)
  | stretch :: rest, start, b => do
    let (marks, b) ← b.numbers? 1 (16 * stretch)
    let bytes := ((marks.zipIdx start).filter fun p => p.1 = 1).map fun p => UInt8.ofNat p.2
    let (others, b) ← used? rest (start + 16) b
    return (bytes ++ others, b)

/-- How many one bits stand in front of a zero bit, if there are fewer than the given number. -/
def ones? : Nat → Bits → Option (Nat × Bits)
  | 0, _ => none
  | limit + 1, b => do
    let (bit, b) ← b.next?
    if bit = 0 then return (0, b)
    else
      let (n, b) ← ones? limit b
      return (n + 1, b)

/-- Selections as places in a list whose last selected code comes first. -/
def places? (codes : Nat) : Nat → List Nat → Bits → Option (List Nat × Bits)
  | 0, acc, b => some (acc.reverse, b)
  | n + 1, acc, b => do
    let (place, b) ← ones? codes b
    places? codes n (place :: acc) b

/-- The selected codes, given their places. -/
def selections? : List Nat → List Nat → List Nat → Option (List Nat)
  | [], _, acc => some acc.reverse
  | place :: places, order, acc => do
    let code ← order[place]?
    selections? places (code :: order.eraseIdx place) (code :: acc)

/-- The length of a word, one step at a time from the length of the word before it. -/
def length? : Nat → Nat → Bits → Option (Nat × Bits)
  | 0, _, _ => none
  | fuel + 1, length, b => do
    if length < 1 ∨ 20 < length then none
    else
      let (go, b) ← b.next?
      if go = 0 then return (length, b)
      else
        let (down, b) ← b.next?
        length? fuel (if down = 1 then length - 1 else length + 1) b

def lengths? : Nat → Nat → List Nat → Bits → Option (List Nat × Bits)
  | 0, _, acc, b => some (acc.reverse, b)
  | n + 1, length, acc, b => do
    let (length, b) ← length? (b.count + 1) length b
    lengths? n length (length :: acc) b

/-- The codes for an alphabet of `size` symbols. -/
def codes? (size : Nat) : Nat → List PrefixCode → Bits → Option (List PrefixCode × Bits)
  | 0, acc, b => some (acc.reverse, b)
  | n + 1, acc, b => do
    let (length, b) ← b.number? 5
    let (lengths, b) ← lengths? size length [] b
    codes? size n (.ofLengths 20 lengths :: acc) b

/-- Symbols of one code onto those read before, the last one first, and whether they end the
block. -/
def group? (code : PrefixCode) (last : Nat) :
    Nat → List Nat → Bits → Option (Bool × List Nat × Bits)
  | 0, acc, b => some (false, acc, b)
  | n + 1, acc, b => do
    let (symbol, b) ← code.symbol? b
    if symbol = last then return (true, acc, b) else group? code last n (symbol :: acc) b

/-- The symbols of a block, fifty for each selected code. -/
def symbols? (codes : Array PrefixCode) (last : Nat) :
    List Nat → List Nat → Bits → Option (List Nat × Bits)
  | [], _, _ => none
  | selected :: rest, acc, b => do
    let code ← codes[selected]?
    let (ended, acc, b) ← group? code last 50 acc b
    if ended then return (acc.reverse, b) else symbols? codes last rest acc b

/-! ### Bytes -/

/-- The bytes that symbols stand for, at most `limit` of them. The first two symbols are the digits
one and two of the length of a run, the lowest one first; the others are places in `order`. -/
def sorted? (limit : Nat) :
    List Nat → Nat → List UInt8 → Array UInt8 → Option (Array UInt8)
  | [], _, _, out => some out
  | symbol :: rest, weight, order, out => do
    if symbol < 2 then
      let byte ← order.head?
      let n := weight <<< symbol
      if limit < out.size + n then none
      else sorted? limit rest (2 * weight) order (Window.pushAll byte n out)
    else
      let byte ← order[symbol - 1]?
      if limit ≤ out.size then none
      else sorted? limit rest 1 (byte :: order.eraseIdx (symbol - 1)) (out.push byte)

/-- The places of the bytes in the order of the bytes; equal bytes stay in their order. -/
def ranks (bytes : Array UInt8) : Array Nat :=
  let ranked := bytes.toList.zipIdx.foldl
    (fun (byByte : Array (List Nat)) (byte, place) => byByte.modify byte.toNat (place :: ·))
    (Array.replicate 256 [])
  (ranked.toList.flatMap List.reverse).toArray

/-- Walk from byte to byte as they followed each other before they were sorted. -/
def unsort (bytes : Array UInt8) (next : Array Nat) : Nat → Nat → Array UInt8 → Array UInt8
  | 0, _, out => out
  | n + 1, place, out =>
    let place := next[place]?.getD 0
    unsort bytes next n place (out.push (bytes[place]?.getD 0))

/-- Behind four equal bytes stands how many more of them there are. `run` is how many bytes equal
to `last` came last. -/
def expand? : List UInt8 → UInt8 → Nat → Array UInt8 → Option (Array UInt8)
  | [], _, run, out => if run = 4 then none else some out
  | byte :: rest, last, run, out =>
    if run = 4 then expand? rest last 0 (Window.pushAll last byte.toNat out)
    else if run ≠ 0 ∧ byte = last then expand? rest last (run + 1) (out.push byte)
    else expand? rest byte 1 (out.push byte)

/-! ### Blocks -/

/-- The bytes of a block, and their checksum. -/
def block? (limit : Nat) (b : Bits) : Option (Array UInt8 × UInt32 × Bits) := do
  let (checksum, b) ← b.number? 32
  let (shuffled, b) ← b.next?
  let (origin, b) ← b.number? 24
  let (stretches, b) ← b.numbers? 1 16
  let (used, b) ← used? stretches 0 b
  let (count, b) ← b.number? 3
  let (selectors, b) ← b.number? 15
  if used = [] ∨ count < 2 ∨ 6 < count ∨ selectors = 0 then none
  else
    let (places, b) ← places? count selectors [] b
    let selected ← selections? (places.take 18002) (List.range count) []
    let (codes, b) ← codes? (used.length + 2) count [] b
    let (symbols, b) ← symbols? codes.toArray (used.length + 1) selected [] b
    let sorted ← sorted? limit symbols 1 used #[]
    if sorted.size ≤ origin then none
    else
      let bytes := unsort sorted (ranks sorted) sorted.size origin #[]
      let bytes ← expand? (if shuffled = 1 then turnBack bytes else bytes).toList 0 0 #[]
      if (Checksum.highCrc32 bytes.toList).toNat = checksum then
        return (bytes, UInt32.ofNat checksum, b)
      else none

/-- Blocks up to the end mark. The checksums of the blocks make up that of the whole. -/
def blocks? (limit : Nat) : Nat → UInt32 → Array UInt8 → Bits → Option (Array UInt8)
  | 0, _, _, _ => none
  | fuel + 1, total, out, b => do
    let (mark, b) ← b.number? 48
    if mark = endMark then
      let (checksum, _) ← b.number? 32
      if total.toNat = checksum then return out else none
    else if mark = blockMark then
      let (bytes, checksum, b) ← block? limit b
      blocks? limit fuel (((total <<< 1) ||| (total >>> 31)) ^^^ checksum) (out ++ bytes) b
    else none

/-- What the packed data stands for. What lies behind its end is left alone. -/
def unpack? (data : Array UInt8) : Option (Array UInt8) := do
  let b := Bits.ofBytes .highFirst data
  let (mark, b) ← b.number? 24
  let (level, b) ← b.number? 8
  if mark = 0x425a68 ∧ 0x31 ≤ level ∧ level ≤ 0x39 then
    blocks? (100000 * (level - 0x30)) (data.size + 1) 0 #[] b
  else none

end Retrofit.Compression.Bzip2
