import Retrofit.Compression.StateCode
import Retrofit.Packed

/-!
# Literals

The literal bytes of a block stand together at its front: as they are, as one byte repeated, or in a
prefix code that is described by weights. A weight is one more than the number of bits by which a
word is shorter than the longest ones.
-/

namespace Retrofit.Compression.Zstandard

/-- A prefix code by the longest word: for each sequence of `width` bits the symbol whose word it
begins with, and the length of the word. -/
structure WeightCode where
  width : Nat
  words : Array (UInt8 × Nat)

namespace WeightCode

/-- The code whose symbols have the given weights. A symbol of weight zero has no word. -/
def ofWeights (width : Nat) (weights : List Nat) : WeightCode :=
  ⟨width, ((List.range width).flatMap fun n =>
    (weights.zipIdx.filter fun p => p.1 = n + 1).flatMap fun p =>
      List.replicate (1 <<< n) (UInt8.ofNat p.2, width - n)).toArray⟩

/-- How many of the longest words a word of the weight takes the place of. -/
def worth (weight : Nat) : Nat := (1 <<< weight) / 2

/-- The code with the given weights and that of one more symbol, which fills up the code. The
longest words come in pairs. -/
def complete? (weights : List Nat) : Option WeightCode :=
  let total := weights.foldl (fun n weight => n + worth weight) 0
  let width := total.log2 + 1
  let rest := (1 <<< width) - total
  let all := weights ++ [rest.log2 + 1]
  if weights.all (· ≤ 12) ∧ total ≠ 0 ∧ width ≤ 12 ∧ rest = 1 <<< rest.log2 ∧
      2 ≤ all.count 1 ∧ all.count 1 % 2 = 0 then
    some (ofWeights width all)
  else none

/-- Weights of which two states take turns, until the bits do not suffice for the next state: then
the weight of the other state is the last one. -/
def turns? (c : StateCode) : Nat → CodeState → CodeState → BackwardBits → Option (List Nat)
  | 0, _, _, _ => none
  | fuel + 1, s, other, b =>
    if b.left < s.width then some [s.symbol, other.symbol]
    else do
      let (next, b) ← c.next? s b
      let rest ← turns? c fuel other next b
      return s.symbol :: rest

/-- Weights of four bits each, the first one of a byte in its high half. -/
def halves (count : Nat) (bytes : List UInt8) : List Nat :=
  (bytes.flatMap fun b => [b.toNat / 16, b.toNat % 16]).take count

/-- Read the description of a code, and give the place behind it. -/
def read? (data : Array UInt8) (start : Nat) : Option (WeightCode × Nat) := do
  let size ← Packed.number? data start 1
  if 128 ≤ size then
    let bytes ← Packed.stretch? data (start + 1) ((size - 126) / 2)
    let code ← complete? (halves (size - 127) bytes.toList)
    return (code, start + 1 + (size - 126) / 2)
  else
    let bytes ← Packed.stretch? data (start + 1) size
    let (states, b) ← StateCode.read? 256 6 (.ofBytes .lowFirst bytes)
    let b ← BackwardBits.ofBytes? (bytes.extract (b.position / 8) bytes.size)
    let (s, b) ← states.start? b
    let (other, b) ← states.start? b
    let weights ← turns? states 255 s other b
    if 255 < weights.length then none
    else
      let code ← complete? weights
      return (code, start + 1 + size)

/-- Read `n` symbols. They have to use up all bits. -/
def symbols? (c : WeightCode) : Nat → BackwardBits → Array UInt8 → Option (Array UInt8)
  | 0, b, out => if b.left = 0 then some out else none
  | n + 1, b, out => do
    let (symbol, length) ← c.words[b.peek c.width]?
    let b ← b.skip? length
    symbols? c n b (out.push symbol)

/-- Read `n` symbols from a stretch of the data. -/
def stretch? (c : WeightCode) (data : Array UInt8) (start length n : Nat) (out : Array UInt8) :
    Option (Array UInt8) := do
  let bytes ← Packed.stretch? data start length
  let b ← BackwardBits.ofBytes? bytes
  c.symbols? n b out

/-- Read `n` symbols from four stretches of the data. The lengths of the first three stand in
front. -/
def fourStretches? (c : WeightCode) (data : Array UInt8) (start length n : Nat) :
    Option (Array UInt8) := do
  let first ← Packed.number? data start 2
  let second ← Packed.number? data (start + 2) 2
  let third ← Packed.number? data (start + 4) 2
  let part := (n + 3) / 4
  if length < 6 + first + second + third ∨ n < 6 ∨ n < 3 * part then none
  else
    let start := start + 6
    let out ← c.stretch? data start first part #[]
    let out ← c.stretch? data (start + first) second part out
    let out ← c.stretch? data (start + first + second) third part out
    c.stretch? data (start + first + second + third) (length - 6 - first - second - third)
      (n - 3 * part) out

end WeightCode

/-- Literal bytes, the code that later blocks may use again, and the place behind them. -/
structure Literals where
  bytes : Array UInt8
  code : Option WeightCode
  next : Nat

namespace Literals

/-- Literals that are not in a code: as they are, or one byte repeated. -/
def plain? (data : Array UInt8) (code : Option WeightCode) (repeated : Bool)
    (format first limit : Nat) : Option Literals := do
  let width := if format % 2 = 0 then 1 else if format = 1 then 2 else 3
  let head ← Packed.number? data 0 width
  let count := if format % 2 = 0 then first / 8 else head / 16
  if limit < count then none
  else if repeated then
    let byte ← data[width]?
    return ⟨Array.replicate count byte, code, width + 1⟩
  else
    let bytes ← Packed.stretch? data width count
    return ⟨bytes, code, width + count⟩

/-- Literals in a code: the one that is described in front of them, or that of a block before. -/
def coded? (data : Array UInt8) (code : Option WeightCode) (again : Bool) (format limit : Nat) :
    Option Literals := do
  let width := if format < 2 then 3 else format + 2
  let bits := if format < 2 then 10 else 4 * format + 6
  let head ← Packed.number? data 0 width
  let count := head / 16 % (1 <<< bits)
  let length := head / 16 / (1 <<< bits)
  let next := width + length
  if limit < count ∨ data.size < next then none
  else
    let (code, start) ← if again then code.map fun c => (c, width) else WeightCode.read? data width
    if next < start then none
    else
      let bytes ←
        if format = 0 then code.stretch? data start (next - start) count #[]
        else code.fourStretches? data start (next - start) count
      return ⟨bytes, some code, next⟩

/-- The literals at the front of a block, at most `limit` of them. -/
def read? (data : Array UInt8) (code : Option WeightCode) (limit : Nat) : Option Literals := do
  let first ← Packed.number? data 0 1
  let kind := first % 4
  let format := first / 4 % 4
  if kind < 2 then plain? data code (kind = 1) format first limit
  else coded? data code (kind = 3) format limit

end Literals

end Retrofit.Compression.Zstandard
