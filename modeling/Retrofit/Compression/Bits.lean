/-!
# Bits

Compressed data is read bit by bit, from the low end of each byte or from its high end. Some streams
are written to be read from their end to their start.
-/

namespace Retrofit.Compression

/-- Which bit of a byte comes first. -/
inductive BitOrder where
  | lowFirst
  | highFirst
  deriving DecidableEq, Repr

/-- Data and how many of its bits have been read. -/
structure Bits where
  data : Array UInt8
  order : BitOrder
  position : Nat

namespace Bits

/-- Data of which nothing has been read. -/
def ofBytes (order : BitOrder) (data : Array UInt8) : Bits := ⟨data, order, 0⟩

/-- How many bits the data has. -/
def count (b : Bits) : Nat := 8 * b.data.size

def next? (b : Bits) : Option (Nat × Bits) := do
  let byte ← b.data[b.position / 8]?
  let place :=
    match b.order with
    | .lowFirst => b.position % 8
    | .highFirst => 7 - b.position % 8
  return ((byte.toNat.testBit place).toNat, { b with position := b.position + 1 })

/-- A number of `n` bits. Its lowest bit comes first if the low bits of a byte do. -/
def number? : Nat → Bits → Option (Nat × Bits)
  | 0, b => some (0, b)
  | n + 1, b => do
    let (bit, b) ← b.next?
    let (rest, b) ← number? n b
    match b.order with
    | .lowFirst => return (bit + 2 * rest, b)
    | .highFirst => return ((bit <<< n) + rest, b)

/-- Numbers of `width` bits. -/
def numbers? (width : Nat) : Nat → Bits → Option (List Nat × Bits)
  | 0, b => some ([], b)
  | n + 1, b => do
    let (x, b) ← b.number? width
    let (xs, b) ← numbers? width n b
    return (x :: xs, b)

/-- Skip to the next whole byte. -/
def align (b : Bits) : Bits := { b with position := (b.position + 7) / 8 * 8 }

end Bits

/-- Data that is read from its end, and how many of its bits are left. -/
structure BackwardBits where
  data : Array UInt8
  left : Nat

namespace BackwardBits

/-- The highest one bit of the last byte stands in front of the bits to read. -/
def ofBytes? (data : Array UInt8) : Option BackwardBits := do
  let last ← data.back?
  if last = 0 then none else return ⟨data, 8 * (data.size - 1) + last.toNat.log2⟩

def next? (b : BackwardBits) : Option (Nat × BackwardBits) := do
  if b.left = 0 then none
  else
    let byte ← b.data[(b.left - 1) / 8]?
    return ((byte.toNat.testBit ((b.left - 1) % 8)).toNat, { b with left := b.left - 1 })

/-- A number of `n` bits, the highest one first. -/
def number? : Nat → BackwardBits → Option (Nat × BackwardBits)
  | 0, b => some (0, b)
  | n + 1, b => do
    let (bit, b) ← b.next?
    let (rest, b) ← number? n b
    return ((bit <<< n) + rest, b)

/-- The number that `n` bits would give, with zeros for those that are missing. -/
def peek : Nat → BackwardBits → Nat
  | 0, _ => 0
  | n + 1, b =>
    match b.next? with
    | some (bit, b) => (bit <<< n) + peek n b
    | none => 0

/-- Pass over `n` bits. -/
def skip? (n : Nat) (b : BackwardBits) : Option BackwardBits :=
  if n ≤ b.left then some { b with left := b.left - n } else none

end BackwardBits

end Retrofit.Compression
