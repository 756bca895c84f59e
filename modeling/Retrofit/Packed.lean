/-!
# Packed data

Arrays of bytes in which numbers stand with their lowest byte first.
-/

namespace Retrofit.Packed

/-- A number of `width` bytes, the lowest one first. -/
def number? (data : Array UInt8) (start : Nat) : Nat → Option Nat
  | 0 => some 0
  | width + 1 => do
    let byte ← data[start]?
    let rest ← number? data (start + 1) width
    return byte.toNat + 256 * rest

/-- The bytes of a number, the lowest one first. -/
def numberBytes : Nat → Nat → List UInt8
  | 0, _ => []
  | width + 1, n => UInt8.ofNat n :: numberBytes width (n / 256)

/-- The bytes of a stretch of the data, if it has them all. -/
def stretch? (data : Array UInt8) (start length : Nat) : Option (Array UInt8) :=
  if start + length ≤ data.size then some (data.extract start (start + length)) else none

/-- Find the first of `n` places from `start` on at which there is something. -/
def first? {α : Type} (at? : Nat → Option α) : Nat → Nat → Option α
  | 0, _ => none
  | n + 1, start =>
    match at? start with
    | some x => some x
    | none => first? at? n (start + 1)

end Retrofit.Packed
