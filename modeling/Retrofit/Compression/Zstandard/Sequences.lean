import Retrofit.Compression.StateCode
import Retrofit.Compression.Window
import Retrofit.Packed

/-!
# Sequences

A sequence says how many literals come next, and how many bytes to repeat behind them from how far
back. The three numbers are in state codes of their own, and their bits are read from the end.
-/

namespace Retrofit.Compression.Zstandard

/-- What a code of a sequence may look like: how many symbols it has at most, its greatest accuracy,
and the code of a block that does not describe one. -/
structure Field where
  symbols : Nat
  accuracy : Nat
  standard : StateCode

namespace Field

def literals : Field where
  symbols := 36
  accuracy := 9
  standard := .ofShares 6 [4, 3, 2, 2, 2, 2, 2, 2, 2, 2, 2, 2, 2, 1, 1, 1, 2, 2, 2, 2, 2, 2, 2, 2,
    2, 3, 2, 1, 1, 1, 1, 1, -1, -1, -1, -1]

def distances : Field where
  symbols := 32
  accuracy := 8
  standard := .ofShares 5 [1, 1, 1, 1, 1, 1, 2, 2, 2, 1, 1, 1, 1, 1, 1, 1, 1, 1, 1, 1, 1, 1, 1, 1,
    -1, -1, -1, -1, -1]

def lengths : Field where
  symbols := 53
  accuracy := 9
  standard := .ofShares 6 [1, 4, 3, 2, 2, 2, 2, 2, 2, 1, 1, 1, 1, 1, 1, 1, 1, 1, 1, 1, 1, 1, 1, 1,
    1, 1, 1, 1, 1, 1, 1, 1, 1, 1, 1, 1, 1, 1, 1, 1, 1, 1, 1, 1, 1, 1, -1, -1, -1, -1, -1, -1, -1]

/-- Read a code, and give the place behind its description. There are four ways: the standard one, a
single symbol, a description, and the code of the block before. -/
def read? (f : Field) (data : Array UInt8) (before : Option StateCode) (start : Nat) :
    Nat → Option (StateCode × Nat)
  | 0 => some (f.standard, start)
  | 1 => do
    let symbol ← Packed.number? data start 1
    if symbol < f.symbols then return (.single symbol, start + 1) else none
  | 2 => do
    let (code, b) ← StateCode.read? f.symbols f.accuracy ⟨data, .lowFirst, 8 * start⟩
    return (code, b.position / 8)
  | _ => before.map fun code => (code, start)

end Field

/-- The codes of the three fields. -/
structure FieldCodes where
  literals : StateCode
  distances : StateCode
  lengths : StateCode

/-- The three distances that were used last, the last one first. -/
structure Recent where
  first : Nat
  second : Nat
  third : Nat

namespace Recent

def start : Recent := ⟨1, 4, 8⟩

/-- The distance that a value stands for. The first three values stand for the recent distances, or,
where no literals come before, for those from the second one on and one less than the first one. -/
def distance (r : Recent) (value literals : Nat) : Nat × Recent :=
  let place := if literals = 0 then value + 1 else value
  if 3 < value then (value - 3, ⟨value - 3, r.first, r.second⟩)
  else if place = 1 then (r.first, r)
  else if place = 2 then (r.second, ⟨r.second, r.first, r.third⟩)
  else if place = 3 then (r.third, ⟨r.third, r.first, r.second⟩)
  else (r.first - 1, ⟨r.first - 1, r.first, r.second⟩)

end Recent

/-- The smallest number of literals of each symbol, and how many bits are added to it. -/
def literalTable : Array (Nat × Nat) :=
  ((List.range 16).map fun n => (n, 0)).toArray ++ #[(16, 1), (18, 1), (20, 1), (22, 1), (24, 2),
    (28, 2), (32, 3), (40, 3), (48, 4), (64, 6), (128, 7), (256, 8), (512, 9), (1024, 10),
    (2048, 11), (4096, 12), (8192, 13), (16384, 14), (32768, 15), (65536, 16)]

/-- The smallest length of each symbol, and how many bits are added to it. -/
def lengthTable : Array (Nat × Nat) :=
  ((List.range 32).map fun n => (n + 3, 0)).toArray ++ #[(35, 1), (37, 1), (39, 1), (41, 1),
    (43, 2), (47, 2), (51, 3), (59, 3), (67, 4), (83, 4), (99, 5), (131, 7), (259, 8), (515, 9), (1027, 10),
    (2051, 11), (4099, 12), (8195, 13), (16387, 14), (32771, 15), (65539, 16)]

/-- A value of a table with the bits that are added to it. -/
def tableValue? (table : Array (Nat × Nat)) (symbol : Nat) (b : BackwardBits) :
    Option (Nat × BackwardBits) := do
  let (base, extra) ← table[symbol]?
  let (more, b) ← b.number? extra
  return (base + more, b)

/-! ### Carrying out -/

/-- How far a block has been unpacked: what the frame has so far, how many literals were used, and
the recent distances. -/
structure Progress where
  out : Array UInt8
  used : Nat
  recent : Recent

/-- Append literals, and repeat bytes of the frame behind them. -/
def Progress.step? (p : Progress) (literals : Array UInt8) (count value length : Nat) :
    Option Progress :=
  let (distance, recent) := p.recent.distance value count
  let out := p.out ++ literals.extract p.used (p.used + count)
  if literals.size < p.used + count ∨ distance = 0 ∨ out.size < distance then none
  else some ⟨Window.copyBack distance length out, p.used + count, recent⟩

/-- The states of the three fields. -/
structure FieldStates where
  literals : CodeState
  distances : CodeState
  lengths : CodeState

/-- Carry out sequences. What the frame has may not grow beyond `limit`. -/
def sequences? (codes : FieldCodes) (literals : Array UInt8) (limit : Nat) :
    Nat → FieldStates → Progress → BackwardBits → Option Progress
  | 0, _, p, b => if b.left = 0 then some p else none
  | n + 1, s, p, b => do
    let (more, b) ← b.number? s.distances.symbol
    let (length, b) ← tableValue? lengthTable s.lengths.symbol b
    let (count, b) ← tableValue? literalTable s.literals.symbol b
    if limit < p.out.size + count + length then none
    else
      let p ← p.step? literals count ((1 <<< s.distances.symbol) + more) length
      if n = 0 then sequences? codes literals limit n s p b
      else
        let (first, b) ← codes.literals.next? s.literals b
        let (third, b) ← codes.lengths.next? s.lengths b
        let (second, b) ← codes.distances.next? s.distances b
        sequences? codes literals limit n ⟨first, second, third⟩ p b

/-- The number of sequences, and the place behind it. -/
def sequenceCount? (data : Array UInt8) (start : Nat) : Option (Nat × Nat) := do
  let first ← Packed.number? data start 1
  if first < 128 then return (first, start + 1)
  else if first < 255 then
    let second ← Packed.number? data (start + 1) 1
    return ((first - 128) * 256 + second, start + 2)
  else
    let n ← Packed.number? data (start + 1) 2
    return (n + 0x7f00, start + 3)

/-- The codes of a block, and the place behind their descriptions. -/
def fieldCodes? (data : Array UInt8) (before : Option FieldCodes) (start : Nat) :
    Option (FieldCodes × Nat) := do
  let ways ← Packed.number? data start 1
  if ways % 4 ≠ 0 then none
  else
    let (first, next) ← Field.literals.read? data (before.map FieldCodes.literals) (start + 1)
      (ways / 64)
    let (second, next) ← Field.distances.read? data (before.map FieldCodes.distances) next
      (ways / 16 % 4)
    let (third, next) ← Field.lengths.read? data (before.map FieldCodes.lengths) next (ways / 4 % 4)
    return (⟨first, second, third⟩, next)

/-- Carry out the sequences of a block from `start` on, and append the literals that are left. -/
def carryOut? (data : Array UInt8) (start : Nat) (literals : Array UInt8) (limit : Nat)
    (before : Option FieldCodes) (recent : Recent) (out : Array UInt8) :
    Option (Array UInt8 × Option FieldCodes × Recent) := do
  let (count, next) ← sequenceCount? data start
  if count = 0 then
    if next = data.size ∧ out.size + literals.size ≤ limit then
      return (out ++ literals, before, recent)
    else none
  else
    let (codes, next) ← fieldCodes? data before next
    let b ← BackwardBits.ofBytes? (data.extract next data.size)
    let (first, b) ← codes.literals.start? b
    let (second, b) ← codes.distances.start? b
    let (third, b) ← codes.lengths.start? b
    let p ← sequences? codes literals limit count ⟨first, second, third⟩ ⟨out, 0, recent⟩ b
    let rest := literals.extract p.used literals.size
    if limit < p.out.size + rest.size then none
    else return (p.out ++ rest, some codes, p.recent)

end Retrofit.Compression.Zstandard
