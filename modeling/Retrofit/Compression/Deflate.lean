import Retrofit.Compression.PrefixCode
import Retrofit.Compression.Window

/-!
# Deflated data

Deflated data is a sequence of blocks of literal bytes and of references back into what was unpacked
before. Symbols are written in prefix codes, which a block describes by the lengths of their words.
Every symbol takes at least one bit, so the number of bits bounds the work.

The wide dialect has references that reach further back and repeat more bytes at once.
-/

namespace Retrofit.Compression.Deflate

inductive Dialect where
  | narrow
  | wide
  deriving DecidableEq, Repr

namespace Dialect

/-- The smallest length of each length symbol but the last one, and how many bits are added to
it. -/
def commonLengths : Array (Nat × Nat) := #[
  (3, 0), (4, 0), (5, 0), (6, 0), (7, 0), (8, 0), (9, 0), (10, 0), (11, 1), (13, 1), (15, 1),
  (17, 1), (19, 2), (23, 2), (27, 2), (31, 2), (35, 3), (43, 3), (51, 3), (59, 3), (67, 4), (83, 4),
  (99, 4), (115, 4), (131, 5), (163, 5), (195, 5), (227, 5)]

/-- The smallest distance of each distance symbol that both dialects have, and how many bits are
added to it. -/
def commonDistances : Array (Nat × Nat) := #[
  (1, 0), (2, 0), (3, 0), (4, 0), (5, 1), (7, 1), (9, 2), (13, 2), (17, 3), (25, 3), (33, 4),
  (49, 4), (65, 5), (97, 5), (129, 6), (193, 6), (257, 7), (385, 7), (513, 8), (769, 8), (1025, 9),
  (1537, 9), (2049, 10), (3073, 10), (4097, 11), (6145, 11), (8193, 12), (12289, 12), (16385, 13),
  (24577, 13)]

/-- The last length symbol stands for the longest reference, or for any length up to it. -/
def lengths : Dialect → Array (Nat × Nat)
  | narrow => commonLengths.push (258, 0)
  | wide => commonLengths.push (3, 16)

def distances : Dialect → Array (Nat × Nat)
  | narrow => commonDistances
  | wide => (commonDistances.push (32769, 14)).push (49153, 14)

/-- Whether a block may describe so many literal and distance symbols. -/
def allows (literals distances : Nat) : Dialect → Bool
  | narrow => decide (literals ≤ 286 ∧ distances ≤ 30)
  | wide => true

/-- Whether the code for code lengths may have words of these lengths. -/
def acceptsLengths (lengths : List Nat) : Dialect → Bool
  | narrow => PrefixCode.isComplete 15 lengths
  | wide => decide (PrefixCode.covered 15 lengths ≤ 32768)

/-- Whether the code for literals or distances may have words of these lengths. In the narrow
dialect an incomplete code has at most one word, of one bit. -/
def accepts (lengths : List Nat) : Dialect → Bool
  | narrow =>
    PrefixCode.isComplete 15 lengths || (lengths.filter (· ≠ 0)).isEmpty ||
      lengths.filter (· ≠ 0) == [1]
  | wide => decide (PrefixCode.covered 15 lengths ≤ 32768)

end Dialect

/-! ### Codes -/

/-- The code of words of at most 15 bits. -/
def code (lengths : List Nat) : PrefixCode := .ofLengths 15 lengths

/-- The code for literals and lengths where a block gives none. -/
def fixedLiterals : PrefixCode :=
  code (List.replicate 144 8 ++ (List.replicate 112 9 ++ (List.replicate 24 7 ++
    List.replicate 8 8)))

/-- The code for distances where a block gives none. -/
def fixedDistances : PrefixCode := code (List.replicate 32 5)

/-- The order in which a block gives the lengths of the code for code lengths. -/
def lengthOrder : List Nat := [16, 17, 18, 0, 8, 7, 9, 6, 10, 5, 11, 4, 12, 3, 13, 2, 14, 1, 15]

/-- Read code lengths until there are `total` of them, onto those read before, the last one
first. Three symbols stand for runs. -/
def lengths? (code : PrefixCode) (total : Nat) :
    Nat → List Nat → Bits → Option (List Nat × Bits)
  | 0, _, _ => none
  | fuel + 1, acc, b =>
    if total < acc.length then none
    else if acc.length = total then some (acc.reverse, b)
    else do
      let (symbol, b) ← code.symbol? b
      if symbol < 16 then lengths? code total fuel (symbol :: acc) b
      else if symbol = 16 then
        let last ← acc.head?
        let (n, b) ← b.number? 2
        lengths? code total fuel (List.replicate (n + 3) last ++ acc) b
      else if symbol = 17 then
        let (n, b) ← b.number? 3
        lengths? code total fuel (List.replicate (n + 3) 0 ++ acc) b
      else
        let (n, b) ← b.number? 7
        lengths? code total fuel (List.replicate (n + 11) 0 ++ acc) b

/-- The two codes that a block describes at its front. -/
def codes? (d : Dialect) (b : Bits) : Option (PrefixCode × PrefixCode × Bits) := do
  let (literals, b) ← b.number? 5
  let (distances, b) ← b.number? 5
  let (count, b) ← b.number? 4
  let (given, b) ← b.numbers? 3 (count + 4)
  let lengthOf := fun n =>
    match (lengthOrder.zip given).find? fun p => p.1 = n with
    | some (_, length) => length
    | none => 0
  let lengths := (List.range 19).map lengthOf
  if d.allows (literals + 257) (distances + 1) ∧ d.acceptsLengths lengths then
    let (lengths, b) ← lengths? (code lengths) (literals + 257 + (distances + 1)) (b.count + 1) [] b
    let forLiterals := lengths.take (literals + 257)
    let forDistances := lengths.drop (literals + 257)
    if d.accepts forLiterals ∧ d.accepts forDistances then
      return (code forLiterals, code forDistances, b)
    else none
  else none

/-! ### Blocks -/

/-- A value of a table with the bits that are added to it. -/
def tableValue? (table : Array (Nat × Nat)) (symbol : Nat) (b : Bits) : Option (Nat × Bits) := do
  let (base, extra) ← table[symbol]?
  let (more, b) ← b.number? extra
  return (base + more, b)

/-- The symbols of a block up to its end mark. -/
def symbols? (d : Dialect) (literals distances : PrefixCode) :
    Nat → Array UInt8 → Bits → Option (Array UInt8 × Bits)
  | 0, _, _ => none
  | fuel + 1, out, b => do
    let (symbol, b) ← literals.symbol? b
    if symbol < 256 then symbols? d literals distances fuel (out.push (UInt8.ofNat symbol)) b
    else if symbol = 256 then return (out, b)
    else
      let (length, b) ← tableValue? d.lengths (symbol - 257) b
      let (symbol, b) ← distances.symbol? b
      let (distance, b) ← tableValue? d.distances symbol b
      symbols? d literals distances fuel (Window.copyBack distance length out) b

/-- A block of bytes as they are: their number, its complement, and the bytes. -/
def stored? (out : Array UInt8) (b : Bits) : Option (Array UInt8 × Bits) := do
  let (length, b) ← b.align.number? 16
  let (complement, b) ← b.number? 16
  if length + complement ≠ 65535 then none
  else
    let start := b.position / 8
    if b.data.size < start + length then none
    else
      return (out ++ b.data.extract start (start + length),
        { b with position := b.position + 8 * length })

/-- One block, and whether it is the last one. -/
def block? (d : Dialect) (out : Array UInt8) (b : Bits) :
    Option (Bool × Array UInt8 × Bits) := do
  let (last, b) ← b.next?
  let (kind, b) ← b.number? 2
  let (out, b) ←
    match kind with
    | 0 => stored? out b
    | 1 => symbols? d fixedLiterals fixedDistances b.count out b
    | 2 => do
      let (literals, distances, b) ← codes? d b
      symbols? d literals distances b.count out b
    | _ => none
  return (last = 1, out, b)

/-- Blocks up to the last one. -/
def blocks? (d : Dialect) : Nat → Array UInt8 → Bits → Option (Array UInt8)
  | 0, _, _ => none
  | fuel + 1, out, b => do
    let (last, out, b) ← block? d out b
    if last then return out else blocks? d fuel out b

/-- What deflated data stands for. What lies behind the last block is left alone. -/
def unpack? (d : Dialect) (data : Array UInt8) : Option (Array UInt8) :=
  blocks? d (8 * data.size) #[] (.ofBytes .lowFirst data)

end Retrofit.Compression.Deflate
