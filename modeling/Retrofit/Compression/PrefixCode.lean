import Retrofit.Compression.Bits

/-!
# Prefix codes

In a prefix code no word is the beginning of another one. The lengths of the words fix the code:
shorter words come first, and words of one length are in the order of their symbols.
-/

namespace Retrofit.Compression

/-- A prefix code: how many words there are of each length from 1 on, and the symbols in the order
of their words. -/
structure PrefixCode where
  counts : List Nat
  symbols : Array Nat

namespace PrefixCode

/-- The code whose words have the given lengths, of at most `longest` bits. A symbol of length 0 has
no word. -/
def ofLengths (longest : Nat) (lengths : List Nat) : PrefixCode :=
  let sizes := (List.range longest).map (· + 1)
  { counts := sizes.map fun n => lengths.count n
    symbols := (sizes.flatMap fun n =>
      (lengths.zipIdx.filter fun p => p.1 = n).map Prod.snd).toArray }

/-- How many words of `longest` bits begin with a word of the code. -/
def covered (longest : Nat) (lengths : List Nat) : Nat :=
  lengths.foldl (fun n length => if length = 0 then n else n + (1 <<< (longest - length))) 0

/-- Whether every sequence of bits begins with a word of the code, and with one only. -/
def isComplete (longest : Nat) (lengths : List Nat) : Bool :=
  covered longest lengths == 1 <<< longest

/-- Read one symbol. Among words of the same length, `first` is the smallest, and `index` is the
place of its symbol. -/
def symbolFrom? (symbols : Array Nat) : List Nat → Nat → Nat → Nat → Bits → Option (Nat × Bits)
  | [], _, _, _, _ => none
  | count :: counts, word, first, index, b => do
    let (bit, b) ← b.next?
    let word := word + bit
    if word < first + count then
      let symbol ← symbols[index + (word - first)]?
      return (symbol, b)
    else symbolFrom? symbols counts (2 * word) (2 * (first + count)) (index + count) b

def symbol? (c : PrefixCode) (b : Bits) : Option (Nat × Bits) :=
  symbolFrom? c.symbols c.counts 0 0 0 b

end PrefixCode

end Retrofit.Compression
