import Retrofit.Compression.Bits

/-!
# State codes

In a state code a symbol need not take a whole number of bits. The reader is in one of a number of
states; each state stands for a symbol, and a few bits lead from it to the next state. A symbol has
as many states as its share says, so frequent symbols take few bits. The number of states is a power
of two.
-/

namespace Retrofit.Compression

/-- A state: its symbol, how many bits lead on from it, and the state to which zeros lead. -/
structure CodeState where
  symbol : Nat
  width : Nat
  base : Nat

/-- A state code. The number of states has as many bits as `accuracy` says. -/
structure StateCode where
  accuracy : Nat
  states : Array CodeState

namespace StateCode

/-! ### Shares -/

/-- The number of zeros behind a share of zero: threes go on, and all digits add up. -/
def zeros? : Nat → Bits → Option (Nat × Bits)
  | 0, _ => none
  | fuel + 1, b => do
    let (n, b) ← b.number? 2
    if n < 3 then return (n, b)
    else
      let (more, b) ← zeros? fuel b
      return (n + more, b)

/-- A number up to `most`. The small ones take one bit less if that leaves no doubt. -/
def upTo? (most : Nat) (b : Bits) : Option (Nat × Bits) := do
  let width := most.log2
  let short := 2 * (1 <<< width) - 1 - most
  let (low, b) ← b.number? width
  if low < short then return (low, b)
  else
    let (bit, b) ← b.next?
    let n := low + (bit <<< width)
    return (if n < 1 <<< width then n else n - short, b)

/-- The shares of at most `symbols` symbols, onto those read before, the last one first. A share of
less than one is written as -1. One more than what is left to share out is `left`. -/
def shares? (symbols : Nat) : Nat → Nat → List Int → Bits → Option (List Int × Bits)
  | 0, _, _, _ => none
  | fuel + 1, left, acc, b => do
    if symbols ≤ acc.length then none
    else
      let (n, b) ← upTo? left b
      let share : Int := n - 1
      let left := left - share.natAbs
      if left ≤ 1 then return ((share :: acc).reverse, b)
      else if share = 0 then
        let (n, b) ← zeros? b.count b
        shares? symbols fuel left (List.replicate n 0 ++ share :: acc) b
      else shares? symbols fuel left (share :: acc) b

/-! ### States -/

/-- The symbols of the states. The symbols with less than a whole share have one state each, from
the last state back; the others go round in steps through the states that are left. -/
def spread (accuracy : Nat) (shares : List Int) : Array Nat :=
  let size := 1 <<< accuracy
  let small := (shares.zipIdx.filter fun p => p.1 < 0).map Prod.snd
  let whole := shares.zipIdx.flatMap fun p => List.replicate p.1.toNat p.2
  let step := size / 2 + size / 8 + 3
  let places := ((List.range size).map fun n => n * step % size).filter (· < size - small.length)
  let table := (places.zip whole).foldl (fun (table : Array Nat) p => table.setIfInBounds p.1 p.2)
    (Array.replicate (size - small.length) 0)
  table ++ small.reverse.toArray

/-- The states whose symbols are given. The states of a symbol share out the states they lead to:
`seen` holds for each symbol its share and how many of its states came before. -/
def statesFrom (accuracy : Nat) : List Nat → Array Nat → Array CodeState → Array CodeState
  | [], _, states => states
  | symbol :: rest, seen, states =>
    let n := seen[symbol]?.getD 0
    let width := accuracy - n.log2
    statesFrom accuracy rest (seen.setIfInBounds symbol (n + 1))
      (states.push ⟨symbol, width, (n <<< width) - (1 <<< accuracy)⟩)

/-- The code in which the symbols have the given shares. -/
def ofShares (accuracy : Nat) (shares : List Int) : StateCode :=
  ⟨accuracy, statesFrom accuracy (spread accuracy shares).toList
    (shares.map Int.natAbs).toArray #[]⟩

/-- The code that has one symbol only. -/
def single (symbol : Nat) : StateCode := ⟨0, #[⟨symbol, 0, 0⟩]⟩

/-- Read the description of a code with at most `symbols` symbols, up to the next whole byte. -/
def read? (symbols most : Nat) (b : Bits) : Option (StateCode × Bits) := do
  let (n, b) ← b.number? 4
  let accuracy := n + 5
  if most < accuracy then none
  else
    let (shares, b) ← shares? symbols (symbols + 1) ((1 <<< accuracy) + 1) [] b
    return (ofShares accuracy shares, b.align)

/-! ### Reading -/

/-- The state to begin with. -/
def start? (c : StateCode) (b : BackwardBits) : Option (CodeState × BackwardBits) := do
  let (n, b) ← b.number? c.accuracy
  let state ← c.states[n]?
  return (state, b)

/-- The state that follows. -/
def next? (c : StateCode) (s : CodeState) (b : BackwardBits) :
    Option (CodeState × BackwardBits) := do
  let (n, b) ← b.number? s.width
  let state ← c.states[s.base + n]?
  return (state, b)

end StateCode

end Retrofit.Compression
