/-!
# Fast digests

A digest of 64 bits for speed, not for security: four lanes take in 32 bytes at a time, and what is
left is mixed in by steps of eight, four and one byte.
-/

namespace Retrofit.Checksum.XxHash

def prime1 : UInt64 := 11400714785074694791

def prime2 : UInt64 := 14029467366897019727

def prime3 : UInt64 := 1609587929392839161

def prime4 : UInt64 := 9650029242287828579

def prime5 : UInt64 := 2870177450012600261

def rotate (x n : UInt64) : UInt64 := (x <<< n) ||| (x >>> (64 - n))

/-- A number of the bytes, the lowest one first. -/
def lowFirst (bytes : List UInt8) : UInt64 := bytes.foldr (fun b n => b.toUInt64 + (n <<< 8)) 0

/-- One lane takes in a number. -/
def round (lane x : UInt64) : UInt64 := rotate (lane + x * prime2) 31 * prime1

/-- The four lanes. -/
structure Lanes where
  a : UInt64
  b : UInt64
  c : UInt64
  d : UInt64

namespace Lanes

def start : Lanes := ⟨prime1 + prime2, prime2, 0, 0 - prime1⟩

/-- The lanes take in 32 bytes. -/
def absorb (l : Lanes) (bytes : List UInt8) : Lanes :=
  ⟨round l.a (lowFirst (bytes.take 8)), round l.b (lowFirst ((bytes.drop 8).take 8)),
    round l.c (lowFirst ((bytes.drop 16).take 8)), round l.d (lowFirst ((bytes.drop 24).take 8))⟩

/-- The lanes take in `n` times 32 bytes. -/
def absorbAll : Nat → List UInt8 → Lanes → Lanes
  | 0, _, l => l
  | n + 1, bytes, l => absorbAll n (bytes.drop 32) (l.absorb bytes)

def merge (h lane : UInt64) : UInt64 := (h ^^^ round 0 lane) * prime1 + prime4

/-- The four lanes as one number. -/
def total (l : Lanes) : UInt64 :=
  let h := rotate l.a 1 + rotate l.b 7 + rotate l.c 12 + rotate l.d 18
  merge (merge (merge (merge h l.a) l.b) l.c) l.d

end Lanes

/-- Mix in `n` times eight bytes. -/
def eights : Nat → List UInt8 → UInt64 → UInt64
  | 0, _, h => h
  | n + 1, bytes, h =>
    eights n (bytes.drop 8)
      (rotate (h ^^^ round 0 (lowFirst (bytes.take 8))) 27 * prime1 + prime4)

/-- Mix in four bytes, if there are as many. -/
def four (bytes : List UInt8) (h : UInt64) : UInt64 :=
  if 4 ≤ bytes.length then
    rotate (h ^^^ (lowFirst (bytes.take 4) * prime1)) 23 * prime2 + prime3
  else h

/-- Mix in one byte. -/
def one (h : UInt64) (b : UInt8) : UInt64 := rotate (h ^^^ (b.toUInt64 * prime5)) 11 * prime1

/-- Spread every bit over the whole number. -/
def finish (h : UInt64) : UInt64 :=
  let h := (h ^^^ (h >>> 33)) * prime2
  let h := (h ^^^ (h >>> 29)) * prime3
  h ^^^ (h >>> 32)

/-- The digest of the bytes. -/
def digest (bytes : List UInt8) : UInt64 :=
  let size := bytes.length
  let start := if 32 ≤ size then (Lanes.absorbAll (size / 32) bytes .start).total else prime5
  let rest := bytes.drop (size / 32 * 32)
  let h := eights (rest.length / 8) rest (start + UInt64.ofNat size)
  let tail := rest.drop (rest.length / 8 * 8)
  finish ((tail.drop (tail.length / 4 * 4)).foldl one (four tail h))

end Retrofit.Checksum.XxHash
