/-!
# Digests of 256 bits

The secure hash of 256 bits: the content is padded to blocks of 64 bytes, and each block is mixed
into eight words over 64 rounds.
-/

namespace Retrofit.Checksum.Sha256

/-- The words that the rounds add: fractions of the cube roots of the first 64 primes. -/
def roundWords : Array UInt32 := #[
  0x428a2f98, 0x71374491, 0xb5c0fbcf, 0xe9b5dba5, 0x3956c25b, 0x59f111f1, 0x923f82a4, 0xab1c5ed5,
  0xd807aa98, 0x12835b01, 0x243185be, 0x550c7dc3, 0x72be5d74, 0x80deb1fe, 0x9bdc06a7, 0xc19bf174,
  0xe49b69c1, 0xefbe4786, 0x0fc19dc6, 0x240ca1cc, 0x2de92c6f, 0x4a7484aa, 0x5cb0a9dc, 0x76f988da,
  0x983e5152, 0xa831c66d, 0xb00327c8, 0xbf597fc7, 0xc6e00bf3, 0xd5a79147, 0x06ca6351, 0x14292967,
  0x27b70a85, 0x2e1b2138, 0x4d2c6dfc, 0x53380d13, 0x650a7354, 0x766a0abb, 0x81c2c92e, 0x92722c85,
  0xa2bfe8a1, 0xa81a664b, 0xc24b8b70, 0xc76c51a3, 0xd192e819, 0xd6990624, 0xf40e3585, 0x106aa070,
  0x19a4c116, 0x1e376c08, 0x2748774c, 0x34b0bcb5, 0x391c0cb3, 0x4ed8aa4a, 0x5b9cca4f, 0x682e6ff3,
  0x748f82ee, 0x78a5636f, 0x84c87814, 0x8cc70208, 0x90befffa, 0xa4506ceb, 0xbef9a3f7, 0xc67178f2]

/-- The words at the start: fractions of the square roots of the first eight primes. -/
def start : Array UInt32 := #[
  0x6a09e667, 0xbb67ae85, 0x3c6ef372, 0xa54ff53a, 0x510e527f, 0x9b05688c, 0x1f83d9ab, 0x5be0cd19]

def rotate (x n : UInt32) : UInt32 := (x >>> n) ||| (x <<< (32 - n))

/-- A word of an array. -/
def word (ws : Array UInt32) (i : Nat) : UInt32 := ws[i]?.getD 0

/-- A number of `width` bytes, the highest one first. -/
def highFirst : Nat → Nat → List UInt8
  | 0, _ => []
  | width + 1, n => UInt8.ofNat (n >>> (8 * width)) :: highFirst width n

/-- The content with a one bit, zeros and the number of its bits behind it. -/
def padded (bytes : List UInt8) : List UInt8 :=
  bytes ++ 0x80 :: (List.replicate ((119 - bytes.length % 64) % 64) 0 ++
    highFirst 8 (8 * bytes.length))

/-- The bytes as words, the highest byte first. -/
def words : List UInt8 → List UInt32
  | a :: b :: c :: d :: rest =>
    ((a.toUInt32 <<< 24) ||| (b.toUInt32 <<< 16) ||| (c.toUInt32 <<< 8) ||| d.toUInt32) ::
      words rest
  | _ => []

/-- The words that a block gives to the rounds. -/
def schedule (block : Array UInt32) : Array UInt32 :=
  (List.range 48).foldl (fun ws i =>
    let a := word ws (i + 1)
    let b := word ws (i + 14)
    let low := rotate a 7 ^^^ rotate a 18 ^^^ (a >>> 3)
    let high := rotate b 17 ^^^ rotate b 19 ^^^ (b >>> 10)
    ws.push (word ws i + low + word ws (i + 9) + high)) block

/-- One round on the eight words. -/
def round (s : Array UInt32) (added : UInt32) : Array UInt32 :=
  let a := word s 0
  let e := word s 4
  let high := rotate e 6 ^^^ rotate e 11 ^^^ rotate e 25
  let choice := (e &&& word s 5) ^^^ ((e ^^^ 0xffffffff) &&& word s 6)
  let first := word s 7 + high + choice + added
  let low := rotate a 2 ^^^ rotate a 13 ^^^ rotate a 22
  let majority := (a &&& word s 1) ^^^ (a &&& word s 2) ^^^ (word s 1 &&& word s 2)
  #[first + low + majority, a, word s 1, word s 2, word s 3 + first, e, word s 5, word s 6]

/-- Mix one block into the eight words. -/
def mix (s block : Array UInt32) : Array UInt32 :=
  let ws := schedule block
  let mixed := (List.range 64).foldl (fun s i => round s (word roundWords i + word ws i)) s
  s.zipWith (· + ·) mixed

/-- Mix `n` blocks, one after the other. -/
def mixAll : Nat → List UInt8 → Array UInt32 → Array UInt32
  | 0, _, s => s
  | n + 1, bytes, s => mixAll n (bytes.drop 64) (mix s (words (bytes.take 64)).toArray)

/-- The 32 bytes of the digest. -/
def digest (bytes : List UInt8) : List UInt8 :=
  let bytes := padded bytes
  (mixAll (bytes.length / 64) bytes start).toList.flatMap fun w => highFirst 4 w.toNat

end Retrofit.Checksum.Sha256
