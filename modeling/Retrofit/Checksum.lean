/-!
# Checksums

Cyclic redundancy checks: the remainder of the content modulo a polynomial over the bits. The bits
of a byte are taken from its low end or from its high end.
-/

namespace Retrofit.Checksum

/-! ### Degree 32, low bits first -/

/-- One step of the division: a bit leaves at the low end. -/
def step32 (c : UInt32) : UInt32 :=
  if c &&& 1 = 1 then (c >>> 1) ^^^ 0xedb88320 else c >>> 1

/-- The eight steps for one byte. -/
def byte32 (c : UInt32) (b : UInt8) : UInt32 :=
  (List.range 8).foldl (fun c _ => step32 c) (c ^^^ b.toUInt32)

def crc32 (bytes : List UInt8) : UInt32 := bytes.foldl byte32 0xffffffff ^^^ 0xffffffff

/-! ### Degree 32, high bits first -/

/-- One step of the division: a bit leaves at the high end. -/
def highStep32 (c : UInt32) : UInt32 :=
  if c &&& 0x80000000 ≠ 0 then (c <<< 1) ^^^ 0x04c11db7 else c <<< 1

def highByte32 (c : UInt32) (b : UInt8) : UInt32 :=
  (List.range 8).foldl (fun c _ => highStep32 c) (c ^^^ (b.toUInt32 <<< 24))

def highCrc32 (bytes : List UInt8) : UInt32 := bytes.foldl highByte32 0xffffffff ^^^ 0xffffffff

/-! ### Degree 64, low bits first -/

def step64 (c : UInt64) : UInt64 :=
  if c &&& 1 = 1 then (c >>> 1) ^^^ 0xc96c5795d7870f42 else c >>> 1

def byte64 (c : UInt64) (b : UInt8) : UInt64 :=
  (List.range 8).foldl (fun c _ => step64 c) (c ^^^ b.toUInt64)

def crc64 (bytes : List UInt8) : UInt64 :=
  bytes.foldl byte64 0xffffffffffffffff ^^^ 0xffffffffffffffff

end Retrofit.Checksum
