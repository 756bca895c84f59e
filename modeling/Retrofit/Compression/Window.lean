/-!
# Windows

What has been unpacked is also what later parts refer back to.
-/

namespace Retrofit.Compression.Window

/-- Repeat `n` bytes from `distance` back, one at a time. What lies in front of the start counts as
zero. -/
def copyBack (distance : Nat) : Nat → Array UInt8 → Array UInt8
  | 0, out => out
  | n + 1, out =>
    let byte := if distance ≤ out.size then out[out.size - distance]?.getD 0 else 0
    copyBack distance n (out.push byte)

/-- The window with `n` times the same byte behind it. -/
def pushAll (byte : UInt8) : Nat → Array UInt8 → Array UInt8
  | 0, out => out
  | n + 1, out => pushAll byte n (out.push byte)

end Retrofit.Compression.Window
