import Retrofit.Instruction

/-!
# Code arrays

A code array is a sequence of instructions laid out back to back from address 0. Decoding gives
every instruction with its address; encoding lays instructions out again. As a 32-bit word an address is
what is left of the position of its instruction modulo 2^32. Elsewhere addresses are natural numbers. The
code in a class file has less than 2^32 bytes, so there both are the same.

Instructions that are laid out need not come from a class file. Their lengths are added up exactly here.
Where the sum is 2^32 or more, a sum of 32-bit words overflows, and checked arithmetic stops there
without a result. Below that the two agree, and no code may have more than 65535 bytes anyway.
-/

namespace Retrofit.Code

/-- The address of every instruction when they are laid out back to back from 0, and after them
the length of the whole. -/
def addresses (is : List Instruction) : List Nat := is.scanl (fun a i => a + i.size a) 0

/-- The length of the laid-out instructions. -/
def length (is : List Instruction) : Nat := is.foldl (fun a i => a + i.size a) 0

/-- The bytes of instructions laid out back to back from address 0. -/
def encode (is : List Instruction) : List UInt8 :=
  (is.zip (addresses is)).flatMap fun (i, a) => i.bytes a

/-- Read instructions up to the end of the data, onto those read before, the last one first. -/
def decodeOnto (acc : List (Nat × Instruction)) (s : Input) :
    Except ReadError (List (Nat × Instruction)) :=
  if s.rest.isEmpty then .ok acc.reverse
  else
    match _h : Instruction.read s.offset s with
    | .error _ => .error (.badInstruction s.offset)
    | .ok (i, s') => decodeOnto ((s.offset, i) :: acc) s'
  termination_by s.rest.length
  decreasing_by exact Instruction.read_consumes _h

/-- The instructions of a code array, each with its address. -/
def decode (bytes : List UInt8) : Except ReadError (List (Nat × Instruction)) :=
  decodeOnto [] ⟨0, bytes⟩

/-- The same with addresses that are 32-bit words. -/
def decodeWordsOnto (acc : List (UInt32 × Instruction)) (s : Input) :
    Except ReadError (List (UInt32 × Instruction)) :=
  if s.rest.isEmpty then .ok acc.reverse
  else
    match _h : Instruction.read (UInt32.ofNat s.offset).toNat s with
    | .error _ => .error (.badInstruction s.offset)
    | .ok (i, s') => decodeWordsOnto ((UInt32.ofNat s.offset, i) :: acc) s'
  termination_by s.rest.length
  decreasing_by exact Instruction.read_consumes _h

/-- The instructions of a code array, each with its address as a word. -/
def decodeWords (bytes : List UInt8) : Except ReadError (List (UInt32 × Instruction)) :=
  decodeWordsOnto [] ⟨0, bytes⟩

end Retrofit.Code
