import Retrofit.Instruction

/-!
# Relocation

A displacement says how far a branch target lies from the branch. When a branch moves, and the code
around it too, its displacements are computed anew from the places that the targets moved to.
-/

namespace Retrofit

/-- Why a branch could not be moved. -/
inductive RelocationError where
  /-- Nothing that starts at the old target is left. -/
  | unmappedTarget (target : Int)
  /-- The new displacement does not fit the operand. -/
  | overflow (displacement : Int)
  deriving DecidableEq, Repr

namespace Instruction

/-- The displacements of an instruction in the order default, then table entries. -/
def displacements : Instruction → List Int
  | jump _ displacement => [displacement.toInt]
  | longJump _ displacement => [displacement.toInt]
  | tableswitch default _ _ entries => default.toInt :: entries.map Int32.toInt
  | lookupswitch default _ cases => default.toInt :: cases.map fun c => c.2.toInt
  | _ => []

/-- The absolute targets of an instruction at `address`, in the order of its displacements. -/
def targets (address : Nat) (i : Instruction) : List Int :=
  i.displacements.map fun d => address + d

/-- Where the target at the given distance from `old` lies relative to `new`, targets having moved
as `map` says. A target is an unsigned 32-bit offset. -/
def retarget (map : Nat → Option Nat) (old new : Nat) (displacement : Int) :
    Except RelocationError Int :=
  let target : Int := old + displacement
  let moved := if 0 ≤ target ∧ target < 4294967296 then map target.toNat else none
  match moved with
  | some t => .ok (t - new)
  | none => .error (.unmappedTarget target)

/-- A displacement as a 16-bit operand. -/
def narrow (displacement : Int) : Except RelocationError Int16 :=
  if -32768 ≤ displacement ∧ displacement < 32768 then .ok (Int16.ofInt displacement)
  else .error (.overflow displacement)

/-- A displacement as a 32-bit operand. -/
def wide (displacement : Int) : Except RelocationError Int32 :=
  if -2147483648 ≤ displacement ∧ displacement < 2147483648 then .ok (Int32.ofInt displacement)
  else .error (.overflow displacement)

/-- The instruction moved from `old` to `new`, its targets having moved as `map` says. The first
operand that cannot be moved decides the error. -/
def relocate (map : Nat → Option Nat) (old new : Nat) :
    Instruction → Except RelocationError Instruction
  | jump op displacement => do
    let d ← retarget map old new displacement.toInt
    return jump op (← narrow d)
  | longJump op displacement => do
    let d ← retarget map old new displacement.toInt
    return longJump op (← wide d)
  | tableswitch default low high entries => do
    let default ← moved default
    return tableswitch default low high (← entries.mapM moved)
  | lookupswitch default stated cases => do
    let default ← moved default
    return lookupswitch default stated (← cases.mapM fun c => do return (c.1, ← moved c.2))
  | i => .ok i
where
  moved (d : Int32) : Except RelocationError Int32 := do
    wide (← retarget map old new d.toInt)

end Instruction

end Retrofit
