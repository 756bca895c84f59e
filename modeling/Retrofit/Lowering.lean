import Retrofit.Instruction.Short
import Retrofit.Pool
import Retrofit.Recipe

/-!
# Lowering

The steps of a replacement become instructions, one for each step. What an instruction names is
entered into the constant pool, and stays there even if a later step cannot be lowered. Argument `n`
lives in the local slot `n - 1` places above the first one that the method leaves free.
-/

namespace Retrofit

/-- Why a replacement cannot be lowered. -/
inductive LoweringError where
  | poolFull
  /-- The slot for the argument lies beyond the last local slot there can be. -/
  | slotOutOfRange (argument : UInt16)
  | badDescriptor (descriptor : String)
  deriving DecidableEq, Repr

namespace LoweringError

/-- The wording of a lowering failure. -/
def message : LoweringError → String
  | poolFull => "constant pool is full"
  | slotOutOfRange argument => s!"argument slot {argument} is beyond the local variable limit"
  | badDescriptor descriptor => s!"bad descriptor {descriptor}"

end LoweringError

/-- The local slot of an argument, the first free one being `scratch`. -/
def argumentSlot (scratch argument : UInt16) : Except LoweringError UInt16 :=
  let slot := scratch.toNat + (argument.toNat - 1)
  if slot ≤ 65535 then .ok (UInt16.ofNat slot) else .error (.slotOutOfRange argument)

namespace Callee

/-- The call of a method that the pool names at `index`. A call through an interface also states how
many slots its receiver and arguments take. -/
def call (c : Callee) (index : UInt16) : Except LoweringError Instruction :=
  match c.kind with
  | .static => .ok (.invokestatic index)
  | .virtual => .ok (.invokevirtual index)
  | .special => .ok (.invokespecial index)
  | .interface =>
    match MethodType.parse? c.descriptor with
    | none => .error (.badDescriptor c.descriptor)
    | some t => .ok (.invokeinterface index (UInt8.ofNat (1 + t.paramSlots)) 0)

/-- Enter the method into the pool and call it. -/
def lower (c : Callee) (pool : Pool) : Pool × Except LoweringError Instruction :=
  let (pool, index) := pool.internMethod c.owner c.name c.descriptor (c.kind == .interface)
  (pool, c.call index)

end Callee

namespace Step

/-- The instruction for one step. -/
def lower (scratch : UInt16) (pool : Pool) : Step → Pool × Except LoweringError Instruction
  | new type =>
    let (pool, index) := pool.internClass type
    (pool, .ok (.new index))
  | dup => (pool, .ok .dup)
  | pop => (pool, .ok .pop)
  | push value => (pool, .ok (.pushInt value))
  | invoke callee => callee.lower pool
  | store argument => (pool, .astore <$> argumentSlot scratch argument)
  | load argument => (pool, .aload <$> argumentSlot scratch argument)

/-- Lower steps in order, onto the instructions made before, the last one first. -/
def lowerOnto (scratch : UInt16) : Pool → List Instruction → List Step →
    Pool × Except LoweringError (List Instruction)
  | pool, acc, [] => (pool, .ok acc.reverse)
  | pool, acc, s :: ss =>
    match s.lower scratch pool with
    | (pool, .ok i) => lowerOnto scratch pool (i :: acc) ss
    | (pool, .error e) => (pool, .error e)

end Step

/-- The pool entries that one replacement may ask for. -/
def Replacement.poolDemand : Nat := 32

/-- The instructions of a replacement, and the pool they refer to. -/
def Replacement.lower (r : Replacement) (pool : Pool) (scratch : UInt16) :
    Pool × Except LoweringError (List Instruction) :=
  if pool.headroom < poolDemand then (pool, .error .poolFull)
  else Step.lowerOnto scratch pool [] r.steps

end Retrofit
