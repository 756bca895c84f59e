import Retrofit.CallSite
import Retrofit.Instruction.Short
import Retrofit.Proofs.Pool.Members

/-!
# What instructions use

How an instruction moves the operand stack, and which local slots it touches. What a call takes and
leaves follows from the descriptor that the pool has for it.
-/

namespace Retrofit

namespace Instruction

/-- How many slots a call of the given kind takes off the operand stack, its receiver included, and
puts back on it. -/
def callEffect? (p : Pool) (kind : CallKind) (index : UInt16) : Option (Nat × Nat) := do
  let m ← p.member? index
  let t ← MethodType.parse? m.descriptor
  return (t.paramSlots + (if kind = .static then 0 else 1), t.returns.slotSize)

/-- How many slots an instruction takes off the operand stack and puts back on it. Small constants,
accesses to local references, `pop`, `dup`, `new` and calls are covered. -/
def stackEffect? (p : Pool) : Instruction → Option (Nat × Nat)
  | plain op =>
    if 0x01 ≤ op.byte ∧ op.byte ≤ 0x08 then some (0, 1)
    else if 0x2a ≤ op.byte ∧ op.byte ≤ 0x2d then some (0, 1)
    else if 0x4b ≤ op.byte ∧ op.byte ≤ 0x4e then some (1, 0)
    else if op.byte = 0x57 then some (1, 0)
    else if op.byte = 0x59 then some (1, 2)
    else none
  | bipush _ | sipush _ => some (0, 1)
  | slot op _ | wideSlot op _ =>
    if op.byte = 0x19 then some (0, 1)
    else if op.byte = 0x3a then some (1, 0)
    else none
  | pooled op _ => if op.byte = 0xbb then some (0, 1) else none
  | i => i.call?.bind fun (kind, index) => callEffect? p kind index

/-- The slots of a local variable. Types come in the order int, long, float, double, reference, and
the second and fourth of them take two slots. -/
def variableSlots (type index : Nat) : List Nat :=
  if type = 1 ∨ type = 3 then [index, index + 1] else [index]

/-- The slots that a load, a store or a return from a subroutine touches, its slot given apart. -/
def accessSlots (op : UInt8) (index : Nat) : List Nat :=
  if op ≤ 0x19 then variableSlots (op.toNat - 0x15) index
  else if op ≤ 0x3a then variableSlots (op.toNat - 0x36) index
  else [index]

/-- The local slots that an instruction reads or writes. The short loads and stores come in groups of
four, one group for each type. -/
def localSlots : Instruction → List Nat
  | plain op =>
    if 0x1a ≤ op.byte ∧ op.byte ≤ 0x2d then
      variableSlots ((op.byte.toNat - 0x1a) / 4) ((op.byte.toNat - 0x1a) % 4)
    else if 0x3b ≤ op.byte ∧ op.byte ≤ 0x4e then
      variableSlots ((op.byte.toNat - 0x3b) / 4) ((op.byte.toNat - 0x3b) % 4)
    else []
  | slot op index => accessSlots op.byte index.toNat
  | wideSlot op index => accessSlots op.byte index.toNat
  | iinc index _ => [index.toNat]
  | wideIinc index _ => [index.toNat]
  | _ => []

variable {p : Pool}

theorem stackEffect?_aload (index : UInt16) : (aload index).stackEffect? p = some (0, 1) := by
  unfold aload
  split
  case h_5 => split <;> rfl
  all_goals rfl

theorem stackEffect?_astore (index : UInt16) : (astore index).stackEffect? p = some (1, 0) := by
  unfold astore
  split
  case h_5 => split <;> rfl
  all_goals rfl

theorem stackEffect?_pushInt (value : Int32) :
    (pushInt value).stackEffect? p = some (0, 1) := by
  unfold pushInt
  repeat' split
  all_goals rfl

/-- What the pool says about a call decides its effect. -/
theorem stackEffect?_of_call {i : Instruction} {kind : CallKind} {index : UInt16}
    (h : i.call? = some (kind, index)) : i.stackEffect? p = callEffect? p kind index := by
  unfold call? at h
  split at h <;> cases h <;> rfl

/-- A pool that grows goes on telling the effect of a call. -/
theorem stackEffect?_grow {P : Constant → Prop} {q : Pool} (hgrows : p.Grows P q) {i : Instruction}
    {e : Nat × Nat} (h : i.stackEffect? p = some e) : i.stackEffect? q = some e := by
  have hcall {kind : CallKind} {index : UInt16} (h : callEffect? p kind index = some e) :
      callEffect? q kind index = some e := by
    obtain ⟨m, hm, h⟩ := Option.bind_eq_some_iff.mp h
    rw [callEffect?, hgrows.member?_eq hm]
    exact h
  cases i
  case invokestatic | invokevirtual | invokespecial | invokeinterface => exact hcall h
  all_goals exact h

theorem localSlots_of_call {i : Instruction} {call : CallKind × UInt16} (h : i.call? = some call) :
    i.localSlots = [] := by
  unfold call? at h
  split at h <;> cases h <;> rfl

theorem toNat_toUInt8_of_lt {index : UInt16} (h : index < 256) :
    index.toUInt8.toNat = index.toNat := by
  rw [UInt16.toNat_toUInt8]
  exact Nat.mod_eq_of_lt h

theorem localSlots_aload (index : UInt16) : (aload index).localSlots = [index.toNat] := by
  unfold aload
  split
  case h_5 =>
    split
    · rename_i hlt
      exact congrArg (fun n => [n]) (toNat_toUInt8_of_lt hlt)
    · rfl
  all_goals rfl

theorem localSlots_astore (index : UInt16) : (astore index).localSlots = [index.toNat] := by
  unfold astore
  split
  case h_5 =>
    split
    · rename_i hlt
      exact congrArg (fun n => [n]) (toNat_toUInt8_of_lt hlt)
    · rfl
  all_goals rfl

theorem localSlots_pushInt (value : Int32) : (pushInt value).localSlots = [] := by
  unfold pushInt
  repeat' split
  all_goals rfl

end Instruction

/-- The depths of the operand stack before, between and after instructions that start at depth `d`;
`none` if one of them reaches below the stack or is not covered. -/
def Code.depths? (p : Pool) : List Instruction → Nat → Option (List Nat)
  | [], d => some [d]
  | i :: is, d => do
    let (pops, pushes) ← i.stackEffect? p
    if d < pops then none
    else
      let ds ← depths? p is (d - pops + pushes)
      return d :: ds

end Retrofit
