/-!
# Opcodes

An opcode is one byte. Most instructions belong to a family in which every member has the same
operands; an `Opcode f` is a byte together with the fact that it belongs to the family `f`.
-/

namespace Retrofit

/-- What follows the opcode of an instruction, for opcodes that share their shape with others. -/
inductive Family where
  /-- Nothing follows. -/
  | plain
  /-- One unsigned byte: a short pool index or a primitive array type. -/
  | small
  /-- The number of a local variable slot. -/
  | slot
  /-- A 16-bit pool index that is not a call. -/
  | pooled
  /-- A 16-bit displacement. -/
  | jump
  /-- A 32-bit displacement. -/
  | longJump
  deriving DecidableEq, Repr

namespace Opcode

/-- The family of an opcode; `none` for opcodes with operands of their own and for unknown ones. -/
def family? (b : UInt8) : Option Family :=
  if b ≤ 0x0f then some .plain
  else if b ≤ 0x11 then none
  else if b = 0x12 then some .small
  else if b ≤ 0x14 then some .pooled
  else if b ≤ 0x19 then some .slot
  else if b ≤ 0x35 then some .plain
  else if b ≤ 0x3a then some .slot
  else if b ≤ 0x83 then some .plain
  else if b = 0x84 then none
  else if b ≤ 0x98 then some .plain
  else if b ≤ 0xa8 then some .jump
  else if b = 0xa9 then some .slot
  else if b ≤ 0xab then none
  else if b ≤ 0xb1 then some .plain
  else if b ≤ 0xb5 then some .pooled
  else if b ≤ 0xba then none
  else if b = 0xbb then some .pooled
  else if b = 0xbc then some .small
  else if b = 0xbd then some .pooled
  else if b ≤ 0xbf then some .plain
  else if b ≤ 0xc1 then some .pooled
  else if b ≤ 0xc3 then some .plain
  else if b ≤ 0xc5 then none
  else if b ≤ 0xc7 then some .jump
  else if b ≤ 0xc9 then some .longJump
  else none

/-- The names of the opcodes, in order. -/
def mnemonics : Array String := #[
  "Nop", "Aconstnull", "Iconstm1", "Iconst0", "Iconst1", "Iconst2", "Iconst3", "Iconst4",
  "Iconst5", "Lconst0", "Lconst1", "Fconst0", "Fconst1", "Fconst2", "Dconst0", "Dconst1",
  "Bipush", "Sipush", "Ldc", "LdcW", "Ldc2W", "Iload", "Lload", "Fload",
  "Dload", "Aload", "Iload0", "Iload1", "Iload2", "Iload3", "Lload0", "Lload1",
  "Lload2", "Lload3", "Fload0", "Fload1", "Fload2", "Fload3", "Dload0", "Dload1",
  "Dload2", "Dload3", "Aload0", "Aload1", "Aload2", "Aload3", "Iaload", "Laload",
  "Faload", "Daload", "Aaload", "Baload", "Caload", "Saload", "Istore", "Lstore",
  "Fstore", "Dstore", "Astore", "Istore0", "Istore1", "Istore2", "Istore3", "Lstore0",
  "Lstore1", "Lstore2", "Lstore3", "Fstore0", "Fstore1", "Fstore2", "Fstore3", "Dstore0",
  "Dstore1", "Dstore2", "Dstore3", "Astore0", "Astore1", "Astore2", "Astore3", "Iastore",
  "Lastore", "Fastore", "Dastore", "Aastore", "Bastore", "Castore", "Sastore", "Pop",
  "Pop2", "Dup", "Dupx1", "Dupx2", "Dup2", "Dup2x1", "Dup2x2", "Swap",
  "Iadd", "Ladd", "Fadd", "Dadd", "Isub", "Lsub", "Fsub", "Dsub",
  "Imul", "Lmul", "Fmul", "Dmul", "Idiv", "Ldiv", "Fdiv", "Ddiv",
  "Irem", "Lrem", "Frem", "Drem", "Ineg", "Lneg", "Fneg", "Dneg",
  "Ishl", "Lshl", "Ishr", "Lshr", "Iushr", "Lushr", "Iand", "Land",
  "Ior", "Lor", "Ixor", "Lxor", "Iinc", "I2l", "I2f", "I2d",
  "L2i", "L2f", "L2d", "F2i", "F2l", "F2d", "D2i", "D2l",
  "D2f", "I2b", "I2c", "I2s", "Lcmp", "Fcmpl", "Fcmpg", "Dcmpl",
  "Dcmpg", "Ifeq", "Ifne", "Iflt", "Ifge", "Ifgt", "Ifle", "IfIcmpeq",
  "IfIcmpne", "IfIcmplt", "IfIcmpge", "IfIcmpgt", "IfIcmple", "IfAcmpeq", "IfAcmpne", "Goto",
  "Jsr", "Ret", "Tableswitch", "Lookupswitch", "Ireturn", "Lreturn", "Freturn", "Dreturn",
  "Areturn", "Return", "Getstatic", "Putstatic", "Getfield", "Putfield", "Invokevirtual",
  "Invokespecial", "Invokestatic", "Invokeinterface", "Invokedynamic", "New", "Newarray",
  "Anewarray", "Arraylength", "Athrow", "Checkcast", "Instanceof", "Monitorenter",
  "Monitorexit", "Wide", "Multianewarray", "Ifnull", "Ifnonnull", "GotoW", "JsrW"]

/-- The name of an opcode; unknown opcodes have none. -/
def mnemonic (b : UInt8) : String := mnemonics.getD b.toNat ""

end Opcode

/-- An opcode of the family `f`. -/
structure Opcode (f : Family) where
  byte : UInt8
  family_eq : Opcode.family? byte = some f
  deriving DecidableEq

end Retrofit
