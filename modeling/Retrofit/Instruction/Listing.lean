import Retrofit.Instruction

/-!
# Listings

The text of an instruction: its name, and its operands in round brackets, or in braces with their
names where there are several.
-/

namespace Retrofit.Instruction

/-- Items in square brackets, separated by commas. -/
def bracketed (items : List String) : String := "[" ++ ", ".intercalate items ++ "]"

/-- Named operands in braces. -/
def braced (fields : List (String × String)) : String :=
  "\x7b " ++ ", ".intercalate (fields.map fun f => f.1 ++ ": " ++ f.2) ++ " \x7d"

/-- The text of an instruction. -/
def listing : Instruction → String
  | plain op => Opcode.mnemonic op.byte
  | bipush value => s!"Bipush({value})"
  | sipush value => s!"Sipush({value})"
  | small op operand => s!"{Opcode.mnemonic op.byte}({operand})"
  | pooled op index => s!"{Opcode.mnemonic op.byte}({index})"
  | slot op index => s!"{Opcode.mnemonic op.byte}({index})"
  | wideSlot op index => s!"Wide({Opcode.mnemonic op.byte}({index}))"
  | iinc index amount => increment (toString index) (toString amount)
  | wideIinc index amount => s!"Wide({increment (toString index) (toString amount)})"
  | jump op displacement => s!"{Opcode.mnemonic op.byte}({displacement})"
  | longJump op displacement => s!"{Opcode.mnemonic op.byte}({displacement})"
  | tableswitch default low high entries =>
    "Tableswitch " ++ braced [("default", toString default), ("low", toString low),
      ("high", toString high), ("offsets", bracketed (entries.map toString))]
  | lookupswitch default stated cases =>
    "Lookupswitch " ++ braced [("default", toString default), ("npairs", toString stated),
      ("pairs", bracketed (cases.map fun c => s!"({c.1}, {c.2})"))]
  | invokevirtual index => s!"Invokevirtual({index})"
  | invokespecial index => s!"Invokespecial({index})"
  | invokestatic index => s!"Invokestatic({index})"
  | invokeinterface index count filler =>
    "Invokeinterface " ++ braced [("index", toString index), ("count", toString count),
      ("filler", toString filler)]
  | invokedynamic index filler =>
    "Invokedynamic " ++ braced [("index", toString index), ("filler", toString filler)]
  | multianewarray index dimensions =>
    "Multianewarray " ++ braced [("index", toString index), ("dimensions", toString dimensions)]
where
  increment (index amount : String) : String :=
    "Iinc " ++ braced [("index", index), ("value", amount)]

end Retrofit.Instruction
