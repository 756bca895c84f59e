import Retrofit.ClassName

/-!
# Descriptors

A descriptor is the text of a field type or of a method type. Reading a field type takes it off the
front of the text; a method type has to be the whole of it.
-/

namespace Retrofit

/-- The type of a field, parameter or result. -/
inductive FieldType where
  | int | long | float | double | byte | char | short | boolean | void
  /-- A class or interface, by internal name. -/
  | reference (name : String)
  | array (element : FieldType)
  deriving DecidableEq, Repr

namespace FieldType

/-- Operand stack slots taken by a value of this type. -/
def slotSize : FieldType → Nat
  | void => 0
  | long | double => 2
  | _ => 1

/-- Whether values of this type are references. -/
def isReference : FieldType → Bool
  | reference _ | array _ => true
  | _ => false

/-- Whether the type is an array of plain objects, what a variable-arity parameter erases to. -/
def isObjectArray : FieldType → Bool
  | array (reference name) => name == "java/lang/Object"
  | _ => false

/-- The type as it is written in source text. -/
def sourceName : FieldType → String
  | int => "int"
  | long => "long"
  | float => "float"
  | double => "double"
  | byte => "byte"
  | char => "char"
  | short => "short"
  | boolean => "boolean"
  | void => "void"
  | reference name => ClassName.dotted name
  | array element => element.sourceName ++ "[]"

/-- How many characters the descriptor of a type has. -/
def width : FieldType → Nat
  | reference name => name.length + 2
  | array element => element.width + 1
  | _ => 1

theorem width_pos (t : FieldType) : 0 < t.width := by
  cases t <;> simp [width]

/-- Read a type off the front of a text. A class name runs to the next semicolon. -/
def parse? : List Char → Option (FieldType × List Char)
  | 'B' :: cs => some (byte, cs)
  | 'C' :: cs => some (char, cs)
  | 'D' :: cs => some (double, cs)
  | 'F' :: cs => some (float, cs)
  | 'I' :: cs => some (int, cs)
  | 'J' :: cs => some (long, cs)
  | 'S' :: cs => some (short, cs)
  | 'Z' :: cs => some (boolean, cs)
  | 'V' :: cs => some (void, cs)
  | 'L' :: cs =>
    match cs.dropWhile (· ≠ ';') with
    | _ :: rest => some (reference (String.ofList (cs.takeWhile (· ≠ ';'))), rest)
    | [] => none
  | '[' :: cs => (parse? cs).map fun (t, rest) => (array t, rest)
  | _ => none

/-- How many bytes of UTF-8 the characters take. -/
def utf8Width (cs : List Char) : Nat := cs.foldl (fun n c => n + c.utf8Size) 0

/-- The text after its first `n` bytes of UTF-8; `none` past the end and inside a character. -/
def dropBytes? : Nat → List Char → Option (List Char)
  | 0, cs => some cs
  | _ + 1, [] => none
  | n + 1, c :: cs => if c.utf8Size ≤ n + 1 then dropBytes? (n + 1 - c.utf8Size) cs else none

/-- The type that starts at a byte position of a text, and the position after it. -/
def parseAt? (text : String) (position : Nat) : Option (FieldType × Nat) := do
  let cs ← dropBytes? position text.toList
  let (t, rest) ← parse? cs
  return (t, text.utf8ByteSize - utf8Width rest)

end FieldType

/-- The type of a method. -/
structure MethodType where
  params : List FieldType
  returns : FieldType
  deriving DecidableEq, Repr

namespace MethodType

/-- Operand stack slots taken by the parameters. -/
def paramSlots (t : MethodType) : Nat := t.params.foldr (fun p n => p.slotSize + n) 0

/-- Read types off the front of `cs` until they cover its first `before` characters. -/
def paramsFrom? : Nat → List Char → Option (List FieldType)
  | 0, _ => some []
  | before + 1, cs =>
    match FieldType.parse? cs with
    | none => none
    | some (t, rest) => (paramsFrom? (before + 1 - t.width) rest).map (t :: ·)
  termination_by before => before
  decreasing_by
    have := t.width_pos
    omega

/-- Read a method type. The parameters cover the text up to the first closing bracket, and the
result is read from behind that bracket to the end. -/
def parse? (text : String) : Option MethodType :=
  match text.toList with
  | '(' :: cs =>
    match cs.dropWhile (· ≠ ')') with
    | [] => none
    | _ :: result => do
      let params ← paramsFrom? (cs.takeWhile (· ≠ ')')).length cs
      match FieldType.parse? result with
      | some (returns, []) => return ⟨params, returns⟩
      | _ => none
  | _ => none

end MethodType

end Retrofit
