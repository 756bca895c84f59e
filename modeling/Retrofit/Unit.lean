import Retrofit.Body.Layout
import Retrofit.ClassFile

/-!
# Loaded classes

A class in memory: the decoded file, a decoded body for every method with code, and the bytes it was
loaded from. An untouched class is written out as exactly those bytes.
-/

namespace Retrofit

/-- Why the bytes of a class could not be decoded. -/
inductive Malformation where
  | unreadable (error : ReadError)
  | methodName
  | methodDescriptor
  /-- The code of the method with this name and descriptor. -/
  | code (name descriptor : String) (error : ReadError)
  | unnamed
  /-- An earlier attempt under the given name had failed already. -/
  | earlier (name : String) (reason : Malformation)
  deriving DecidableEq, Repr

namespace Malformation

/-- The wording of a decoding failure. -/
def message : Malformation → String
  | unreadable error => error.message
  | methodName => "method name is not a Utf8 constant"
  | methodDescriptor => "method descriptor is not a Utf8 constant"
  | code name descriptor error => s!"{name}{descriptor}: {error.message}"
  | unnamed => "this_class does not name a class"
  | earlier name reason => s!"malformed class {name}: {reason.message}"

end Malformation

/-- A method of a loaded class. -/
structure MethodUnit where
  name : String
  descriptor : String
  access : UInt16
  /-- The method's code, taken apart, and the position of its attribute. -/
  code : Option (Nat × Body)
  modified : Bool
  deriving DecidableEq

namespace MethodUnit

/-- The method's code, if it has any. -/
def body? (m : MethodUnit) : Option Body := m.code.map Prod.snd

/-- The method with another body, marked as modified. -/
def withBody (m : MethodUnit) (b : Body) : MethodUnit :=
  { m with code := m.code.map fun c => (c.1, b), modified := true }

/-- Take apart a method of a class file. -/
def decode (pool : Pool) (m : Member) : Except Malformation MethodUnit := do
  let some name := pool.text? m.name | throw .methodName
  let some descriptor := pool.text? m.descriptor | throw .methodDescriptor
  let code ← match m.attributePosition? pool "Code" with
    | none => pure none
    | some i =>
      match m.attributes[i]? with
      | none => pure none
      | some a =>
        match CodeAttribute.read.run a.info >>= Body.decode pool with
        | .ok body => pure (some (i, body))
        | .error e => throw (.code name descriptor e)
  return ⟨name, descriptor, m.access, code, false⟩

/-- The member as it is written out: the attribute of a modified method's code is made anew. -/
def toMember (m : Member) (u : MethodUnit) : Except LayoutError Member :=
  match u.code with
  | some (i, body) =>
    if u.modified then do
      let code ← body.encode
      let attributes := m.attributes.modify i fun a => { a with info := code.bytes }
      return { m with attributes }
    else .ok m
  | none => .ok m

end MethodUnit

/-- A class in memory. -/
structure ClassUnit where
  /-- The internal name. -/
  name : String
  file : ClassFile
  methods : List MethodUnit
  /-- The bytes that the class was loaded from. -/
  loaded : List UInt8
  dirty : Bool
  deriving DecidableEq

namespace ClassUnit

/-- The class file at the front of the bytes, and its methods taken apart. -/
def decode (bytes : List UInt8) : Except Malformation (ClassFile × List MethodUnit) := do
  let file ← match ClassFile.decode bytes with
    | .ok file => pure file
    | .error e => throw (.unreadable e)
  let methods ← file.methods.mapM (MethodUnit.decode file.pool)
  return (file, methods)

/-- The class that the bytes hold. -/
def ofBytes (bytes : List UInt8) : Except Malformation ClassUnit := do
  let (file, methods) ← decode bytes
  let some name := file.thisName? | throw .unnamed
  return { name, file, methods, loaded := bytes, dirty := false }

/-- The dotted name. -/
def dottedName (u : ClassUnit) : String := ClassName.dotted u.name

def pool (u : ClassUnit) : Pool := u.file.pool

def withPool (u : ClassUnit) (pool : Pool) : ClassUnit := { u with file := { u.file with pool } }

/-- The class with another body for one method, marked as changed. -/
def withBody (u : ClassUnit) (index : Nat) (b : Body) : ClassUnit :=
  { u with methods := u.methods.modify index (·.withBody b), dirty := true }

def markDirty (u : ClassUnit) : ClassUnit := { u with dirty := true }

/-- Back to the loaded state, if the class has been marked as changed. -/
def revert (u : ClassUnit) : ClassUnit :=
  if u.dirty then
    match decode u.loaded with
    | .ok (file, methods) => { u with file, methods, dirty := false }
    | .error _ => { u with dirty := false }
  else u

/-- The bytes of the class. A failure comes with the name of the method that cannot be laid out. -/
def toBytes (u : ClassUnit) : Except (String × LayoutError) (List UInt8) :=
  if u.dirty then do
    let methods ← (u.file.methods.zip u.methods).mapM fun (m, unit) =>
      match unit.toMember m with
      | .ok m => .ok m
      | .error e => .error (unit.name, e)
    return { u.file with methods, pool := u.file.pool.sync }.bytes
  else .ok u.loaded

end ClassUnit

end Retrofit
