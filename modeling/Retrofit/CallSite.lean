import Retrofit.Descriptor
import Retrofit.Unit

/-!
# Call sites

Which call instructions of a class go to a given method. A call counts if its pool entry names the
method and, where the method's own class is known, if that class declares an overload with the
descriptor of the call.
-/

namespace Retrofit

/-- How a method is called. -/
inductive CallKind where
  | static | virtual | special | interface
  deriving DecidableEq, Repr

namespace CallKind

def name : CallKind → String
  | static => "invokestatic"
  | virtual => "invokevirtual"
  | special => "invokespecial"
  | interface => "invokeinterface"

end CallKind

/-- Kind and pool index of a call instruction. -/
def Instruction.call? : Instruction → Option (CallKind × UInt16)
  | .invokestatic index => some (.static, index)
  | .invokevirtual index => some (.virtual, index)
  | .invokespecial index => some (.special, index)
  | .invokeinterface index _ _ => some (.interface, index)
  | _ => none

/-- A call instruction in a body. -/
structure Call where
  position : Nat
  origin : Option Nat
  kind : CallKind
  index : UInt16
  deriving DecidableEq, Repr

/-- The call instructions of a body in order. -/
def Body.calls (b : Body) : List Call :=
  b.nodes.zipIdx.filterMap fun (n, position) =>
    n.instruction.call?.map fun (kind, index) => ⟨position, n.origin, kind, index⟩

/-- A call that goes to the sought method. It is good until its method is next changed. -/
structure CallSite where
  methodIndex : Nat
  methodName : String
  /-- The position of the call among the nodes of its method. -/
  position : Nat
  /-- The offset of the call in the loaded code. -/
  offset : Nat
  kind : CallKind
  /-- The pool index of the method called. -/
  index : UInt16
  owner : String
  name : String
  descriptor : String
  type : MethodType
  line : Option UInt16
  deriving DecidableEq, Repr

/-- The descriptors under which a class declares the sought method, each once. -/
structure OverloadSet where
  declared : List String
  deriving DecidableEq, Repr

/-- The overloads of a method that a class declares. -/
def OverloadSet.ofClass (u : ClassUnit) (name : String) : OverloadSet :=
  let named := u.file.methods.filter fun m => u.pool.text? m.name == some name
  ⟨(named.filterMap fun m => u.pool.text? m.descriptor).eraseDups⟩

/-- What a look at one call found. -/
inductive Finding where
  | site (site : CallSite)
  /-- The target class declares no such overload. -/
  | undeclared (member : MemberRef)
  | badDescriptor (member : MemberRef)
  deriving DecidableEq, Repr

/-- The method whose calls are sought. -/
structure Target where
  /-- The class, by internal name. -/
  owner : String
  name : String
  /-- The overloads that count; all of them if the class is unknown. -/
  overloads : Option OverloadSet
  deriving DecidableEq, Repr

namespace Target

/-- The calls of any overload of a method. The class may be spelled either way. -/
def ofName (owner name : String) : Target := ⟨ClassName.internal owner, name, none⟩

/-- What there is to say about a call in the given method. Calls to other methods and calls that
were not loaded are passed over. -/
def classify (t : Target) (pool : Pool) (methodIndex : Nat) (methodName : String) (b : Body)
    (c : Call) : Option Finding := do
  let offset ← c.origin
  let member ← pool.member? c.index
  if member.owner ≠ t.owner ∨ member.name ≠ t.name then none
  else if t.overloads.any fun o => !o.declared.contains member.descriptor then
    some (.undeclared member)
  else
    match MethodType.parse? member.descriptor with
    | none => some (.badDescriptor member)
    | some type =>
      some (.site {
        methodIndex := methodIndex
        methodName := methodName
        position := c.position
        offset := offset
        kind := c.kind
        index := c.index
        owner := member.owner
        name := member.name
        descriptor := member.descriptor
        type := type
        line := b.lineAt? offset })

/-- All findings in a class, method by method. -/
def scan (t : Target) (u : ClassUnit) : List Finding :=
  u.methods.zipIdx.flatMap fun (m, i) =>
    match m.body? with
    | none => []
    | some b => b.calls.filterMap (t.classify u.pool i m.name b)

/-- The call sites among the findings. -/
def sites (findings : List Finding) : List CallSite :=
  findings.filterMap fun f => match f with
    | .site s => some s
    | _ => none

end Target

end Retrofit
