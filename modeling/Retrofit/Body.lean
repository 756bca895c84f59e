import Retrofit.Attribute.Code
import Retrofit.Attribute.Frame
import Retrofit.Code
import Retrofit.Pool

/-!
# Method bodies

A `Code` attribute taken apart: the instructions, and every table that points into them. Each
instruction remembers the offset at which it was loaded, so that tables and branches can be aimed
again after an edit.
-/

namespace Retrofit

/-- One instruction of a body. Inserted instructions have no origin. -/
structure Node where
  /-- The offset of the instruction in the loaded code. -/
  origin : Option Nat
  instruction : Instruction
  deriving DecidableEq

/-- What a nested attribute holds, as far as it points into the code. -/
inductive CodeTable where
  | lines (entries : List LineEntry)
  | locals (entries : List LocalEntry)
  | localTypes (entries : List LocalEntry)
  | frames (entries : List Frame)
  /-- Type annotations on code positions, not taken apart. -/
  | typeAnnotations (info : List UInt8)
  | other (info : List UInt8)
  deriving DecidableEq, Repr

/-- A nested attribute with its name. -/
structure NamedTable where
  name : UInt16
  table : CodeTable
  deriving DecidableEq, Repr

/-- The code of a method, taken apart. -/
structure Body where
  maxStack : UInt16
  maxLocals : UInt16
  /-- The first local slot that the loaded code does not use. -/
  scratchBase : UInt16
  nodes : List Node
  /-- The length of the loaded code. -/
  loadedLength : Nat
  guards : List Guard
  tables : List NamedTable
  deriving DecidableEq

namespace CodeTable

/-- Take apart a nested attribute with the given name. -/
def decode (name : Option String) (info : List UInt8) : Except ReadError CodeTable :=
  match name with
  | some "LineNumberTable" => lines <$> (Reader.counted LineEntry.read).run info
  | some "LocalVariableTable" => locals <$> (Reader.counted LocalEntry.read).run info
  | some "LocalVariableTypeTable" => localTypes <$> (Reader.counted LocalEntry.read).run info
  | some "StackMapTable" => frames <$> (Reader.counted Frame.read).run info
  | some "RuntimeVisibleTypeAnnotations" => .ok (typeAnnotations info)
  | some "RuntimeInvisibleTypeAnnotations" => .ok (typeAnnotations info)
  | _ => .ok (other info)

/-- The bytes of a nested attribute. -/
def info : CodeTable → List UInt8
  | lines entries => countedBytes LineEntry.bytes entries
  | locals entries => countedBytes LocalEntry.bytes entries
  | localTypes entries => countedBytes LocalEntry.bytes entries
  | frames entries => countedBytes Frame.bytes entries
  | typeAnnotations info => info
  | other info => info

/-- The entries of a line table. -/
def lineEntries : CodeTable → List LineEntry
  | lines entries => entries
  | _ => []

end CodeTable

namespace NamedTable

def decode (pool : Pool) (a : Attribute) : Except ReadError NamedTable := do
  return ⟨a.name, ← CodeTable.decode (pool.text? a.name) a.info⟩

def toAttribute (t : NamedTable) : Attribute := ⟨t.name, t.table.info⟩

end NamedTable

namespace Body

/-- Take apart a `Code` attribute. -/
def decode (pool : Pool) (code : CodeAttribute) : Except ReadError Body := do
  let instructions ← Code.decode code.code
  let tables ← code.attributes.mapM (NamedTable.decode pool)
  return {
    maxStack := code.maxStack
    maxLocals := code.maxLocals
    scratchBase := code.maxLocals
    nodes := instructions.map fun (offset, i) => ⟨some offset, i⟩
    loadedLength := code.code.length
    guards := code.guards
    tables := tables }

/-- The instructions in order. -/
def instructions (b : Body) : List Instruction := b.nodes.map Node.instruction

/-- Of two entries the one that says more about `offset`: entries that start behind it say nothing,
and of the others the one that starts last counts, of equals the one listed last. -/
def nearer (offset : Nat) (best : Option LineEntry) (e : LineEntry) : Option LineEntry :=
  if offset < e.start.toNat then best
  else
    match best with
    | some m => if m.start ≤ e.start then some e else some m
    | none => some e

/-- The source line of the instruction loaded at `offset`, from the entries of every line table. -/
def lineAt? (b : Body) (offset : Nat) : Option UInt16 :=
  (b.tables.foldl (fun best t => t.table.lineEntries.foldl (nearer offset) best) none).map
    LineEntry.line

/-- Nodes for instructions that take the place of one loaded at `origin`: the first of them stands
in for it. -/
def replacementNodes (origin : Option Nat) : List Instruction → List Node
  | [] => []
  | i :: is => ⟨origin, i⟩ :: is.map fun j => ⟨none, j⟩

/-- The body with the node at `position` replaced. Whatever pointed at the replaced instruction
then points at the first of the new ones. -/
def splice (b : Body) (position : Nat) (replacement : List Instruction) : Body :=
  match b.nodes[position]? with
  | none => b
  | some node =>
    { b with
      nodes := b.nodes.take position ++ (replacementNodes node.origin replacement ++
        b.nodes.drop (position + 1)) }

end Body

end Retrofit
