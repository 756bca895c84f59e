import Retrofit.Body
import Retrofit.Body.OffsetMap
import Retrofit.Instruction.Relocation

/-!
# Layout

A body is laid out back to back again, and branches, guards and tables are aimed at the places their
instructions moved to. One offset map serves them all; it takes the end of the loaded code to the
end of the new one.

The lengths of the instructions are added up exactly, and a body of more than 65535 bytes is refused.
From 2^32 bytes on a sum of 32-bit words overflows: checked arithmetic stops there, and a body of that
size is neither laid out nor refused.
-/

namespace Retrofit

/-- What refers to code offsets, apart from branches. -/
inductive OffsetUser where
  | guards | lines | locals | localTypes | frames
  deriving DecidableEq, Repr

namespace OffsetUser

def name : OffsetUser → String
  | guards => "exception table"
  | lines => "LineNumberTable"
  | locals => "LocalVariableTable"
  | localTypes => "LocalVariableTypeTable"
  | frames => "StackMapTable"

end OffsetUser

/-- Why a body cannot be laid out. -/
inductive LayoutError where
  /-- The branch loaded at `origin` cannot be moved. -/
  | branch (origin : Nat) (error : RelocationError)
  | tooLarge (length : Nat)
  /-- A table refers to an offset at which nothing starts any more. -/
  | unmapped (user : OffsetUser) (offset : Nat)
  deriving DecidableEq, Repr

namespace LayoutError

/-- The wording of a layout failure. -/
def message : LayoutError → String
  | branch origin (.unmappedTarget target) =>
    s!"branch at {origin} targets {target}, which is not an instruction boundary"
  | branch origin (.overflow displacement) =>
    s!"branch at {origin} needs displacement {displacement}, which does not fit its operand"
  | tooLarge length => s!"code length {length} exceeds 65535 bytes"
  | unmapped user offset => s!"{user.name} refers to offset {offset}, which no longer exists"

end LayoutError

namespace Frame

/-- The code positions of frames: each lies its distance behind the place after the one before. -/
def positions (frames : List Frame) : List Nat :=
  (frames.zip (frames.scanl (fun next f => next + f.delta.toNat + 1) 0)).map
    fun (f, next) => next + f.delta.toNat

/-- The distances that lead to the given code positions. -/
def deltas (positions : List Nat) : List Nat :=
  (positions.zip (0 :: positions.map (· + 1))).map fun (p, next) => p - next

end Frame

namespace Body

/-- The address of every node when they are laid out, and after them the length of the code. -/
def addresses (b : Body) : List Nat := Code.addresses b.instructions

/-- The length of the laid-out code. -/
def length (b : Body) : Nat := Code.length b.instructions

/-- Every loaded offset that still has a place, with its new place. -/
def offsetPairs (b : Body) : List (Nat × Nat) :=
  (b.nodes.zip b.addresses).filterMap (fun (n, address) => n.origin.map (·, address)) ++
    [(b.loadedLength, b.length)]

/-! ### Aiming again -/

variable (map : Nat → Option Nat)

/-- The new place of an offset that a table refers to. -/
def moveOffset (user : OffsetUser) (offset : Nat) : Except LayoutError Nat :=
  match map offset with
  | some new => .ok new
  | none => .error (.unmapped user offset)

/-- The new place of a 16-bit offset that a table refers to. -/
def moveOffset16 (user : OffsetUser) (offset : UInt16) : Except LayoutError UInt16 :=
  UInt16.ofNat <$> moveOffset map user offset.toNat

/-- A node's instruction moved to `address`. Inserted instructions stay as they are. -/
def moveNode (n : Node) (address : Nat) : Except LayoutError Instruction :=
  match n.origin with
  | none => .ok n.instruction
  | some origin =>
    match n.instruction.relocate map origin address with
    | .ok i => .ok i
    | .error e => .error (.branch origin e)

def moveGuard (g : Guard) : Except LayoutError Guard := do
  let start ← moveOffset16 map .guards g.start
  let stop ← moveOffset16 map .guards g.stop
  let handler ← moveOffset16 map .guards g.handler
  return { g with start, stop, handler }

def moveLine (e : LineEntry) : Except LayoutError LineEntry := do
  return { e with start := ← moveOffset16 map .lines e.start }

/-- A local variable's range moved: both its ends have to have a place. -/
def moveLocal (user : OffsetUser) (e : LocalEntry) : Except LayoutError LocalEntry := do
  let stop := e.start.toNat + e.length.toNat
  if 65535 < stop then throw (.unmapped user stop)
  let newStart ← moveOffset16 map user e.start
  let newStop ← moveOffset16 map user (UInt16.ofNat stop)
  return { e with start := newStart, length := newStop - newStart }

def moveType : VerificationType → Except LayoutError VerificationType
  | .uninitialized offset => .uninitialized <$> moveOffset16 map .frames offset
  | t => .ok t

/-- Frames moved: each to the new place of its position, its distance computed anew. -/
def moveFrames (frames : List Frame) : Except LayoutError (List Frame) := do
  let moved ← (frames.zip (Frame.positions frames)).mapM fun (f, position) => do
    let new ← moveOffset map .frames position
    return (← f.mapTypes (moveType map), new)
  let deltas := Frame.deltas (moved.map Prod.snd)
  return (moved.zip deltas).map fun ((f, _), delta) => f.withDelta (UInt16.ofNat delta)

/-- A table moved. Type annotations are given up once an offset has changed. -/
def moveTable (moved : Bool) : CodeTable → Except LayoutError (Option CodeTable)
  | .lines entries => do return some (.lines (← entries.mapM (moveLine map)))
  | .locals entries => do return some (.locals (← entries.mapM (moveLocal map .locals)))
  | .localTypes entries => do return some (.localTypes (← entries.mapM (moveLocal map .localTypes)))
  | .frames entries => do return some (.frames (← moveFrames map entries))
  | .typeAnnotations info => .ok (if moved then none else some (.typeAnnotations info))
  | .other info => .ok (some (.other info))

def moveNamedTable (moved : Bool) (t : NamedTable) : Except LayoutError (Option NamedTable) := do
  return (← moveTable map moved t.table).map fun table => ⟨t.name, table⟩

end Body

/-- Lay the body out and put the `Code` attribute together again. -/
def Body.encode (b : Body) : Except LayoutError CodeAttribute := do
  let length := b.length
  if 65535 < length then throw (.tooLarge length)
  let pairs := b.offsetPairs
  let offsets := OffsetMap.ofPairs pairs
  let moved := pairs.any fun p => p.1 ≠ p.2
  let instructions ← (b.nodes.zip b.addresses).mapM fun (n, address) =>
    Body.moveNode offsets.get? n address
  let guards ← b.guards.mapM (Body.moveGuard offsets.get?)
  let tables ← b.tables.mapM (Body.moveNamedTable offsets.get? moved)
  return {
    maxStack := b.maxStack
    maxLocals := b.maxLocals
    code := Code.encode instructions
    guards := guards
    attributes := (tables.filterMap id).map NamedTable.toAttribute }

end Retrofit
