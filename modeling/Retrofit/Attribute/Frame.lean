import Retrofit.Attribute

/-!
# Stack map frames

A frame describes the locals and the operand stack at a code position. It gives the position as a
distance from the frame before it; small distances fold into the type byte of the compact shapes.
-/

namespace Retrofit

/-- The type of a local slot or stack entry as the verifier sees it. -/
inductive VerificationType where
  | top | integer | float | double | long | null | uninitializedThis
  /-- An instance of the class with the given pool index. -/
  | object (type : UInt16)
  /-- The result of the `New` at the given code offset, not initialized yet. -/
  | uninitialized (offset : UInt16)
  deriving DecidableEq, Repr

namespace VerificationType

def readPayload (tag : UInt8) : Reader VerificationType :=
  match tag with
  | 0 => pure top
  | 1 => pure integer
  | 2 => pure float
  | 3 => pure double
  | 4 => pure long
  | 5 => pure null
  | 6 => pure uninitializedThis
  | 7 => object <$> Reader.u16
  | 8 => uninitialized <$> Reader.u16
  | _ => Reader.fail .endOfData

def read : Reader VerificationType := do
  let tag ← Reader.u8
  readPayload tag

def bytes : VerificationType → List UInt8
  | top => [0]
  | integer => [1]
  | float => [2]
  | double => [3]
  | long => [4]
  | null => [5]
  | uninitializedThis => [6]
  | object type => 7 :: Bytes.ofUInt16 type
  | uninitialized offset => 8 :: Bytes.ofUInt16 offset

end VerificationType

/-- A stack map frame. The distances of the compact shapes are below 64. -/
inductive Frame where
  /-- The locals of the frame before, and an empty stack. -/
  | same (delta : Fin 64)
  /-- The locals of the frame before, and one stack entry. -/
  | sameItem (delta : Fin 64) (item : VerificationType)
  | sameItemExtended (delta : UInt16) (item : VerificationType)
  /-- The locals of the frame before without the last `less + 1`, and an empty stack. -/
  | chop (less : Fin 3) (delta : UInt16)
  | sameExtended (delta : UInt16)
  /-- The locals of the frame before and one to three more, and an empty stack. -/
  | append (delta : UInt16) (locals : List VerificationType)
  | full (delta : UInt16) (locals stack : List VerificationType)
  deriving DecidableEq, Repr

namespace Frame

/-- The byte that tells the shape. -/
def typeByte : Frame → UInt8
  | same delta => UInt8.ofNat delta
  | sameItem delta _ => UInt8.ofNat (64 + delta)
  | sameItemExtended _ _ => 247
  | chop less _ => UInt8.ofNat (250 - less)
  | sameExtended _ => 251
  | append _ locals => UInt8.ofNat (251 + locals.length)
  | full _ _ _ => 255

/-! ### Bytes -/

def bytes (f : Frame) : List UInt8 :=
  f.typeByte ::
    match f with
    | same _ => []
    | sameItem _ item => item.bytes
    | sameItemExtended delta item => Bytes.ofUInt16 delta ++ item.bytes
    | chop _ delta => Bytes.ofUInt16 delta
    | sameExtended delta => Bytes.ofUInt16 delta
    | append delta locals => Bytes.ofUInt16 delta ++ locals.flatMap VerificationType.bytes
    | full delta locals stack =>
      Bytes.ofUInt16 delta ++ (countedBytes VerificationType.bytes locals ++
        countedBytes VerificationType.bytes stack)

/-- What follows the given type byte. Type bytes from 128 to 246 have no meaning. -/
def readPayload (type : UInt8) : Reader Frame :=
  if h : type.toNat < 64 then pure (same ⟨type.toNat, h⟩)
  else if h : type.toNat - 64 < 64 then sameItem ⟨type.toNat - 64, h⟩ <$> VerificationType.read
  else if type < 247 then Reader.fail .endOfData
  else if type = 247 then do
    let delta ← Reader.u16
    sameItemExtended delta <$> VerificationType.read
  else if h : 250 - type.toNat < 3 ∧ type ≤ 250 then chop ⟨250 - type.toNat, h.1⟩ <$> Reader.u16
  else if type = 251 then sameExtended <$> Reader.u16
  else if type < 255 then do
    let delta ← Reader.u16
    append delta <$> Reader.many (type.toNat - 251) VerificationType.read
  else do
    let delta ← Reader.u16
    let locals ← Reader.counted VerificationType.read
    full delta locals <$> Reader.counted VerificationType.read

/-- A frame. A failure behind the type byte is blamed on the place after that byte. -/
def read : Reader Frame := do
  let type ← Reader.u8
  Reader.blame .badItem (readPayload type)

/-! ### Distances -/

/-- The distance from the frame before, however it is stored. -/
def delta : Frame → UInt16
  | same delta => UInt16.ofNat delta
  | sameItem delta _ => UInt16.ofNat delta
  | sameItemExtended delta _ => delta
  | chop _ delta => delta
  | sameExtended delta => delta
  | append delta _ => delta
  | full delta _ _ => delta

/-- The same frame at another distance, in the compact shape where there is one. -/
def withDelta (f : Frame) (delta : UInt16) : Frame :=
  match f with
  | same _ | sameExtended _ =>
    if h : delta.toNat < 64 then same ⟨delta.toNat, h⟩ else sameExtended delta
  | sameItem _ item | sameItemExtended _ item =>
    if h : delta.toNat < 64 then sameItem ⟨delta.toNat, h⟩ item else sameItemExtended delta item
  | chop less _ => chop less delta
  | append _ locals => append delta locals
  | full _ locals stack => full delta locals stack

/-- The locals that the frame lists. -/
def locals : Frame → List VerificationType
  | append _ locals | full _ locals _ => locals
  | _ => []

/-- The stack entries that the frame lists. -/
def stack : Frame → List VerificationType
  | sameItem _ item | sameItemExtended _ item => [item]
  | full _ _ stack => stack
  | _ => []

/-- Every verification type in the frame, locals first. -/
def types (f : Frame) : List VerificationType := f.locals ++ f.stack

/-- The frame with every verification type replaced, locals first; the first failure wins. -/
def mapTypes {ε : Type} (g : VerificationType → Except ε VerificationType) : Frame → Except ε Frame
  | sameItem delta item => do return sameItem delta (← g item)
  | sameItemExtended delta item => do return sameItemExtended delta (← g item)
  | append delta locals => do return append delta (← locals.mapM g)
  | full delta locals stack => do
    let locals ← locals.mapM g
    return full delta locals (← stack.mapM g)
  | f => .ok f

end Frame

end Retrofit
