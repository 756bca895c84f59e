import Retrofit.Lowering

/-!
# Patches

A patch puts a replacement in the place of one call and raises the limits of the method as far as
the replacement needs. It is installed only if the method can still be laid out, so a failed patch
changes no method; the constant pool may have grown all the same.
-/

namespace Retrofit

/-- Why a call was not replaced. -/
inductive PatchError where
  /-- The call found at this offset is not there any more. -/
  | stale (offset : Nat)
  | stack (error : StackError)
  | lowering (error : LoweringError)
  | stackTooDeep (depth : Nat)
  | tooManyLocals (count : Nat)
  | layout (error : LayoutError)
  deriving DecidableEq, Repr

namespace PatchError

/-- The wording of a patch failure. -/
def message : PatchError → String
  | stale offset => s!"stale call site at offset {offset}"
  | stack error => error.message
  | lowering error => error.message
  | stackTooDeep depth => s!"operand stack depth {depth} exceeds 65535"
  | tooManyLocals count => s!"{count} local slots exceed 65535"
  | layout error => error.message

end PatchError

namespace Body

/-- Whether the site's call is still where it was found. -/
def holds (b : Body) (site : CallSite) : Bool :=
  match b.nodes[site.position]? with
  | some n => n.origin == some site.offset &&
      (n.instruction.call?.map Prod.snd) == some site.index
  | none => false

/-- The operand stack limit once a replacement with the given profile is in. The call took its
arguments and left one value, so what lay below them is at most the old limit less the larger of
the two. -/
def stackLimit (b : Body) (r : Replacement) (profile : StackProfile) : Nat :=
  b.maxStack.toNat - max r.argCount.toNat 1 + profile.peak.toNat

/-- The local slot limit once a replacement is in. -/
def localLimit (b : Body) (r : Replacement) : Nat := b.scratchBase.toNat + r.argSlots.toNat

/-- The body with the lowered replacement in the place of the node at `position`. -/
def patch (b : Body) (position : Nat) (r : Replacement) (profile : StackProfile)
    (lowered : List Instruction) : Except PatchError Body :=
  let stackLimit := b.stackLimit r profile
  let localLimit := b.localLimit r
  if 65535 < stackLimit then .error (.stackTooDeep stackLimit)
  else if 65535 < localLimit then .error (.tooManyLocals localLimit)
  else
    let patched := { b.splice position lowered with
      maxStack := max (UInt16.ofNat stackLimit) b.maxStack
      maxLocals := max (UInt16.ofNat localLimit) b.maxLocals }
    match patched.encode with
    | .ok _ => .ok patched
    | .error e => .error (.layout e)

end Body

namespace ClassUnit

/-- The body that holds the site's call, if it still does. -/
def bodyOf? (u : ClassUnit) (site : CallSite) : Option Body := do
  let m ← u.methods[site.methodIndex]?
  let b ← m.body?
  if b.holds site then some b else none

/-- Replace the call at a site. -/
def patch (u : ClassUnit) (site : CallSite) (r : Replacement) :
    ClassUnit × Except PatchError Unit :=
  match u.bodyOf? site with
  | none => (u, .error (.stale site.offset))
  | some b =>
    match r.stackProfile with
    | .error e => (u, .error (.stack e))
    | .ok profile =>
      match r.lower u.pool b.scratchBase with
      | (pool, .error e) => (u.withPool pool, .error (.lowering e))
      | (pool, .ok lowered) =>
        match b.patch site.position r profile lowered with
        | .error e => (u.withPool pool, .error e)
        | .ok patched => ((u.withPool pool).withBody site.methodIndex patched, .ok ())

end ClassUnit

end Retrofit
