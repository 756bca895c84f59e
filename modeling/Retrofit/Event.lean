import Retrofit.Failure

/-!
# Events

What a run tells about its progress. An event keeps what happened; its text and its level follow
from that.
-/

namespace Retrofit

/-- How important an event is. -/
inductive Level where
  | debug | info | warn
  deriving DecidableEq, Repr

/-- Something that a run has to tell. -/
inductive Event where
  | registered (path : String)
  | rejected (failure : Failure)
  /-- A place on the class path could not be searched for a class. -/
  | skipped (path name : String) (reason : SourceError)
  | loading (name : String)
  | overloads (target : String) (count : Nat)
  | noOverloads (target method : String)
  | targetMissing (target : String)
  | targetMalformed (failure : Failure)
  /-- The class is written as it was found. -/
  | copied (failure : Failure)
  | undeclared (member : MemberRef)
  | badDescriptor (member : MemberRef)
  /-- A call in the class is not replaced. -/
  | leftAlone (className : String) (line : Option UInt16) (reason : Unsupported)
  | replacing (className : String) (line : Option UInt16) (replacement : Replacement)
  | replaced (className : String) (line : Option UInt16) (owner method : String)
  /-- The calls of a class could not be replaced; it is written unchanged. -/
  | unchanged (className : String) (failure : Failure)
  | failed (name : String) (failure : Failure)
  | finished (classes calls : Nat)
  deriving DecidableEq, Repr

namespace Event

/-- A source line, or that it is not known. -/
def place (className : String) (line : Option UInt16) : String :=
  match line with
  | some n => s!"{className}:L{n}"
  | none => s!"{className}:L-1"

def level : Event → Level
  | registered _ | loading _ | overloads _ _ | noOverloads _ _ | targetMissing _ => .debug
  | undeclared _ | replacing _ _ _ => .debug
  | replaced _ _ _ _ | finished _ _ => .info
  | _ => .warn

/-- The text of an event. -/
def message : Event → String
  | registered path => s!"registered resolution path {path}"
  | rejected failure => failure.message
  | skipped path name reason =>
    s!"skipping {path} while looking up {name}: {reason.message}"
  | loading name => s!"loading {name}"
  | overloads target count => s!"{target} declares {count} overloads"
  | noOverloads target method => s!"{target} declares no {method}; matching by descriptor only"
  | targetMissing target =>
    s!"{target} is not on any resolution path; matching by descriptor only"
  | targetMalformed failure => s!"{failure.message}; matching by descriptor only"
  | copied failure => s!"{failure.message}; copying it through unchanged"
  | undeclared m =>
    s!"{m.owner}.{m.name}{m.descriptor} is not declared by the target class; leaving it alone"
  | badDescriptor m => s!"unparseable descriptor {m.descriptor} on call to {m.owner}.{m.name}"
  | leftAlone className line reason =>
    s!"{place className line}: {(Failure.unsupportedCall reason).message}; call left as is"
  | replacing className line replacement =>
    s!"{place className line}: {replacement.listing}"
  | replaced className line owner method =>
    s!"{place className line}: {ClassName.simple owner}.{method}()"
  | unchanged className failure => s!"{failure.message}; emitting {className} unchanged"
  | failed name failure => s!"{name}: {failure.message}"
  | finished classes calls => s!"{classes} classes emitted, {calls} call sites rewritten"

end Event

end Retrofit
