import Retrofit.Archive
import Retrofit.Patch
import Retrofit.Store

/-!
# Failures

What can go wrong in a run. Most failures concern one class only, and the run goes on without it;
a file that cannot be written, or a run without a class path, ends the run.
-/

namespace Retrofit

/-- Why a place on the class path could not be used. -/
inductive SourceError where
  | access (error : AccessError)
  | archive (error : ArchiveError)
  deriving DecidableEq, Repr

namespace SourceError

/-- The wording of a failure on the class path. -/
def message : SourceError → String
  | access error => error.message
  | archive error => error.message

end SourceError

/-- A failure of a run, or of a step of it. -/
inductive Failure where
  | pathUnavailable (path : String) (reason : SourceError)
  | classNotFound (name : String)
  | malformedClass (name : String) (reason : Malformation)
  /-- A replacement does not fit into a method. -/
  | malformedReplacement (className method : String) (reason : PatchError)
  | unsupportedCall (reason : Unsupported)
  | staleCall (offset : Nat)
  | emit (path : String) (reason : AccessError)
  | noClassPath
  deriving DecidableEq, Repr

namespace Failure

/-- The wording of a failure. -/
def message : Failure → String
  | pathUnavailable path reason => s!"resolution path {path} unavailable: {reason.message}"
  | classNotFound name => s!"class not found: {name}"
  | malformedClass name reason => s!"malformed class {name}: {reason.message}"
  | malformedReplacement className method reason =>
    s!"malformed replacement in {className}.{method}: {reason.message}"
  | unsupportedCall reason => s!"unsupported call site: {reason.message}"
  | staleCall offset => s!"stale call site at offset {offset}"
  | emit path reason => s!"failed to emit {path}: {reason.message}"
  | noClassPath => "no resolution paths registered for the input classes"

/-- Whether the failure concerns one class only. -/
def isLocal : Failure → Bool
  | emit _ _ | noClassPath => false
  | _ => true

/-- Whether the failure has a cause outside the program. -/
def hasCause : Failure → Bool
  | emit _ _ => true
  | _ => false

/-- A failed patch of a call in a class. -/
def ofPatch (u : ClassUnit) (site : CallSite) : PatchError → Failure
  | .stale offset => staleCall offset
  | e => malformedReplacement u.dottedName site.methodName e

end Failure

/-- The bytes of a class, or which method cannot be laid out. -/
def ClassUnit.written (u : ClassUnit) : Except Failure (List UInt8) :=
  match u.toBytes with
  | .ok bytes => .ok bytes
  | .error (method, e) => .error (.malformedReplacement u.dottedName method (.layout e))

end Retrofit
