import Retrofit.Discovery
import Retrofit.Options

/-!
# The command

What the command does for its options: it discovers the classes of the input directories, searches
those first and the class path after them, and runs. The exit code tells whether every class was
processed.
-/

namespace Retrofit.Command

/-- How the command ends. -/
inductive Outcome where
  | complete
  /-- So many classes could not be processed. -/
  | incomplete (classes : Nat)
  | failed (failure : Failure)
  | misused (error : UsageError)
  deriving DecidableEq, Repr

namespace Outcome

def exitCode : Outcome → UInt8
  | complete => 0
  | incomplete _ | failed _ => 1
  | misused _ => 2

/-- What is said about an outcome that is not the best one. -/
def message? : Outcome → Option String
  | complete => none
  | incomplete classes => some s!"{classes} input classes could not be processed"
  | failed failure => some failure.message
  | misused error => some error.message

/-- The outcome of a run. -/
def ofRun : Except Failure Report → Outcome
  | .error e => failed e
  | .ok report => if report.failures.isEmpty then complete else incomplete report.failures.length

end Outcome

/-- What is left after the command. -/
structure Result where
  store : Store
  events : List Event
  outcome : Outcome

/-- Put paths at the end of a class path, as far as they can be used. -/
def registerAll (cp : ClassPath) (s : Store) (paths : List String) : ClassPath × List Event :=
  paths.foldl (fun (cp, events) path =>
    let (cp, event, _) := cp.register s path
    (cp, events ++ [event])) (cp, [])

/-- Run with the given options. -/
def execute (o : Options) (s : Store) : Result :=
  match o.inputs.mapM (Discovery.classes s) with
  | .error e => ⟨s, [], .failed e⟩
  | .ok found =>
    let (cp, events) := registerAll .empty s (o.inputs ++ (o.classPath ++ o.bootClassPath))
    let result := run o.settings cp s found.flatten o.output
    ⟨result.store, events ++ result.events, .ofRun result.outcome⟩

/-- Do what the arguments ask for. -/
def perform (arguments : List String) (s : Store) : Result :=
  match Options.parse arguments with
  | .error e => ⟨s, [], .misused e⟩
  | .ok .help | .ok .version => ⟨s, [], .complete⟩
  | .ok (.run o) => execute o s

end Retrofit.Command
