import Retrofit.Loader
import Retrofit.Substitution

/-!
# Runs

A run takes a list of classes. Each one that is found is written below the output root, with its
calls replaced where that succeeds and byte for byte otherwise; what fails for one class does not
stop the others.
-/

namespace Retrofit

/-- What a run replaces. -/
structure Settings where
  /-- The class whose factory method is replaced, under either spelling. -/
  targetClass : String := "java.util.List"
  targetMethod : String := "of"
  /-- The largest number of arguments passed one by one. -/
  maxFixedArity : Nat := 10
  deriving DecidableEq, Repr

/-- A class that was written. -/
structure Emitted where
  name : String
  path : String
  substitutions : List Substitution
  /-- The calls could not be replaced, and the class was written as it was found. -/
  passedThrough : Bool
  deriving DecidableEq, Repr

/-- What became of the classes of a run, in order. -/
structure Report where
  emitted : List Emitted
  failures : List (String × Failure)
  deriving DecidableEq, Repr

namespace Report

/-- How many calls were replaced. -/
def substitutionCount (r : Report) : Nat :=
  r.emitted.foldr (fun e n => e.substitutions.length + n) 0

end Report

/-- The state of a run between two classes. -/
structure RunState where
  store : Store
  loader : Loader
  events : Array Event

namespace RunState

def tell (st : RunState) (events : List Event) : RunState :=
  { st with events := st.events ++ events }

/-- Load a class. -/
def load (st : RunState) (cp : ClassPath) (name : String) : RunState × LoadOutcome :=
  let (loader, outcome, events) := st.loader.load cp st.store name
  ({ st with loader }.tell events, outcome)

/-- Write the bytes of a class to its file below the root. -/
def writeClass (st : RunState) (root name : String) (bytes : List UInt8) :
    RunState × Except Failure String :=
  let path := Path.ofClass root name
  match st.store.write path bytes with
  | (store, .ok ()) => ({ st with store }, .ok path)
  | (store, .error e) => ({ st with store }, .error (.emit path e))

/-- Write a class to its file below the root. -/
def emit (st : RunState) (root : String) (u : ClassUnit) : RunState × Except Failure String :=
  match u.written with
  | .ok bytes => st.writeClass root u.name bytes
  | .error e => (st, .error e)

/-- Write a class that cannot be decoded as it was found. -/
def copy (st : RunState) (cp : ClassPath) (root name : String) :
    RunState × Except Failure Emitted :=
  let (found, events) := cp.find st.store name
  let st := st.tell events
  match found with
  | .error e => (st, .error e)
  | .ok bytes =>
    match st.writeClass root name bytes with
    | (st, .ok path) => (st, .ok ⟨name, path, [], true⟩)
    | (st, .error e) => (st, .error e)

/-- Give up on the instance behind a handle: put it back into its loaded state and write that. -/
def passThrough (st : RunState) (root name : String) (h : Handle) (u : ClassUnit) (e : Failure) :
    RunState × Except Failure Emitted :=
  let st := st.tell [.unchanged u.dottedName e]
  let u := u.revert
  let st := { st with loader := st.loader.update h u }
  match st.emit root u with
  | (st, .ok path) => (st, .ok ⟨name, path, [], true⟩)
  | (st, .error e) => (st, .error e)

/-- Write a class after an attempt to replace its calls. Where the attempt failed, or its result
cannot be laid out, the class is written in its loaded state. -/
def finish (st : RunState) (root name : String) (h : Handle) (a : Attempt) :
    RunState × Except Failure Emitted :=
  let st := { st with loader := st.loader.update h a.unit }.tell a.events
  match a.outcome with
  | .error e => st.passThrough root name h a.unit e
  | .ok substitutions =>
    match st.emit root a.unit with
    | (st, .ok path) => (st, .ok ⟨name, path, substitutions, false⟩)
    | (st, .error e) =>
      if e.isLocal then st.passThrough root name h a.unit e else (st, .error e)

/-- Replace the calls of a class that was loaded and write it, or write it as it is found if it could
not be decoded. -/
def processLoaded (st : RunState) (s : Settings) (cp : ClassPath) (target : Target)
    (root name : String) : LoadOutcome → RunState × Except Failure Emitted
  | .error .notFound => (st, .error (.classNotFound name))
  | .error e => (st.tell [.copied (e.toFailure name)]).copy cp root name
  | .ok h =>
    match st.loader.unit? h with
    | none => (st, .error (.classNotFound name))
    | some u => st.finish root name h (u.substitute target s.maxFixedArity)

/-- Load one class, replace its calls and write it. -/
def processClass (st : RunState) (s : Settings) (cp : ClassPath) (target : Target)
    (root name : String) : RunState × Except Failure Emitted :=
  let (st, outcome) := st.load cp name
  st.processLoaded s cp target root name outcome

/-- Process classes in order; each is released before the next one. -/
def processAll (st : RunState) (s : Settings) (cp : ClassPath) (target : Target) (root : String)
    (done : List (String × Except Failure Emitted)) :
    List String → RunState × List (String × Except Failure Emitted)
  | [] => (st, done.reverse)
  | name :: rest =>
    let (st, outcome) := st.processClass s cp target root name
    let st := { st with loader := st.loader.release name }
    st.processAll s cp target root ((name, outcome) :: done) rest

/-- The method whose calls are replaced. If its class is found and declares the method, only the
declared overloads count. -/
def target (st : RunState) (s : Settings) (cp : ClassPath) : RunState × Target :=
  let any := Target.ofName s.targetClass s.targetMethod
  match st.load cp s.targetClass with
  | (st, .error .notFound) => (st.tell [.targetMissing s.targetClass], any)
  | (st, .error e) => (st.tell [.targetMalformed (e.toFailure s.targetClass)], any)
  | (st, .ok h) =>
    match st.loader.unit? h with
    | none => (st, any)
    | some u =>
      let overloads := OverloadSet.ofClass u s.targetMethod
      if overloads.declared.isEmpty then
        (st.tell [.noOverloads s.targetClass s.targetMethod], any)
      else
        (st.tell [.overloads s.targetClass overloads.declared.length],
          { any with overloads := some overloads })

end RunState

/-! ### Summing up -/

/-- What became of the classes, and the first failure that ends the run. -/
structure Summary where
  report : Report
  fatal : Option Failure
  deriving DecidableEq, Repr

namespace Summary

/-- Sum up one more class. -/
def add (s : Summary) (outcome : String × Except Failure Emitted) : Summary :=
  match outcome with
  | (_, .ok emitted) => { s with report.emitted := s.report.emitted ++ [emitted] }
  | (name, .error e) =>
    if !e.isLocal && s.fatal.isNone then { s with fatal := some e }
    else { s with report.failures := s.report.failures ++ [(name, e)] }

def ofOutcomes (outcomes : List (String × Except Failure Emitted)) : Summary :=
  outcomes.foldl add ⟨⟨[], []⟩, none⟩

/-- What the summary has to tell. -/
def events (s : Summary) : List Event :=
  s.report.failures.map (fun (name, e) => .failed name e) ++
    match s.fatal with
    | some _ => []
    | none => [.finished s.report.emitted.length s.report.substitutionCount]

def outcome (s : Summary) : Except Failure Report :=
  match s.fatal with
  | some e => .error e
  | none => .ok s.report

end Summary

/-- What is left after a run. -/
structure RunResult where
  store : Store
  events : List Event
  outcome : Except Failure Report

/-- Process the given classes and write those that are found below the output root. -/
def run (s : Settings) (cp : ClassPath) (store : Store) (inputs : List String) (root : String) :
    RunResult :=
  if !inputs.isEmpty && cp.isEmpty then ⟨store, [], .error .noClassPath⟩
  else
    let (st, target) := RunState.target ⟨store, .empty, #[]⟩ s cp
    let (st, outcomes) := st.processAll s cp target root [] inputs
    let summary := Summary.ofOutcomes outcomes
    ⟨st.store, st.events.toList ++ summary.events, summary.outcome⟩

end Retrofit
