import Retrofit.Run

/-!
# Workers

The inputs of a run may be processed by several workers at a time, which share one loader and one
store. Each input is taken through three steps: its class is loaded, then processed under the lock of
the instance, then released. Between the steps of one input any number of steps of the others may come.
A schedule says which input is taken further at each moment. A run with a single worker takes every
input through all its steps before the next one.
-/

namespace Retrofit

/-- How far an input has come. -/
inductive Stage where
  | waiting
  | loaded (outcome : LoadOutcome)
  | processed (outcome : Except Failure Emitted)
  | released (outcome : Except Failure Emitted)

namespace Stage

/-- What became of the input, once that is settled. -/
def outcome? : Stage → Option (Except Failure Emitted)
  | waiting | loaded _ => none
  | processed outcome | released outcome => some outcome

/-- The class is loaded and not released yet. -/
def isHeld : Stage → Bool
  | loaded _ | processed _ => true
  | waiting | released _ => false

def isReleased : Stage → Bool
  | released _ => true
  | _ => false

end Stage

/-- An input of a run. -/
structure Job where
  name : String
  stage : Stage

/-- Take an input one step further. -/
def RunState.advance (st : RunState) (s : Settings) (cp : ClassPath) (target : Target)
    (root name : String) : Stage → RunState × Stage
  | .waiting =>
    let (st, outcome) := st.load cp name
    (st, .loaded outcome)
  | .loaded outcome =>
    let (st, outcome) := st.processLoaded s cp target root name outcome
    (st, .processed outcome)
  | .processed outcome => ({ st with loader := st.loader.release name }, .released outcome)
  | .released outcome => (st, .released outcome)

/-- The inputs of a run in their order, and the state that their workers share. -/
structure Crew where
  state : RunState
  jobs : List Job

namespace Crew

def start (st : RunState) (inputs : List String) : Crew :=
  ⟨st, inputs.map fun name => ⟨name, .waiting⟩⟩

/-- Take the input at a position one step further. -/
def advance (c : Crew) (s : Settings) (cp : ClassPath) (target : Target) (root : String) (i : Nat) :
    Crew :=
  match c.jobs[i]? with
  | none => c
  | some job =>
    let (st, stage) := c.state.advance s cp target root job.name job.stage
    ⟨st, c.jobs.set i ⟨job.name, stage⟩⟩

/-- Take inputs further in the order of a schedule. -/
def follow (c : Crew) (s : Settings) (cp : ClassPath) (target : Target) (root : String)
    (schedule : List Nat) : Crew :=
  schedule.foldl (fun c i => c.advance s cp target root i) c

/-- What became of the input at a position, once that is settled. -/
def outcome? (c : Crew) (i : Nat) : Option (String × Except Failure Emitted) := do
  let job ← c.jobs[i]?
  return (job.name, ← job.stage.outcome?)

/-- No input is left to take further. -/
def isDone (c : Crew) : Bool := c.jobs.all fun job => job.stage.isReleased

/-- What became of the inputs for which that is settled, in their order. -/
def outcomes (c : Crew) : List (String × Except Failure Emitted) :=
  c.jobs.filterMap fun job => job.stage.outcome?.map fun outcome => (job.name, outcome)

end Crew

/-- How far the inputs of a run are when a schedule has been followed. -/
def crewAfter (s : Settings) (cp : ClassPath) (store : Store) (inputs : List String) (root : String)
    (schedule : List Nat) : Crew :=
  let (st, target) := RunState.target ⟨store, .empty, #[]⟩ s cp
  (Crew.start st inputs).follow s cp target root schedule

/-- Process the given classes by a schedule that takes each of them through all its steps. -/
def runBy (schedule : List Nat) (s : Settings) (cp : ClassPath) (store : Store)
    (inputs : List String) (root : String) : Option RunResult :=
  if !inputs.isEmpty && cp.isEmpty then some ⟨store, [], .error .noClassPath⟩
  else
    let c := crewAfter s cp store inputs root schedule
    if c.isDone then
      let summary := Summary.ofOutcomes c.outcomes
      some ⟨c.state.store, c.state.events.toList ++ summary.events, summary.outcome⟩
    else none

/-- The schedule of a single worker. -/
def oneByOne (count : Nat) : List Nat := (List.range count).flatMap fun i => [i, i, i]

end Retrofit
