import Retrofit.ClassPath

/-!
# Loaders

A loader keeps one live instance of each class it has loaded, and gives out handles to it. A class
that could not be loaded is remembered in the same way, so everyone who asks hears the same until
the name is released.
-/

namespace Retrofit

/-- Why a class could not be loaded. -/
inductive LoadFailure where
  | notFound
  /-- The class was found under the given name and could not be decoded. -/
  | malformed (name : String) (reason : Malformation)
  deriving DecidableEq, Repr

namespace LoadFailure

/-- The failure for someone who asked for the class under the given name. -/
def toFailure (name : String) : LoadFailure → Failure
  | notFound => .classNotFound name
  | malformed first reason => .malformedClass name (.earlier first reason)

end LoadFailure

/-- A handle to an instance. Equal handles share the instance. -/
abbrev Handle := Nat

/-- What became of loading a class. -/
abbrev LoadOutcome := Except LoadFailure Handle

/-- Instances of classes, and the outcomes remembered under internal names. -/
structure Loader where
  outcomes : List (String × LoadOutcome)
  /-- Every instance there has been, at its handle. -/
  instances : Array ClassUnit

namespace Loader

def empty : Loader := ⟨[], #[]⟩

/-- The outcome remembered for a name. -/
def outcome? (l : Loader) (name : String) : Option LoadOutcome :=
  l.outcomes.lookup (ClassName.internal name)

/-- How many names have an outcome. -/
def size (l : Loader) : Nat := l.outcomes.length

/-- The instance behind a handle. -/
def unit? (l : Loader) (h : Handle) : Option ClassUnit := l.instances[h]?

/-- Remember an outcome. -/
def remember (l : Loader) (name : String) (o : LoadOutcome) : Loader :=
  { l with outcomes := (ClassName.internal name, o) :: l.outcomes }

/-- Take in a new instance. -/
def add (l : Loader) (u : ClassUnit) : Loader × Handle :=
  ({ l with instances := l.instances.push u }, l.instances.size)

/-- Load a class, unless its outcome is known already. -/
def load (l : Loader) (cp : ClassPath) (s : Store) (name : String) :
    Loader × LoadOutcome × List Event :=
  match l.outcome? name with
  | some o => (l, o, [])
  | none =>
    match cp.find? s name with
    | (none, events) =>
      (l.remember name (.error .notFound), .error .notFound, .loading name :: events)
    | (some bytes, events) =>
      match ClassUnit.ofBytes bytes with
      | .ok u =>
        let (l, h) := l.add u
        (l.remember name (.ok h), .ok h, .loading name :: events)
      | .error e =>
        (l.remember name (.error (.malformed name e)), .error (.malformed name e),
          .loading name :: events)

/-- Change the instance behind a handle. -/
def update (l : Loader) (h : Handle) (u : ClassUnit) : Loader :=
  { l with instances := l.instances.setIfInBounds h u }

/-- Forget the outcome for a name. -/
def release (l : Loader) (name : String) : Loader :=
  { l with outcomes := l.outcomes.filter fun p => p.1 != ClassName.internal name }

end Loader

end Retrofit
