import Retrofit.Run

/-!
# Options

The arguments of the command. An option takes its value from the same argument, behind an equals
sign, or from the next one; a value in the next argument is looked at when the option after it comes
up, or at the end. The first argument that asks for help or for the version settles the matter.
-/

namespace Retrofit

/-- The options that take a value. -/
inductive ValueOption where
  | input | classPath | bootClassPath | output | targetClass | targetMethod | maxFixedArity
  deriving DecidableEq, Repr

/-- The options that take none. -/
inductive Flag where
  | verbose | help | version
  deriving DecidableEq, Repr

/-- Why arguments could not be used. -/
inductive UsageError where
  | unknown (argument : String)
  | unexpected (argument : String)
  | missingValue (name : String)
  | unexpectedValue (name : String)
  | emptyValue (name : String)
  | repeated (name : String)
  | notANumber (name value : String)
  | required (name : String)
  deriving DecidableEq, Repr

namespace UsageError

/-- The wording of a usage failure. -/
def message : UsageError → String
  | unknown argument => s!"unknown option {argument}"
  | unexpected argument => s!"unexpected argument {argument}"
  | missingValue name => s!"{name} needs a value"
  | unexpectedValue name => s!"{name} takes no value"
  | emptyValue name => s!"{name} needs a value that is not empty"
  | repeated name => s!"{name} is given more than once"
  | notANumber name value => s!"{name} needs a number, not {value}"
  | required name => s!"{name} is required"

end UsageError

namespace ValueOption

/-- The spelling of an option. -/
def name : ValueOption → String
  | input => "--input"
  | classPath => "--classpath"
  | bootClassPath => "--boot-classpath"
  | output => "--output"
  | targetClass => "--target-class"
  | targetMethod => "--target-method"
  | maxFixedArity => "--max-fixed-arity"

def all : List ValueOption :=
  [input, classPath, bootClassPath, output, targetClass, targetMethod, maxFixedArity]

/-- The option with the given spelling. -/
def ofName? (text : String) : Option ValueOption := all.find? fun o => o.name == text

/-- Whether the option may be given more than once. -/
def isRepeatable : ValueOption → Bool
  | input | classPath | bootClassPath => true
  | _ => false

/-- Whether the value is a path. -/
def isPath : ValueOption → Bool
  | input | classPath | bootClassPath | output => true
  | _ => false

end ValueOption

namespace Flag

/-- The spelling of a flag. -/
def name : Flag → String
  | verbose => "--verbose"
  | help => "--help"
  | version => "--version"

/-- The flag with the given spelling. -/
def ofName? (text : String) : Option Flag := [verbose, help, version].find? fun f => f.name == text

/-- The flag with the given letter. -/
def ofLetter? : Char → Option Flag
  | 'v' => some verbose
  | 'h' => some help
  | 'V' => some version
  | _ => none

end Flag

/-- What a run of the command works on. -/
structure Options where
  inputs : List String
  classPath : List String
  bootClassPath : List String
  output : String
  settings : Settings
  verbose : Bool
  deriving DecidableEq, Repr

/-- What the arguments ask for. -/
inductive Request where
  | run (options : Options)
  | help
  | version
  deriving DecidableEq, Repr

namespace Options

/-- The options given so far. -/
structure Given where
  /-- Options with their values, the last one first. -/
  values : List (ValueOption × String) := []
  verbose : Bool := false
  /-- An option that still waits for its value, or whose value has not been looked at. -/
  pending : Option (ValueOption × Option String) := none

/-- The largest number of 64 bits. -/
def largestNumber : Nat := 18446744073709551615

/-- A number of at most 64 bits with an optional plus sign. -/
def number? (text : String) : Option Nat :=
  let digits := match text.toList with
    | '+' :: rest => rest
    | cs => cs
  if digits.isEmpty || !digits.all Char.isDigit then none
  else
    let n := digits.foldl (fun n c => 10 * n + (c.toNat - '0'.toNat)) 0
    if n ≤ largestNumber then some n else none

namespace Given

/-- The values of an option in the order in which they were given. -/
def valuesOf (g : Given) (o : ValueOption) : List String :=
  (g.values.filter fun p => p.1 = o).reverse.map Prod.snd

/-- Look at the value of an option, and keep it. -/
def accept (g : Given) (o : ValueOption) (value : String) : Except UsageError Given :=
  if !o.isRepeatable && !(g.valuesOf o).isEmpty then .error (.repeated o.name)
  else if o.isPath && value.isEmpty then .error (.emptyValue o.name)
  else if o = .maxFixedArity ∧ number? value = none then .error (.notANumber o.name value)
  else .ok { g with values := (o, value) :: g.values }

/-- Look at the value that has not been looked at. -/
def settle (g : Given) : Except UsageError Given :=
  match g.pending with
  | none => .ok g
  | some (o, none) => .error (.missingValue o.name)
  | some (o, some value) => { g with pending := none }.accept o value

/-- The request once all arguments are read. -/
def finish (g : Given) : Except UsageError Request := do
  let g ← g.settle
  let inputs := g.valuesOf .input
  if inputs.isEmpty then throw (.required ValueOption.input.name)
  let some output := (g.valuesOf .output).head? | throw (.required ValueOption.output.name)
  let standard : Settings := {}
  return .run {
    inputs := inputs
    classPath := g.valuesOf .classPath
    bootClassPath := g.valuesOf .bootClassPath
    output := output
    settings := {
      targetClass := (g.valuesOf .targetClass).headD standard.targetClass
      targetMethod := (g.valuesOf .targetMethod).headD standard.targetMethod
      maxFixedArity :=
        ((g.valuesOf .maxFixedArity).head?.bind number?).getD standard.maxFixedArity }
    verbose := g.verbose }

/-- Take in a flag: either there is more to read, or the request is settled. -/
def flag (g : Given) (f : Flag) : Except UsageError (Given ⊕ Request) := do
  let g ← g.settle
  match f with
  | .help => return .inr .help
  | .version => return .inr .version
  | .verbose =>
    if g.verbose then throw (.repeated f.name)
    return .inl { g with verbose := true }

/-- Take in flags that are given as letters behind one dash. -/
def letters (argument : String) : Given → List Char → Except UsageError (Given ⊕ Request)
  | g, [] => .ok (.inl g)
  | g, c :: cs =>
    match Flag.ofLetter? c with
    | none => .error (.unknown argument)
    | some f => do
      match ← g.flag f with
      | .inl g => letters argument g cs
      | .inr request => return .inr request

/-- Take in an option with two dashes, and the value behind its equals sign if it has one. -/
def long (g : Given) (name : String) (value : Option String) :
    Except UsageError (Given ⊕ Request) :=
  match ValueOption.ofName? name with
  | some o => do
    let g ← g.settle
    match value with
    | some value => return .inl (← g.accept o value)
    | none => return .inl { g with pending := some (o, none) }
  | none =>
    match Flag.ofName? name with
    | some f => if value.isSome then .error (.unexpectedValue name) else g.flag f
    | none => .error (.unknown name)

/-- Take in an argument that is no option: it has to be the value of the option before it. -/
def plain (g : Given) (argument : String) : Except UsageError (Given ⊕ Request) :=
  match g.pending with
  | some (o, none) => .ok (.inl { g with pending := some (o, some argument) })
  | _ => .error (.unexpected argument)

/-- Take in one argument. -/
def argument (g : Given) (text : String) : Except UsageError (Given ⊕ Request) :=
  match text.toList with
  | '-' :: '-' :: cs =>
    let name := "--" ++ String.ofList (cs.takeWhile (· ≠ '='))
    match cs.dropWhile (· ≠ '=') with
    | _ :: value => g.long name (some (String.ofList value))
    | [] => g.long name none
  | '-' :: c :: cs => letters text g (c :: cs)
  | _ => g.plain text

/-- Take in arguments to the end. Behind a bare double dash nothing may follow. -/
def arguments : Given → List String → Except UsageError Request
  | g, [] => g.finish
  | g, ["--"] => g.finish
  | g, text :: rest => do
    if text = "--" then throw (.unexpected (rest.headD ""))
    match ← g.argument text with
    | .inl g => arguments g rest
    | .inr request => return request

end Given

/-- What the arguments ask for. -/
def parse (arguments : List String) : Except UsageError Request :=
  Given.arguments {} arguments

end Options

end Retrofit
