import Retrofit.CallSite

/-!
# Recipes

A factory call is replaced by a sequence of steps on the operand stack. A recipe gives the sequence
for any number of arguments; which recipe fits a call follows from the call's type alone.
-/

namespace Retrofit

/-- A method that a recipe calls. -/
structure Callee where
  kind : CallKind
  owner : String
  name : String
  descriptor : String
  deriving DecidableEq, Repr

/-- One step of a replacement. Arguments are numbered from 1 in call order. -/
inductive Step where
  | new (type : String)
  | dup
  | pop
  | push (value : Int32)
  | invoke (callee : Callee)
  /-- Pop the top of the stack into the place of an argument. -/
  | store (argument : UInt16)
  /-- Push an argument. -/
  | load (argument : UInt16)
  deriving DecidableEq, Repr

namespace Step

/-- The text of a step. -/
def listing : Step → String
  | new type => s!"new {type}"
  | dup => "dup"
  | pop => "pop"
  | push value => s!"push {value}"
  | invoke c => s!"{c.kind.name} {c.owner}.{c.name}{c.descriptor}"
  | store argument => s!"store ${argument}"
  | load argument => s!"load ${argument}"

end Step

/-- The recipes, by the calls they serve. -/
inductive Recipe where
  /-- Arguments one by one. -/
  | fixedArity
  | zeroArity
  /-- One array of arguments. -/
  | variableArity
  deriving DecidableEq, Repr

/-- The steps that replace one call. -/
structure Replacement where
  recipe : Recipe
  /-- Operand stack slots that the call consumed. -/
  argCount : UInt16
  steps : List Step
  deriving DecidableEq, Repr

namespace Recipe

def name : Recipe → String
  | fixedArity => "fixed-arity"
  | zeroArity => "zero-arity"
  | variableArity => "variable-arity"

/-! ### The library methods used -/

def arrayList : String := "java/util/ArrayList"

def initEmpty : Callee := ⟨.special, arrayList, "<init>", "()V"⟩

def initSized : Callee := ⟨.special, arrayList, "<init>", "(I)V"⟩

def add : Callee := ⟨.virtual, arrayList, "add", "(Ljava/lang/Object;)Z"⟩

def addAll : Callee := ⟨.virtual, arrayList, "addAll", "(Ljava/util/Collection;)Z"⟩

def asList : Callee :=
  ⟨.static, "java/util/Arrays", "asList", "([Ljava/lang/Object;)Ljava/util/List;"⟩

def emptyList : Callee := ⟨.static, "java/util/Collections", "emptyList", "()Ljava/util/List;"⟩

def unmodifiableList : Callee :=
  ⟨.static, "java/util/Collections", "unmodifiableList", "(Ljava/util/List;)Ljava/util/List;"⟩

/-! ### The steps -/

/-- The numbers of the first `n` arguments. -/
def arguments (n : UInt16) : List UInt16 := (List.range n.toNat).map fun i => UInt16.ofNat (i + 1)

/-- Append one argument to the list on top of the stack. -/
def addStep (argument : UInt16) : List Step := [.dup, .load argument, .invoke add, .pop]

/-- The steps for a call with `n` arguments. They arrive with the last one on top. -/
def steps (n : UInt16) : Recipe → List Step
  | fixedArity =>
    (arguments n).reverse.map .store ++
      ([.new arrayList, .dup, .push (Int32.ofInt n.toNat), .invoke initSized] ++
        ((arguments n).flatMap addStep ++ [.invoke unmodifiableList]))
  | zeroArity => [.invoke emptyList]
  | variableArity =>
    [.store 1, .new arrayList, .dup, .invoke initEmpty, .dup, .load 1, .invoke asList,
      .invoke addAll, .pop, .invoke unmodifiableList]

/-- The replacement for a call with `n` arguments. -/
def materialize (r : Recipe) (n : UInt16) : Replacement := ⟨r, n, r.steps n⟩

end Recipe

/-! ### Stack use -/

/-- Operand stack use of a replacement, in slots. -/
structure StackProfile where
  peak : UInt16
  last : UInt16
  deriving DecidableEq, Repr

/-- Why a replacement cannot stand for a call. -/
inductive StackError where
  | badDescriptor (step : Step)
  | underflow (step : Step)
  /-- The call left one value, the steps leave `depth`. -/
  | leaves (depth : Nat)
  deriving DecidableEq, Repr

namespace StackError

/-- The wording of a stack failure. -/
def message : StackError → String
  | badDescriptor step => "bad descriptor in `" ++ step.listing ++ "`"
  | underflow step => "`" ++ step.listing ++ "` underflows the operand stack"
  | leaves depth => s!"sequence leaves {depth} values instead of 1"

end StackError

namespace Step

/-- How many slots a step takes off the stack and puts back on it. -/
def effect (s : Step) : Except StackError (Nat × Nat) :=
  match s with
  | new _ | push _ | load _ => .ok (0, 1)
  | dup => .ok (1, 2)
  | pop | store _ => .ok (1, 0)
  | invoke c =>
    match MethodType.parse? c.descriptor with
    | none => .error (.badDescriptor s)
    | some t =>
      .ok (t.paramSlots + (if c.kind = .static then 0 else 1), t.returns.slotSize)

end Step

namespace Replacement

/-- The type that the last step leaves, if it is a call. -/
def resultType? (r : Replacement) : Option FieldType :=
  match r.steps.getLast? with
  | some (.invoke c) => (MethodType.parse? c.descriptor).map MethodType.returns
  | _ => none

/-- Local slots needed for stored arguments. -/
def argSlots (r : Replacement) : UInt16 :=
  r.steps.foldl (fun m s => match s with
    | .store n | .load n => max m n
    | _ => m) 0

/-- Run the steps' effects from the given depth: the highest depth and the last one. -/
def walk : List Step → Nat → Nat → Except StackError (Nat × Nat)
  | [], peak, depth => .ok (peak, depth)
  | s :: ss, peak, depth =>
    match s.effect with
    | .error e => .error e
    | .ok (pops, pushes) =>
      if depth < pops then .error (.underflow s)
      else walk ss (max peak (depth - pops + pushes)) (depth - pops + pushes)

/-- The stack use of the steps when they start with the call's arguments on the stack. It fails if
a step reaches below them, or if not exactly one slot is left. -/
def stackProfile (r : Replacement) : Except StackError StackProfile :=
  match walk r.steps r.argCount.toNat r.argCount.toNat with
  | .error e => .error e
  | .ok (peak, depth) =>
    if depth = 1 then .ok ⟨UInt16.ofNat peak, UInt16.ofNat depth⟩ else .error (.leaves depth)

/-- The text of a replacement. -/
def listing (r : Replacement) : String :=
  s!"[{r.recipe.name}/{r.argCount}]" ++
    String.join (r.steps.map fun s => " " ++ s.listing ++ ";")

end Replacement

/-! ### Choosing -/

/-- Why a call has a shape that no recipe covers. -/
inductive Unsupported where
  | notStatic (kind : CallKind)
  | returnType (type : FieldType)
  | parameter (number : Nat) (type : FieldType)
  | tooManyParameters (count limit : Nat)
  | resultMismatch (type : FieldType) (recipe : Recipe)
  deriving DecidableEq, Repr

namespace Unsupported

/-- The wording of a refusal. -/
def message : Unsupported → String
  | notStatic kind => s!"{kind.name} call shape is not a static factory call"
  | returnType type => s!"returns {type.sourceName}, not a reference"
  | parameter number type => s!"parameter {number} is {type.sourceName}"
  | tooManyParameters count limit =>
    s!"{count} parameters exceed the fixed-arity limit of {limit}"
  | resultMismatch type recipe =>
    s!"call returns {type.sourceName} but the {recipe.name} replacement does not"

end Unsupported

/-- The recipe for a call of the given type. A single array of plain objects is the variable-arity
overload; any other single parameter is one element. -/
def Recipe.select (t : MethodType) (maxFixedArity : Nat) : Except Unsupported Recipe :=
  if !t.returns.isReference then .error (.returnType t.returns)
  else
    match t.params.zipIdx.find? fun (p, _) => !p.isReference with
    | some (p, i) => .error (.parameter (i + 1) p)
    | none =>
      match t.params with
      | [] => .ok .zeroArity
      | [p] =>
        if p.isObjectArray then .ok .variableArity
        else if 1 ≤ maxFixedArity then .ok .fixedArity
        else .error (.tooManyParameters 1 maxFixedArity)
      | params =>
        if params.length ≤ maxFixedArity then .ok .fixedArity
        else .error (.tooManyParameters params.length maxFixedArity)

/-- The replacement for a call of the given kind and type. -/
def Replacement.forCall (kind : CallKind) (t : MethodType) (maxFixedArity : Nat) :
    Except Unsupported Replacement :=
  if kind ≠ .static then .error (.notStatic kind)
  else
    match Recipe.select t maxFixedArity with
    | .error e => .error e
    | .ok recipe =>
      let r := recipe.materialize (UInt16.ofNat t.params.length)
      if r.resultType? = some t.returns then .ok r
      else .error (.resultMismatch t.returns recipe)

/-- The replacement for a call site. -/
def CallSite.replacement (s : CallSite) (maxFixedArity : Nat) : Except Unsupported Replacement :=
  Replacement.forCall s.kind s.type maxFixedArity

end Retrofit
