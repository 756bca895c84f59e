import Retrofit.Event

/-!
# Substitutions

Every call site of a class is replaced where a recipe covers it. The last site goes first, so that
the positions of the sites still to come stay good.
-/

namespace Retrofit

/-- A call that was replaced. -/
structure Substitution where
  method : String
  line : Option UInt16
  /-- The offset of the call in the loaded code. -/
  offset : Nat
  recipe : Recipe
  argCount : UInt16
  deriving DecidableEq, Repr

namespace Substitution

/-- The record of a replaced call. -/
def ofSite (site : CallSite) (r : Replacement) : Substitution :=
  ⟨site.methodName, site.line, site.offset, r.recipe, r.argCount⟩

end Substitution

/-- A class after an attempt to replace its calls, with what became of the attempt and what there is
to tell. -/
structure Attempt where
  unit : ClassUnit
  outcome : Except Failure (List Substitution)
  events : List Event

/-- What a finding has to tell. -/
def Finding.event? : Finding → Option Event
  | site _ => none
  | undeclared member => some (.undeclared member)
  | badDescriptor member => some (.badDescriptor member)

namespace ClassUnit

/-- Replace the calls at the given sites in the given order; `done` are the records so far, and
`told` the events, the last one first. -/
def substituteSites (maxFixedArity : Nat) (u : ClassUnit) (done : List Substitution)
    (told : List Event) : List CallSite → Attempt
  | [] => ⟨u, .ok done, told.reverse⟩
  | site :: rest =>
    match site.replacement maxFixedArity with
    | .error e =>
      u.substituteSites maxFixedArity done (.leftAlone u.dottedName site.line e :: told) rest
    | .ok r =>
      let told := .replacing u.dottedName site.line r :: told
      match u.patch site r with
      | (u, .error e) => ⟨u, .error (.ofPatch u site e), told.reverse⟩
      | (u, .ok ()) =>
        let told := .replaced u.dottedName site.line site.owner site.name :: told
        u.substituteSites maxFixedArity (.ofSite site r :: done) told rest

/-- Replace every call of the target that a recipe covers. The records are in the order of the
sites. -/
def substitute (u : ClassUnit) (target : Target) (maxFixedArity : Nat) : Attempt :=
  let findings := target.scan u
  let attempt := u.substituteSites maxFixedArity [] [] (Target.sites findings).reverse
  { attempt with events := findings.filterMap Finding.event? ++ attempt.events }

end ClassUnit

end Retrofit
