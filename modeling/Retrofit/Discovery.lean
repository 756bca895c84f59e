import Retrofit.Failure

/-!
# Discovery

The classes of a directory: every file in it or below whose extension is `class` stands for the
class that its path spells.
-/

namespace Retrofit.Discovery

/-- The dotted name of the class that a file stands for, given the names on the way to the file. A
file name that is a dot but for its extension gets a second dot, as one dot names nothing. -/
def className? (file : Place) : Option String := do
  let name ← file.getLast?
  let (stem, extension) := Path.splitExtension name.toList
  if extension = some "class".toList then
    let stem := if stem = ['.'] then ".." else String.ofList stem
    return ClassName.dotted ("/".intercalate (file.dropLast ++ [stem]))
  else none

/-- The names of the classes in and below a directory, in order. -/
def classes (s : Store) (directory : String) : Except Failure (List String) :=
  match s.locate directory with
  | .error e => .error (.pathUnavailable directory (.access e))
  | .ok place =>
    match s.item? place with
    | some .directory =>
      .ok (((s.filesBelow place).filterMap className?).mergeSort fun a b => decide (a ≤ b))
    | _ => .ok []

end Retrofit.Discovery
