import Retrofit.ClassName

/-!
# Paths

A path is text with slashes between its pieces; a path that starts with a slash is absolute. The
file of a class lies in one directory for each package of its name.
-/

namespace Retrofit.Path

/-! ### Pieces -/

/-- The pieces between the slashes. There is one more of them than slashes. -/
def split : List Char → List (List Char)
  | [] => [[]]
  | c :: cs =>
    if c = '/' then [] :: split cs
    else
      match split cs with
      | [] => [[c]]
      | p :: ps => (c :: p) :: ps

/-- The text with slashes between the given pieces. -/
def join : List (List Char) → List Char
  | [] => []
  | [p] => p
  | p :: q :: ps => p ++ '/' :: join (q :: ps)

theorem split_ne_nil (cs : List Char) : split cs ≠ [] := by
  cases cs with
  | nil => simp [split]
  | cons c cs =>
    simp only [split]
    split
    · simp
    · split <;> simp

/-- Nothing is lost between the slashes. -/
theorem join_split (cs : List Char) : join (split cs) = cs := by
  induction cs with
  | nil => rfl
  | cons c cs ih =>
    simp only [split]
    cases hs : split cs with
    | nil => exact absurd hs (split_ne_nil cs)
    | cons p ps =>
      rw [hs] at ih
      split
      · rename_i hc
        simp [join, ih, hc]
      · cases ps <;> simp_all [join]

/-- No piece holds a slash. -/
theorem not_mem_of_mem_split {cs p : List Char} (h : p ∈ split cs) : '/' ∉ p := by
  induction cs generalizing p with
  | nil => simp_all [split]
  | cons c cs ih =>
    simp only [split] at h
    cases hs : split cs with
    | nil => exact absurd hs (split_ne_nil cs)
    | cons q qs =>
      rw [hs] at h ih
      split at h
      · rcases List.mem_cons.1 h with rfl | h
        · simp
        · exact ih h
      · rename_i hc
        rcases List.mem_cons.1 h with rfl | h
        · simpa [Ne.symm hc] using ih (List.mem_cons_self ..)
        · exact ih (List.mem_cons_of_mem _ h)

/-- Whether the path starts at the root. -/
def isAbsolute (path : List Char) : Bool := path.head? == some '/'

/-- Put a piece, or a path, behind a path that is kept back to front. An absolute path takes the
place of what was there. -/
def pushOnto (back piece : List Char) : List Char :=
  let front :=
    if isAbsolute piece then []
    else if back = [] ∨ back.head? = some '/' then back
    else '/' :: back
  piece.reverse ++ front

/-- The path with pieces put behind it one after the other. -/
def pushAll (path : List Char) (pieces : List (List Char)) : List Char :=
  (pieces.foldl pushOnto path.reverse).reverse

/-! ### Last pieces -/

/-- The pieces, the last one first, from the last one on that names something: empty pieces and
single dots at the end are left out. -/
def trimmed : List (List Char) → List (List Char)
  | p :: q :: ps => if p = [] ∨ p = ['.'] then trimmed (q :: ps) else p :: q :: ps
  | ps => ps

/-- The last piece, if it names a file or directory below the one before it, and the pieces in
front of it, the last one first. -/
def name? (path : List Char) : Option (List Char × List (List Char)) :=
  match trimmed (split path).reverse with
  | p :: ps => if p = [] ∨ p = ['.'] ∨ p = ['.', '.'] then none else some (p, ps)
  | [] => none

/-- A file name without its extension, and the extension. A dot in front makes no extension. -/
def splitExtension (name : List Char) : List Char × Option (List Char) :=
  match name.reverse.dropWhile (· ≠ '.') with
  | _ :: c :: before =>
    if name = ['.', '.'] then (name, none)
    else ((c :: before).reverse, some (name.reverse.takeWhile (· ≠ '.')).reverse)
  | _ => (name, none)

/-- The path with another extension on its last piece. -/
def withExtension (path extension : List Char) : List Char :=
  match name? path with
  | some (p, ps) => join (((splitExtension p).1 ++ '.' :: extension) :: ps).reverse
  | none => path

/-! ### Class files -/

/-- The file of a class below a root. -/
def ofClass (root className : String) : String :=
  let pieces := split (ClassName.internal className).toList
  String.ofList (withExtension (pushAll root.toList pieces) "class".toList)

/-- The path of an entry below a directory. -/
def below (directory entry : String) : String :=
  String.ofList (pushAll directory.toList [entry.toList])

end Retrofit.Path
