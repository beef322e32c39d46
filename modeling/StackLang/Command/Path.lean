/-!
# Paths

The parts of a path that commands look at.  The steps of a path are divided by slashes; empty steps
and single points do not count.  The extension of a file name is what follows its last point, unless
nothing precedes that point.
-/

namespace StackLang.Path

/-- The parts of a list between the given separator. -/
def splitAt (separator : Char) : List Char → List (List Char)
  | [] => [[]]
  | c :: rest =>
    if c = separator then [] :: splitAt separator rest
    else
      match splitAt separator rest with
      | [] => [[c]]
      | part :: parts => (c :: part) :: parts

/-- The steps of a path. -/
def steps (path : String) : List String :=
  ((splitAt '/' path.toList).map String.ofList).filter fun s => s ≠ "" ∧ s ≠ "."

/-- The last step, unless it leads upward. -/
def fileName? (path : String) : Option String :=
  (steps path).getLast?.bind fun s => if s = ".." then none else some s

/-- The part of a text before the last point, and the part behind it. -/
def splitLastPoint? (cs : List Char) : Option (List Char × List Char) :=
  match cs.reverse.dropWhile (· ≠ '.') with
  | [] => none
  | _ :: front => some (front.reverse, (cs.reverse.takeWhile (· ≠ '.')).reverse)

/-- The extension of the file name. -/
def extension? (path : String) : Option String := do
  let name ← fileName? path
  let (front, back) ← splitLastPoint? name.toList
  if front.isEmpty then none else some (String.ofList back)

/-- The path with another extension in place of the one it has. -/
def replaceExtension (path ext : String) : String :=
  match splitLastPoint? path.toList with
  | some (front, _) => String.ofList front ++ "." ++ ext
  | none => path ++ "." ++ ext

/-- The directory of a path, empty if it names none. -/
def directory (path : String) : String :=
  String.ofList ((path.toList.reverse.dropWhile (· ≠ '/')).drop 1).reverse

end StackLang.Path
