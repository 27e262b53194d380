/-
Names of files.

The name of a file is the last component of its path; slashes behind it and components
that are a single dot do not count.  A name is cut at its last dot into stem and
extension, unless nothing stands before that dot: a name such as `.profile` is all stem.
Replacing the extension first drops it from the path and then puts the new one behind the
stem of the name that is left.
-/
import RegisterMachine.Text.Split

namespace RegisterMachine.Path

/-- A path read backwards, without the slashes and single dots that it ends in. -/
def dropTrail : List Char → List Char
  | '/' :: rest => dropTrail rest
  | '.' :: '/' :: rest => dropTrail ('/' :: rest)
  | rest => rest

/-- What stands before the name of the file, and the name.  A path that ends in a dot or two
names no file. -/
def splitName? (path : List Char) : Option (List Char × List Char) :=
  let backwards := dropTrail path.reverse
  let name := (backwards.takeWhile (· != '/')).reverse
  if name = [] ∨ name = ['.'] ∨ name = ['.', '.'] then none
  else some ((backwards.dropWhile (· != '/')).reverse, name)

/-- The stem of a name and its extension. -/
def splitExtension (name : List Char) : List Char × Option (List Char) :=
  match Text.cutWhere? (· == '.') name.reverse with
  | some (extension, stem) =>
    if stem.isEmpty then (name, none) else (stem.reverse, some extension.reverse)
  | none => (name, none)

/-- The extension of the file that a path names. -/
def extension? (path : List Char) : Option (List Char) :=
  (splitName? path).bind fun (_, name) => (splitExtension name).2

/-- The path with its extension dropped; the dot before it stays. -/
def dropExtension (path : List Char) : List Char :=
  match extension? path with
  | some extension => path.take (path.length - extension.length)
  | none => path

/-- The path with another extension.  A path that names no file is left as it is. -/
def withExtension (path : String) (extension : String) : String :=
  let front := dropExtension path.toList
  match splitName? front with
  | some (dir, name) =>
    String.ofList (dir ++ (splitExtension name).1 ++ '.' :: extension.toList)
  | none => String.ofList front

/-- Whether the path has the given extension, in whatever case its letters are. -/
def hasExtension (path : String) (extension : String) : Bool :=
  (extension? path.toList).any fun e => Text.sameIgnoringCase e extension.toList

end RegisterMachine.Path
