/-
Files.

Commands read and write whole files and do not care where these are kept.  A file store
is any monad with the two operations.  One such store is a `FileTree`, which lives in
memory and answers by the rules of a file system: what is not there cannot be read, a
directory is neither read nor written, and a file is only created in a directory that
exists.  The tree knows the files below the working directory; outside it knows that the
root and the directories above the working directory exist, and no more.
-/
import RegisterMachine.Text.Split

namespace RegisterMachine

/-- Why a file cannot be read or written. -/
inductive FileError where
  /-- A component of the path does not exist. -/
  | notFound
  | isDirectory
  /-- A component that is used as a directory is a file. -/
  | notDirectory
  | nameTooLong
  | nullInPath
  /-- The file does not hold text in UTF-8. -/
  | invalidText
  /-- Any other reason, in the words of the system. -/
  | other (message : String)
  deriving DecidableEq

namespace FileError

def message : FileError → String
  | notFound => "No such file or directory (os error 2)"
  | isDirectory => "Is a directory (os error 21)"
  | notDirectory => "Not a directory (os error 20)"
  | nameTooLong => "File name too long (os error 36)"
  | nullInPath => "file name contained an unexpected NUL byte"
  | invalidText => "stream did not contain valid UTF-8"
  | other message => message

end FileError

/-- Reads and writes of whole files. -/
class FileStore (m : Type → Type) where
  /-- The contents of a file. -/
  read : String → m (Except FileError (List UInt8))
  /-- Replaces the contents of a file, which is created if it does not exist. -/
  write : String → List UInt8 → m (Except FileError Unit)

/-- The longest name of a file in bytes. -/
def maxName : Nat := 255

def maxPath : Nat := 4095

/-- What no path may be, whatever files there are. -/
def checkPath (path : String) : Except FileError Unit :=
  if path.toList.contains '\x00' then .error .nullInPath
  else if maxPath < path.utf8ByteSize then .error .nameTooLong
  else if path.isEmpty then .error .notFound
  else .ok ()

namespace FileStore

def textBytes (text : String) : List UInt8 :=
  text.toUTF8.data.toList

/-- The text that bytes in UTF-8 hold. -/
def text? (bytes : List UInt8) : Option String :=
  String.fromUTF8? ⟨bytes.toArray⟩

/-- Reads a file that holds text. -/
def readText {m : Type → Type} [Monad m] [FileStore m] (path : String) :
    m (Except FileError String) := do
  match ← FileStore.read path with
  | .error e => return .error e
  | .ok bytes =>
    match text? bytes with
    | some text => return .ok text
    | none => return .error .invalidText

end FileStore

inductive Origin where
  | root
  /-- The directory that lies so many levels above the working directory, which itself is
  at level zero. -/
  | above (levels : Nat)
  deriving DecidableEq

/-- A place in the file system: the names that lead to it from an origin.  A directory above
the working directory has no name here, so nothing leads down from it to the working
directory, and the root is its own place however many levels there are. -/
structure Place where
  origin : Origin
  names : List String
  deriving DecidableEq

namespace Place

/-- The place of a file below the working directory. -/
def inside (names : List String) : Place :=
  ⟨.above 0, names⟩

/-- The names that lead from the working directory to a place below it. -/
def inside? : Place → Option (List String)
  | ⟨.above 0, names⟩ => some names
  | _ => none

/-- A place below the working directory is told by its names. -/
@[simp] theorem inside?_inside (names : List String) : (inside names).inside? = some names :=
  rfl

/-- The place of a name in a directory. -/
def child (place : Place) (name : String) : Place :=
  { place with names := place.names ++ [name] }

/-- The directory that holds a place.  The root holds itself. -/
def parent : Place → Place
  | ⟨.root, []⟩ => ⟨.root, []⟩
  | ⟨.above levels, []⟩ => ⟨.above (levels + 1), []⟩
  | ⟨origin, names⟩ => ⟨origin, names.dropLast⟩

/-- The parent of a name's place is the directory that holds it. -/
@[simp] theorem parent_child (place : Place) (name : String) :
    (place.child name).parent = place := by
  obtain ⟨origin, names⟩ := place
  cases names <;> cases origin <;> simp [child, parent, List.dropLast_cons_of_ne_nil]

/-- Whether a place lies below another one. -/
def isBelow (place dir : Place) : Bool :=
  place.origin = dir.origin && dir.names.isPrefixOf place.names &&
    dir.names.length < place.names.length

/-- The components of a path, which slashes separate. -/
def components (path : String) : List String :=
  (Text.splitWhere (· == '/') path.toList).map String.ofList

/-- The place where a path starts: the root if a slash comes first, otherwise the working
directory. -/
def start (path : String) : Place :=
  if path.toList.head? = some '/' then ⟨.root, []⟩ else ⟨.above 0, []⟩

/-- The components on the way to the directory that is to hold the file, for a path that ends
in a slash behind a name.  The empty component behind them asks for a directory. -/
def wayToSlashedName? (path : String) : Option (List String) :=
  match (components path).reverse with
  | "" :: rest =>
    match rest.dropWhile (· = "") with
    | [] => none
    | name :: way => if name = "." ∨ name = ".." then none else some (way.reverse ++ [""])
  | _ => none

end Place

/-- The files of a file system, as far as they are known.  An origin is a directory, and so is
every place that a file lies below. -/
structure FileTree where
  /-- The files with their contents; a place occurs once. -/
  files : List (Place × List UInt8)
  deriving DecidableEq

namespace FileTree

/-- What a path leads to. -/
inductive Node where
  | directory (place : Place)
  | file (place : Place) (bytes : List UInt8)
  /-- Nothing, in a directory that exists. -/
  | absent (place : Place)
  deriving DecidableEq

/-- The tree that holds the given files below the working directory. -/
def ofContents (contents : List (String × List UInt8)) : FileTree :=
  ⟨contents.map fun (path, bytes) => (Place.inside (Place.components path), bytes)⟩

/-- The files below the working directory that are new or differ from what they were. -/
def changedSince (after before : FileTree) : List (String × List UInt8) :=
  after.files.filterMap fun (place, bytes) =>
    if before.files.lookup place = some bytes then none
    else place.inside?.map fun names => ("/".intercalate names, bytes)

/-- Whether there is a directory at this place. -/
def hasDirectory (tree : FileTree) (place : Place) : Bool :=
  place.names.isEmpty || tree.files.any fun f => f.1.isBelow place

def node (tree : FileTree) (place : Place) : Node :=
  match tree.files.lookup place with
  | some bytes => .file place bytes
  | none => if tree.hasDirectory place then .directory place else .absent place

/-- Goes on from a node by one component, which only a directory allows.  The parent of a
directory is there without a look at the files. -/
def descend (tree : FileTree) (name : String) : Node → Except FileError Node
  | .file .. => .error .notDirectory
  | .absent _ => .error .notFound
  | .directory place =>
    if name = "" ∨ name = "." then .ok (.directory place)
    else if name = ".." then .ok (.directory place.parent)
    else if maxName < name.utf8ByteSize then .error .nameTooLong
    else .ok (tree.node (place.child name))

/-- Follows components from a directory. -/
def follow (tree : FileTree) (place : Place) (names : List String) : Except FileError Node :=
  names.foldlM (fun node name => tree.descend name node) (.directory place)

/-- What a path leads to. -/
def locate (tree : FileTree) (path : String) : Except FileError Node := do
  checkPath path
  tree.follow (Place.start path) (Place.components path)

/-- The contents of a file. -/
def read (tree : FileTree) (path : String) : Except FileError (List UInt8) := do
  match ← tree.locate path with
  | .file _ bytes => return bytes
  | .directory _ => .error .isDirectory
  | .absent _ => .error .notFound

/-- Puts a file in its place, or adds it behind the others. -/
def put (tree : FileTree) (place : Place) (bytes : List UInt8) : FileTree :=
  match tree.files.lookup place with
  | some _ => ⟨tree.files.map fun f => if f.1 = place then (place, bytes) else f⟩
  | none => ⟨tree.files ++ [(place, bytes)]⟩

/-- Replaces the contents of a file.  A path that ends in a slash behind a name can only be
meant for a directory, so it is refused once the way to that name is clear; the name itself is
not looked up. -/
def write (tree : FileTree) (path : String) (bytes : List UInt8) : Except FileError FileTree := do
  checkPath path
  match Place.wayToSlashedName? path with
  | some way =>
    let _ ← tree.follow (Place.start path) way
    .error .isDirectory
  | none =>
    match ← tree.locate path with
    | .file place _ | .absent place => return tree.put place bytes
    | .directory _ => .error .isDirectory

instance : FileStore (StateM FileTree) where
  read path := do return (← get).read path
  write path bytes := do
    match (← get).write path bytes with
    | .ok tree => set tree; return .ok ()
    | .error e => return .error e

end FileTree

end RegisterMachine
