/-
Images and label tables in files.

An image file holds the bytes of the image, or their hexadecimal text if the caller says
so or the file's extension is `hex`.  What the assembler has made is written in the same
two forms, so that reading it with the same choice gives the image back.
-/
import RegisterMachine.Assembly.Program
import RegisterMachine.CommandLine.FileStore
import RegisterMachine.CommandLine.Path
import RegisterMachine.HexText

namespace RegisterMachine

/-- The extension of files that hold an image as hexadecimal text. -/
def hexExtension : String := "hex"

/-- The extension of files that hold an image as it is. -/
def binExtension : String := "bin"

/-- Why a file does not give what it is read for. -/
inductive LoadError where
  | unreadable (path : String) (cause : FileError)
  /-- The file is not a hexadecimal text. -/
  | hex (path : String) (cause : HexError)
  /-- The file is not a label table. -/
  | labels (path : String) (cause : LabelError)
  deriving DecidableEq

namespace LoadError

def message : LoadError → String
  | unreadable path cause => "cannot read `" ++ path ++ "`: " ++ cause.message
  | hex path cause => "`" ++ path ++ "`: " ++ cause.message
  | labels path cause => "`" ++ path ++ "`: " ++ cause.message

end LoadError

section

variable {m : Type → Type} [Monad m] [FileStore m]

def loadText (path : String) : m (Except LoadError String) := do
  match ← FileStore.readText path with
  | .ok text => return .ok text
  | .error e => return .error (.unreadable path e)

/-- Whether a path names an image in hexadecimal text. -/
def isHexPath (path : String) : Bool :=
  Path.hasExtension path hexExtension

/-- Reads an image, as hexadecimal text if `hex` is set or the path says so. -/
def loadImage (path : String) (hex : Bool) : m (Except LoadError (List UInt8)) := do
  if hex || isHexPath path then
    match ← loadText path with
    | .error e => return .error e
    | .ok text =>
      match HexText.parse text with
      | .ok bytes => return .ok bytes
      | .error e => return .error (.hex path e)
  else
    match ← FileStore.read path with
    | .ok bytes => return .ok bytes
    | .error e => return .error (.unreadable path e)

def loadLabels (path : String) : m (Except LoadError LabelTable) := do
  match ← loadText path with
  | .error e => return .error e
  | .ok text =>
    match LabelTable.parse text with
    | .ok table => return .ok table
    | .error e => return .error (.labels path e)

/-- The path for the image of a source: that of the source with another extension. -/
def defaultOutput (source : String) (hex : Bool) : String :=
  Path.withExtension source (if hex then hexExtension else binExtension)

/-- The contents of a file that holds an image. -/
def imageFile (hex : Bool) (image : List UInt8) : List UInt8 :=
  if hex then FileStore.textBytes (HexText.format image) else image

/-- Writes an image and, if a path for it is given, its label table. -/
def writeOutputs (a : Assembly.Assembled) (output : String) (hex : Bool)
    (labels? : Option String) : m (Except FileError Unit) := do
  match ← FileStore.write output (imageFile hex a.bytes) with
  | .error e => return .error e
  | .ok () =>
    match labels? with
    | none => return .ok ()
    | some path => FileStore.write path (FileStore.textBytes (LabelTable.format a.labels))

end

end RegisterMachine
