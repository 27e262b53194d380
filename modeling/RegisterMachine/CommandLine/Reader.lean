/-
Readers of command lines.

A reader is given the declared commands and the words of a command line.  It gives back the name
of the command that is meant and the values of its arguments, or an error, with which it ends
the process itself.  How it reads is left open here: `Reader` is the interface, and
`CommandLine.Arguments` has the reader that the program uses.

What is done with the values is not the reader's: every command takes those that it needs.
-/
import RegisterMachine.CommandLine.Command
import RegisterMachine.CommandLine.Declaration

namespace RegisterMachine.CommandLine

/-- The value of an argument. -/
inductive ArgValue where
  | path (path : String)
  | text (text : String)
  | u32 (n : UInt32)
  | u64 (n : UInt64)
  /-- Whether a switch has been given. -/
  | flag (given : Bool)
  /-- How often an argument has been given, up to the largest byte. -/
  | count (times : UInt8)
  deriving DecidableEq

/-- The values that have been read, under the names of their arguments. -/
structure Matches where
  values : List (String × ArgValue) := []
  deriving DecidableEq

namespace Matches

def value? (m : Matches) (id : String) : Option ArgValue :=
  m.values.lookup id

def path? (m : Matches) (id : String) : Option String :=
  match m.value? id with
  | some (.path path) => some path
  | _ => none

def text? (m : Matches) (id : String) : Option String :=
  match m.value? id with
  | some (.text text) => some text
  | _ => none

def u32? (m : Matches) (id : String) : Option UInt32 :=
  match m.value? id with
  | some (.u32 n) => some n
  | _ => none

def u64? (m : Matches) (id : String) : Option UInt64 :=
  match m.value? id with
  | some (.u64 n) => some n
  | _ => none

def flag (m : Matches) (id : String) : Bool :=
  match m.value? id with
  | some (.flag given) => given
  | _ => false

def count (m : Matches) (id : String) : UInt8 :=
  match m.value? id with
  | some (.count times) => times
  | _ => 0

end Matches

/-- A reader of command lines. -/
structure Reader where
  /-- Reads the words behind the name of the program: the name of a command, and its values. -/
  getMatches : List CommandDecl → List String → Except UsageError (String × Matches)
  /-- Reads the arguments of one command. -/
  readArgs : CommandDecl → List String → Except UsageError Matches
  /-- The status with which the process ends for an error. -/
  status : UsageError → Nat

/-! ### What the commands take from the values -/

/-- What both commands take that execute a program. -/
def ExecOptions.ofMatches (m : Matches) : ExecOptions where
  image := (m.path? "image_path").getD ""
  hex := m.flag "hex"
  ramMib := ((m.u32? "ram").getD 4).toNat
  engine := (m.text? "engine").getD "interpreter"
  fuel? := (m.u64? "fuel").map UInt64.toNat
  json := m.flag "json"

def ColorChoice.ofMatches (m : Matches) : ColorChoice :=
  match m.text? "color" with
  | some "always" => always
  | some "never" => never
  | _ => auto

/-- The command that is meant by a verb and its values. -/
def Verb.command (m : Matches) : Verb → Command
  | run => .run (.ofMatches m) (m.flag "debug")
  | trace => .trace (.ofMatches m) (.ofCount (m.count "verbose").toNat) (.ofMatches m)
  | assemble =>
    .assemble ((m.path? "source_path").getD "") (m.path? "output") (m.flag "hex") (m.path? "labels")
  | dump =>
    .dump ((m.path? "image_path").getD "") (m.flag "hex") (m.path? "labels") (.ofMatches m)

/-- Reads a command line, without the name of the program. -/
def Reader.parse (reader : Reader) (args : List String) : Except UsageError Command := do
  let (name, m) ← reader.getMatches Verb.declarations args
  match Verb.ofName? name with
  | some verb => return verb.command m
  -- A reader answers with the name of a declared command.
  | none => .error .unknownCommand

end RegisterMachine.CommandLine
