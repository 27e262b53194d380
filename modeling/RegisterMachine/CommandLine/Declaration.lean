/-
The commands and the arguments that they take.

A command declares its arguments, and a reader of command lines goes by what is declared.  An
argument with a long or a short name is an option, which may stand anywhere; one without is
known by its place.

`run` and `trace` declare the same arguments, so that one command can be exchanged for the other
by its name alone.  Each of them leaves out of its help what only the other makes use of.
-/

namespace RegisterMachine.CommandLine

/-- What the value of an argument has to be. -/
inductive ValueKind where
  | path
  | text
  | u32
  | u64
  /-- One of these words. -/
  | choice (words : List String)
  deriving DecidableEq

/-- What it does to give an argument. -/
inductive Action where
  /-- It takes a value. -/
  | set (kind : ValueKind)
  /-- It is a switch. -/
  | setTrue
  /-- It may be repeated, and its repetitions are counted. -/
  | count
  | help
  deriving DecidableEq

/-- What a reader of command lines has to know of an argument. -/
structure Param where
  id : String
  action : Action
  /-- The name behind two dashes. -/
  long? : Option String := none
  /-- The letter behind one dash. -/
  short? : Option Char := none
  required : Bool := false
  /-- The text that is taken where no value is given. -/
  default? : Option String := none
  deriving DecidableEq

/-- An argument as a command declares it. -/
structure Arg extends Param where
  /-- Whether the help of the command is silent about it. -/
  hidden : Bool := false
  deriving DecidableEq

namespace Arg

/-- The argument left out of the help. -/
def hide (arg : Arg) : Arg :=
  { arg with hidden := true }

def imagePath : Arg := { id := "image_path", action := .set .path, required := true }

def sourcePath : Arg := { id := "source_path", action := .set .path, required := true }

/-- How many MiB of memory the program asks for. -/
def ram : Arg := { id := "ram", action := .set .u32, long? := some "ram", default? := some "4" }

def engine : Arg :=
  { id := "engine", action := .set .text, long? := some "engine", default? := some "interpreter" }

/-- After how many fetches the program is stopped. -/
def fuel : Arg := { id := "fuel", action := .set .u64, long? := some "fuel" }

def debug : Arg := { id := "debug", action := .setTrue, long? := some "debug" }

/-- Whether the image is hexadecimal text, whatever its path. -/
def hex : Arg := { id := "hex", action := .setTrue, long? := some "hex" }

def json : Arg := { id := "json", action := .setTrue, long? := some "json" }

/-- How often more of the trace is asked for. -/
def verbose : Arg := { id := "verbose", action := .count, short? := some 'v' }

def color : Arg where
  id := "color"
  action := .set (.choice ["auto", "always", "never"])
  long? := some "color"
  default? := some "auto"

def output : Arg :=
  { id := "output", action := .set .path, long? := some "output", short? := some 'o' }

def labels : Arg := { id := "labels", action := .set .path, long? := some "labels" }

end Arg

/-- A command with the arguments that it takes. -/
structure CommandDecl where
  name : String
  args : List Arg
  deriving DecidableEq

namespace CommandDecl

/-- What of the arguments is no matter of the help. -/
def params (command : CommandDecl) : List Param :=
  command.args.map Arg.toParam

end CommandDecl

inductive Verb where
  | run
  /-- Executes a program and prints its trace. -/
  | trace
  | assemble
  | dump
  deriving DecidableEq

namespace Verb

def all : List Verb := [run, trace, assemble, dump]

/-- The word that names the command. -/
def name : Verb → String
  | run => "run"
  | trace => "trace"
  | assemble => "asm"
  | dump => "dump"

/-- The command that a word names. -/
def ofName? (name : String) : Option Verb :=
  all.find? fun verb => verb.name = name

/-- The arguments of a command that executes a program. -/
def execArgs : List Arg :=
  [.imagePath, .ram, .engine, .fuel, .hex, .json]

def args : Verb → List Arg
  | run => execArgs ++ [.debug, Arg.verbose.hide, Arg.color.hide]
  | trace => execArgs ++ [Arg.debug.hide, .verbose, .color]
  | assemble => [.sourcePath, .output, .hex, .labels]
  | dump => [.imagePath, .hex, .labels, .color]

def declaration (verb : Verb) : CommandDecl :=
  ⟨verb.name, verb.args⟩

/-- All commands as they are declared. -/
def declarations : List CommandDecl :=
  all.map declaration

end Verb

end RegisterMachine.CommandLine
