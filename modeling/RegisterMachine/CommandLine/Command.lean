/-
The commands that can be given, and why a command line is none.
-/
import RegisterMachine.Trace.Printer

namespace RegisterMachine.CommandLine

/-- When output is coloured. -/
inductive ColorChoice where
  | auto
  | always
  | never
  deriving DecidableEq

namespace ColorChoice

def name : ColorChoice → String
  | auto => "auto"
  | always => "always"
  | never => "never"

def all : List ColorChoice := [auto, always, never]

/-- Whether output is coloured, given whether it goes to a terminal. -/
def colored (terminal : Bool) : ColorChoice → Bool
  | auto => terminal
  | always => true
  | never => false

end ColorChoice

/-- What is needed to execute a program. -/
structure ExecOptions where
  image : String
  /-- Whether the image is hexadecimal text whatever its path. -/
  hex : Bool
  ramMib : Nat
  engine : String
  /-- The most fetches that the run may make. -/
  fuel? : Option Nat
  json : Bool
  deriving DecidableEq

inductive Command where
  /-- Executes a program, and with `debug` prints its trace. -/
  | run (exec : ExecOptions) (debug : Bool)
  /-- Executes a program and prints its trace. -/
  | trace (exec : ExecOptions) (verbosity : Trace.Verbosity) (color : ColorChoice)
  | assemble (source : String) (output? : Option String) (hex : Bool) (labels? : Option String)
  | dump (image : String) (hex : Bool) (labels? : Option String) (color : ColorChoice)
  deriving DecidableEq

/-- Why a command line gives no command. -/
inductive UsageError where
  | missingPath
  /-- An argument that the command does not take. -/
  | unknownArgument
  /-- An option without a value, or with one that is not among its choices. -/
  | invalidValue
  /-- A value that is no number, or is out of range. -/
  | invalidNumber
  /-- A value for an option that takes none. -/
  | unexpectedValue
  | repeatedArgument
  | unknownCommand
  | helpRequested
  | nothingGiven
  deriving DecidableEq

namespace UsageError

def message : UsageError → String
  | missingPath => "a path is required"
  | unknownArgument => "unexpected argument"
  | invalidValue => "missing or invalid value"
  | invalidNumber => "invalid number"
  | unexpectedValue => "unexpected value"
  | repeatedArgument => "an argument cannot be used multiple times"
  | unknownCommand => "unrecognized subcommand"
  | helpRequested | nothingGiven =>
    "usage: run <IMAGE> | trace <IMAGE> | asm <SOURCE> | dump <IMAGE>  [OPTIONS]"

/-- The status with which a program ends that was started like this. -/
def exitCode : UsageError → Nat
  | helpRequested => 0
  | _ => 2

end UsageError

end RegisterMachine.CommandLine
