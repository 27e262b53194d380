/-
The program.

It reads the command line, lets the command work on the files of the system, and shows a
running program's output as it comes.  All decisions are made by the modules that it
calls.
-/
import RegisterMachine.CommandLine.Arguments
import RegisterMachine.CommandLine.Execute

namespace RegisterMachine.CommandLine

/-- The reason that a system error number stands for.  Some calls report the number negated. -/
def fileErrorNumbered (number : UInt32) (details : String) : FileError :=
  match min number (-number) with
  | 2 => .notFound
  | 20 => .notDirectory
  | 21 => .isDirectory
  | 36 => .nameTooLong
  | n => .other s!"{details} (os error {n})"

def fileErrorOf : IO.Error → FileError
  | .noFileOrDirectory _ number details => fileErrorNumbered number details
  | .inappropriateType _ number details => fileErrorNumbered number details
  | .invalidArgument _ number details => fileErrorNumbered number details
  | .permissionDenied _ number details => fileErrorNumbered number details
  | e => .other (toString e)

instance : FileStore IO where
  read path := do
    if let .error e := checkPath path then return .error e
    try
      return .ok (← IO.FS.readBinFile path).data.toList
    catch e => return .error (fileErrorOf e)
  write path bytes := do
    if let .error e := checkPath path then return .error e
    try
      IO.FS.writeBinFile path ⟨bytes.toArray⟩
      return .ok ()
    catch e => return .error (fileErrorOf e)

def display (output : List Chunk) : IO Unit := do
  let stdout ← IO.getStdout
  for chunk in output do
    stdout.write ⟨chunk.bytes.toArray⟩
  stdout.flush

/-- Writes the outcome of a command and ends with its status. -/
def report (outcome : Outcome) : IO UInt32 := do
  display outcome.output
  IO.eprint outcome.errors
  return UInt32.ofNat outcome.exitCode

/-- The steps that a program makes before its output is shown. -/
def sliceSteps : Nat := 4096

/-- Runs a program until it ends, showing its output in between. -/
partial def follow (session : Session) : IO Outcome := do
  match session.advance sliceSteps with
  | (.unfinished, session) =>
    display session.output
    follow session.clear
  | (ending, session) => return session.conclude .pretty ending

end RegisterMachine.CommandLine

open RegisterMachine.CommandLine in
/-- Reads the command line and carries out the command. -/
def main (args : List String) : IO UInt32 := do
  match parse args with
  | .error e =>
    let status := Reader.standard.status e
    if status = 0 then IO.println e.message else IO.eprintln e.message
    return UInt32.ofNat status
  | .ok command =>
    let terminal := (← (← IO.getStdout).isTty) && (← (← IO.getStderr).isTty)
    match ← command.start terminal with
    | .done outcome => report outcome
    | .running session => report (← follow session)
