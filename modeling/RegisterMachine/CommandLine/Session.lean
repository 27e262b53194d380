/-
Programs run from the command line.

The guest and the tool write to the same output, so what they write is kept as one
sequence of chunks, each of which knows whose it is.  A session is a run under way: it
can be advanced step by step, and what it has written can be taken out in between, which
is how a program that never ends still shows its output.
-/
import RegisterMachine.CommandLine.FileStore
import RegisterMachine.Machine.Console
import RegisterMachine.Machine.Engine
import RegisterMachine.Trace.Printer

namespace RegisterMachine.CommandLine

inductive Chunk where
  /-- Bytes that the guest writes. -/
  | guest (bytes : List UInt8)
  /-- Text that the tool writes. -/
  | tool (text : String)
  deriving DecidableEq

namespace Chunk

def bytes : Chunk → List UInt8
  | guest bytes => bytes
  | tool text => FileStore.textBytes text

end Chunk

/-- What a command leaves: its output, what it says about errors, and its status. -/
structure Outcome where
  output : List Chunk
  errors : String
  exitCode : Nat
  deriving DecidableEq

namespace Outcome

/-- The outcome of a command that writes nothing and succeeds. -/
def silent : Outcome := ⟨[], "", 0⟩

/-- The outcome of a command that does not get to do its work. -/
def failure (message : String) : Outcome :=
  ⟨[], "error: " ++ message ++ "\n", 1⟩

def stdout (o : Outcome) : List UInt8 :=
  o.output.flatMap Chunk.bytes

end Outcome

/-- The output of a session so far, with the printer of its trace. -/
structure Terminal where
  /-- What has been written, the latest first. -/
  written : List Chunk
  /-- The printer, if the run is traced. -/
  printer? : Option Trace.Printer
  deriving DecidableEq

namespace Terminal

def write (t : Terminal) (chunk : Chunk) : Terminal :=
  { t with written := chunk :: t.written }

/-- Prints an event, if the run is traced. -/
def observe (event : Event) (t : Terminal) : Terminal :=
  match t.printer? with
  | none => t
  | some printer =>
    (printer.lines event).foldl (fun t line => t.write (.tool (line ++ "\n")))
      { t with printer? := some (printer.after event) }

/-- The guest's calls write to the terminal, and its events are printed there. -/
def environment : Environment Terminal where
  serve := Console.handler fun bytes t => t.write (.guest bytes)
  observe := observe

end Terminal

/-- The final registers as a command prints them, or why it cannot.  A trace ends with the same
report, so it is not printed again. -/
def finalText (write : MapWriter) (json traced : Bool) (registers : RegisterFile) :
    Except String String :=
  if json then (write registers.members).map (· ++ "\n")
  else .ok (if traced then "" else registers.report)

structure Session where
  engine : Engine Terminal
  /-- Whether the final registers are printed as JSON. -/
  json : Bool

namespace Session

/-- What has been written since the output was last taken out. -/
def output (s : Session) : List Chunk :=
  s.engine.machine.world.written.reverse

/-- The session with its output taken out. -/
def clear (s : Session) : Session :=
  { s with engine.machine.world.written := [] }

/-- Starts a program, unless it does not fit into memory or too much of that is asked for. -/
def start (options : RunOptions) (json : Bool) (printer? : Option Trace.Printer)
    (image : List UInt8) : Except Outcome Session :=
  match EngineConfig.ofRequest options.ramMib options.budget? with
  | .error e => .error (.failure e.message)
  | .ok config =>
    match (Engine.create config ⟨[], printer?⟩).prepare Terminal.environment image with
    | (.error e, engine) =>
      .error { Outcome.failure e.message with output := engine.machine.world.written.reverse }
    | (.ok (), engine) => .ok ⟨engine.tell Terminal.environment .start, json⟩

/-- Takes the run further by so many steps. -/
def advance (steps : Nat) (s : Session) : Ending × Session :=
  let (ending, engine) := s.engine.resume Terminal.environment steps
  (ending, { s with engine })

/-- What is reported of a run that ends like this. -/
def complaint : Ending → String
  | .faulted fault => "runtime error: " ++ fault.message ++ "\n"
  | .halted | .unfinished => ""

/-- Ends a session: the final registers are printed, or the fault is reported. -/
def conclude (write : MapWriter) (ending : Ending) (s : Session) : Outcome :=
  let (result, engine) := s.engine.conclude Terminal.environment ending
  let s := { s with engine }
  let { guest, world, .. } := engine.machine
  match ending with
  | .halted =>
    match finalText write s.json world.printer?.isSome guest.registers with
    | .ok text => ⟨s.output ++ [.tool text], "", result.exitCode⟩
    | .error e => { Outcome.failure e with output := s.output }
  | .faulted _ | .unfinished => ⟨s.output, complaint ending, result.exitCode⟩

end Session

end RegisterMachine.CommandLine
