/-
Commands at work.

A command reads its files, and then either has its outcome or has a program under way.
Errors are found in a fixed order: the engine's name before the image, the image before
the label table, and all that is read before anything is written.
-/
import RegisterMachine.CommandLine.Command
import RegisterMachine.CommandLine.Image
import RegisterMachine.CommandLine.Session
import RegisterMachine.Listing.Basic

namespace RegisterMachine.CommandLine

/-- What a command has come to once its files are read. -/
inductive Started where
  /-- The command is done. -/
  | done (outcome : Outcome)
  /-- A program is under way. -/
  | running (session : Session)

namespace Started

/-- Completes the command, giving a program without a budget so many steps. -/
def finishWith (write : MapWriter) (patience : Nat) : Started → Outcome
  | done outcome => outcome
  | running session =>
    let (ending, session) := session.advance (session.engine.stepBound patience)
    session.conclude write ending

/-- Completes the command as the program does. -/
def finish (patience : Nat) : Started → Outcome :=
  finishWith .pretty patience

/-- The outcome or the session that a start has come to. -/
def ofExcept : Except Outcome Session → Started
  | .ok session => running session
  | .error outcome => done outcome

end Started

variable {m : Type → Type} [Monad m] [FileStore m]

/-- Starts a program. -/
def startProgram (exec : ExecOptions) (printer? : Option Trace.Printer) : m Started := do
  match EngineKind.ofName exec.engine with
  | .error e => return .done (.failure e.message)
  | .ok engine =>
    match ← loadImage exec.image exec.hex with
    | .error e => return .done (.failure e.message)
    | .ok image =>
      let options := { ramMib := exec.ramMib, engine, budget? := exec.fuel? }
      return .ofExcept (Session.start options exec.json printer? image)

/-- Assembles a source and writes the image and the label table. -/
def assembleFile (source : String) (output? : Option String) (hex : Bool)
    (labels? : Option String) : m Outcome := do
  match ← loadText source with
  | .error e => return .failure e.message
  | .ok text =>
    match Assembly.assembleProgram text with
    | .error e => return .failure (source ++ ": " ++ e.message)
    | .ok assembled =>
      match ← writeOutputs assembled (output?.getD (defaultOutput source hex)) hex labels? with
      | .error e => return .failure e.message
      | .ok () => return .silent

/-- Prints the listing of an image. -/
def dumpFile (path : String) (hex : Bool) (labels? : Option String) (palette : Palette) :
    m Outcome := do
  match ← loadImage path hex with
  | .error e => return .failure e.message
  | .ok image =>
    let listed (listing : List ListingLine) : Outcome :=
      ⟨[.tool (Listing.text palette listing)], "", 0⟩
    match labels? with
    | none => return listed (Listing.withAutoLabels image)
    | some labels =>
      match ← loadLabels labels with
      | .error e => return .failure e.message
      | .ok table => return listed (Listing.withLabels table image)

/-- Starts a command.  `terminal` tells whether its output goes to a terminal. -/
def Command.start (terminal : Bool) : Command → m Started
  | run exec debug => startProgram exec (if debug then some (.new .brief .off) else none)
  | trace exec verbosity color =>
    startProgram exec (some (.new verbosity (.ofBool (color.colored terminal))))
  | assemble source output? hex labels? => .done <$> assembleFile source output? hex labels?
  | dump image hex labels? color =>
    .done <$> dumpFile image hex labels? (.ofBool (color.colored terminal))

end RegisterMachine.CommandLine
