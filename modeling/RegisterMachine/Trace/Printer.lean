/-
The trace of a run as text.

A printer turns the events of a run into lines.  It remembers the registers from before
the instruction that is being executed, and once that is complete it shows the registers
that have changed, unless it is to keep to one line for an instruction.
-/
import RegisterMachine.Machine.Event
import RegisterMachine.RegisterFile.Report

namespace RegisterMachine.Trace

/-- How much of a run is shown. -/
inductive Verbosity where
  /-- The phases of the run, one line for an instruction, and the final registers. -/
  | brief
  /-- Also the registers that an instruction or a system call has changed, but not the
  program counter. -/
  | changes
  /-- Also the program counter. -/
  | allChanges
  deriving DecidableEq

namespace Verbosity

/-- The verbosity that is asked for so many times over. -/
def ofCount : Nat → Verbosity
  | 0 => brief
  | 1 => changes
  | _ => allChanges

/-- Whether changes of a register are shown. -/
def shows : Verbosity → Register → Bool
  | brief, _ => false
  | changes, r => r ≠ .pc
  | allChanges, _ => true

end Verbosity

/-- The state of a printer. -/
structure Printer where
  verbosity : Verbosity
  palette : Palette
  /-- The registers from before what is being executed. -/
  before? : Option RegisterFile
  deriving DecidableEq

namespace Printer

/-- A printer that has not seen any event. -/
def new (verbosity : Verbosity) (palette : Palette) : Printer :=
  ⟨verbosity, palette, none⟩

/-- The line for a changed register; for the flags it also names those that are set. -/
def changeLine (p : Palette) (registers : RegisterFile) (r : Register) : String :=
  let value := p.paint p.green (registers.get r).addressText
  let shown := r.name ++ " = " ++ value
  Columns.subline (if r = .flags then shown ++ " (" ++ registers.flags.text ++ ")" else shown)

/-- The lines for the registers that have changed. -/
def changeLines (printer : Printer) (registers : RegisterFile) : List String :=
  match printer.before? with
  | none => []
  | some before =>
    ((registers.changedSince before).filter printer.verbosity.shows).map
      (changeLine printer.palette registers)

def lines (printer : Printer) : Event → List String
  | .configure kind imageLength ramMib =>
    ["Initializing VM with:", "\tprogram size " ++ Text.decimal imageLength ++ " bytes",
      "\tmemory " ++ Text.decimal ramMib ++ " MiB", "\ttype '" ++ kind.name ++ "'"]
  | .initMemory length => ["Initializing memory ...", "\tmemory [" ++ Text.hex 8 length ++ "]"]
  | .initRegisters _ => ["Initializing registers ..."]
  | .loadProgram _ => ["Loading program ..."]
  | .start => ["Running program ..."]
  | .instruction addr raw i _ =>
    [Columns.row printer.palette addr raw (i.render printer.palette none)]
  | .syscall id registers =>
    let p := printer.palette
    [Columns.row p registers.pc [] (p.blue ++ "syscall" ++ p.reset ++ " " ++ Text.decimal id.toNat)]
  | .retired registers => printer.changeLines registers
  | .halt registers => registers.reportLines

/-- The printer after an event. -/
def after (printer : Printer) : Event → Printer
  | .instruction _ _ _ registers | .syscall _ registers =>
    { printer with before? := some registers }
  | .retired _ =>
    if printer.verbosity = .brief then printer else { printer with before? := none }
  | .halt _ => { printer with before? := none }
  | _ => printer

end Printer

end RegisterMachine.Trace
