/-
What can go wrong.

A setup error is found before a program starts; a fault ends a run.  Each carries what
its message shows, so that a message can be traced to the state in which it arose.
-/
import RegisterMachine.Instruction.Text

namespace RegisterMachine

/-- Why a program is not run. -/
inductive SetupError where
  | unknownEngine (name : String)
  | ramTooLarge (mib : Nat)
  | imageTooLarge (size memory : Nat)
  /-- System call 0 ends the run and cannot be given another meaning. -/
  | reservedSyscall
  deriving DecidableEq

namespace SetupError

def message : SetupError → String
  | unknownEngine name => "unknown engine kind `" ++ name ++ "` (expected `interpreter`)"
  | ramTooLarge mib =>
    "requested " ++ Text.decimal mib ++ " MiB of memory, at most 2048 MiB is supported"
  | imageTooLarge size memory =>
    "program image of " ++ Text.decimal size ++ " bytes does not fit in " ++
      Text.decimal memory ++ " bytes of memory"
  | reservedSyscall => "syscall 0 is reserved for VM exit"

end SetupError

/-- Why a run ended without reaching its exit. -/
inductive Fault where
  /-- No instruction stands at the program counter. -/
  | decode (addr : Word) (cause : DecodeError)
  | unhandledSyscall (id : Word)
  /-- A system call failed for a reason of its own. -/
  | syscallFailed (id : Word) (message : String)
  | outOfBounds (addr : Word) (size length : Nat)
  /-- The run has used up its budget of fetches. -/
  | budgetExhausted (budget : Nat)
  deriving DecidableEq

namespace Fault

def message : Fault → String
  | decode addr cause =>
    "cannot decode instruction at " ++ addr.addressText ++ ": " ++ cause.message
  | unhandledSyscall id => "unhandled syscall " ++ Text.decimal id.toNat
  | syscallFailed id message => "syscall " ++ Text.decimal id.toNat ++ " failed: " ++ message
  | outOfBounds addr size length =>
    "access of " ++ Text.decimal size ++ " bytes at " ++ addr.addressText ++
      " is outside memory of " ++ Text.hex 1 length ++ " bytes"
  | budgetExhausted budget => "instruction budget of " ++ Text.decimal budget ++ " exhausted"

end Fault

end RegisterMachine
