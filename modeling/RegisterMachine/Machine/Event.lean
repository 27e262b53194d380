/-
The events of a run.

A run announces what it does at fixed points: its parameters, the phases before the
program starts, every instruction before it is executed, every entry into a system call,
the completion of either, and the final registers.
-/
import RegisterMachine.Machine.Config
import RegisterMachine.RegisterFile.Basic

namespace RegisterMachine

/-- Something that an observer of a run is told. -/
inductive Event where
  /-- The parameters, before anything else happens. -/
  | configure (kind : EngineKind) (imageLength ramMib : Nat)
  | initMemory (length : Nat)
  | initRegisters (registers : RegisterFile)
  /-- An image of this length is about to be copied into memory. -/
  | loadProgram (imageLength : Nat)
  | start
  /-- An instruction has been decoded from exactly these bytes and is about to be executed. -/
  | instruction (addr : Word) (raw : List UInt8) (i : Instruction) (registers : RegisterFile)
  /-- Control has entered a system call. -/
  | syscall (id : Word) (registers : RegisterFile)
  /-- An instruction or a system call is complete. -/
  | retired (registers : RegisterFile)
  | halt (registers : RegisterFile)
  deriving DecidableEq

end RegisterMachine
