/-
System calls.

Control enters a system call by reaching address 0, with the stack holding

    SP + 8 + 4 * i   argument i
    SP + 4           the identifier of the call
    SP               the return address

A handler serves a call: it may read and change the guest and the world outside it, and
either succeeds or says why not.  What it has done before it fails remains done.
-/
import RegisterMachine.Machine.Guest
import RegisterMachine.WordMap

namespace RegisterMachine

/-- Why a system call did not succeed. -/
inductive SyscallError where
  /-- The handler does not know the identifier. -/
  | unhandled
  /-- The call failed for a reason of its own. -/
  | failed (message : String)
  /-- The handler's access to the guest failed. -/
  | fault (f : Fault)
  deriving DecidableEq

namespace SyscallError

def message : SyscallError → String
  | unhandled => "unhandled syscall"
  | failed message => message
  | fault f => f.message

/-- The fault that ends a run in which the call with the given identifier failed. -/
def toFault (id : Word) : SyscallError → Fault
  | unhandled => .unhandledSyscall id
  | failed message => .syscallFailed id message
  | fault f => f

end SyscallError

/-- What one system call does to the guest and to a world of type `ω`. -/
abbrev Service (ω : Type) := Guest → ω → Except SyscallError Unit × Guest × ω

/-- Serves system calls by their identifiers. -/
abbrev SyscallHandler (ω : Type) := Word → Service ω

namespace Service

variable {ω : Type}

def unhandled : Service ω := fun guest world => (.error .unhandled, guest, world)

/-- Succeeds without doing anything. -/
def nothing : Service ω := fun guest world => (.ok (), guest, world)

end Service

/-- A handler that provides no system calls. -/
def noSyscalls (ω : Type) : SyscallHandler ω := fun _ => Service.unhandled

/-- Services under their identifiers. -/
abbrev SyscallTable (ω : Type) := WordMap (Service ω)

namespace SyscallTable

variable {ω : Type}

/-- Registers a service, in place of any other with the same identifier. -/
def register (table : SyscallTable ω) (id : Word) (service : Service ω) :
    Except SetupError (SyscallTable ω) :=
  if id = exitSyscall then .error .reservedSyscall else .ok (table.insert id service)

/-- Serves a call by the service that is registered for it. -/
def handler (table : SyscallTable ω) : SyscallHandler ω := fun id =>
  (table.get? id).getD Service.unhandled

/-- The registered identifiers as a set. -/
def text (table : SyscallTable ω) : String :=
  "\x7b" ++ ", ".intercalate (table.keys.map fun id => Text.decimal id.toNat) ++ "\x7d"

end SyscallTable

end RegisterMachine
