/-
One step of a machine.

A machine is a guest in a world.  The world belongs to the environment, which serves the
guest's system calls and observes its events; the machine itself only passes it along.  A
step fetches, decodes and executes one instruction, or serves one system call if the
program counter is at the entry.  Also a step that ends in a fault leaves a machine, the
one it had got to.
-/
import RegisterMachine.Machine.Event
import RegisterMachine.Machine.Syscall

namespace RegisterMachine

/-- What surrounds a guest: who serves its system calls and who observes its events. -/
structure Environment (ω : Type) where
  serve : SyscallHandler ω
  /-- Takes note of an event. -/
  observe : Event → ω → ω

namespace Environment

variable {α β : Type}

/-- An environment in which nobody observes. -/
def silent (serve : SyscallHandler α) : Environment α :=
  ⟨serve, fun _ world => world⟩

/-- An environment whose handler and whose observer each have a world of their own. -/
def beside (serve : SyscallHandler α) (observe : Event → β → β) : Environment (α × β) where
  serve id guest world :=
    let (result, guest, a) := serve id guest world.1
    (result, guest, (a, world.2))
  observe event world := (world.1, observe event world.2)

end Environment

/-- A guest in a world of type `ω`. -/
structure Machine (ω : Type) where
  guest : Guest
  world : ω

/-- Whether a run goes on after a step. -/
inductive Progress where
  | continues
  /-- The exit has been reached. -/
  | halted
  deriving DecidableEq

namespace Machine

variable {ω : Type}

def tell (env : Environment ω) (event : Event) (m : Machine ω) : Machine ω :=
  { m with world := env.observe event m.world }

/-- Ends a step with what its last action left: a success is announced. -/
def retire (env : Environment ω) (world : ω) :
    Except Fault Unit × Guest → Except Fault Progress × Machine ω
  | (.error fault, guest) => (.error fault, ⟨guest, world⟩)
  | (.ok (), guest) => (.ok .continues, tell env (.retired guest.registers) ⟨guest, world⟩)

/-- Serves the system call whose identifier is on the stack, and returns from it.

The call that ends the run is not served. -/
def enterSyscall (env : Environment ω) (m : Machine ω) : Except Fault Progress × Machine ω :=
  match m.guest.memory.readWord (m.guest.get .sp + 4) with
  | .error fault => (.error fault, m)
  | .ok id =>
    let m := m.tell env (.syscall id m.guest.registers)
    if id = exitSyscall then (.ok .halted, m)
    else
      match env.serve id m.guest m.world with
      | (.error e, guest, world) => (.error (e.toFault id), ⟨guest, world⟩)
      | (.ok (), guest, world) => retire env world guest.ret

/-- Executes the instruction at the program counter. -/
def executeNext (env : Environment ω) (m : Machine ω) : Except Fault Progress × Machine ω :=
  let pc := m.guest.get .pc
  match m.guest.memory.window pc with
  | .error fault => (.error fault, m)
  | .ok window =>
    match Instr.decode window with
    | .error cause => (.error (.decode pc cause), m)
    | .ok i =>
      let m := m.tell env (.instruction pc (window.take i.size) i m.guest.registers)
      retire env m.world (m.guest.execute i)

def step (env : Environment ω) (m : Machine ω) : Except Fault Progress × Machine ω :=
  if m.guest.get .pc = syscallEntry then m.enterSyscall env else m.executeNext env

end Machine

end RegisterMachine
