/-
Guests and the execution of instructions.

A guest is what a program can see of the machine: the registers and the memory.  Each
instruction is one equation of `execute`.  An instruction that makes an access out of
bounds ends with a fault and the guest as it stands at that moment; which registers have
already changed by then is part of the instruction's meaning.
-/
import RegisterMachine.Instruction.Basic
import RegisterMachine.Machine.Memory
import RegisterMachine.RegisterFile.Basic

namespace RegisterMachine

/-- The registers and the memory of a program. -/
structure Guest where
  registers : RegisterFile
  memory : Memory

namespace Guest

def get (g : Guest) (r : Register) : Word :=
  g.registers.get r

/-- The guest with another value in one register. -/
def set (g : Guest) (r : Register) (value : Word) : Guest :=
  { g with registers := g.registers.set r value }

def operand (g : Guest) : Operand Word → Word
  | .reg r => g.get r
  | .imm value => value

/-- The guest with the program counter moved on by so many bytes. -/
def advance (g : Guest) (size : Nat) : Guest :=
  g.set .pc (g.get .pc + UInt32.ofNat size)

/-- Reads a word of memory and goes on with it. -/
def reading (g : Guest) (addr : Word) (next : Word → Guest) : Except Fault Unit × Guest :=
  match g.memory.readWord addr with
  | .ok value => (.ok (), next value)
  | .error fault => (.error fault, g)

/-- Writes a word of memory and goes on with the guest that has it. -/
def writing (g : Guest) (addr value : Word) (next : Guest → Guest) : Except Fault Unit × Guest :=
  match g.memory.writeWord addr value with
  | .ok memory => (.ok (), next { g with memory })
  | .error fault => (.error fault, g)

/-- Takes the program counter from the stack. -/
def ret (g : Guest) : Except Fault Unit × Guest :=
  let sp := g.get .sp
  g.reading sp fun target => (g.set .sp (sp + 4)).set .pc target

/-- Executes an instruction that stands at the program counter.

Calls, returns and jumps set the program counter.  After any other instruction it is
moved on by the instruction's size from the value that the instruction left in it, so one
that writes the program counter continues just behind the address it wrote. -/
def execute (g : Guest) (i : Instruction) : Except Fault Unit × Guest :=
  match i with
  | .load dst src => g.reading (g.get src) fun value => (g.set dst value).advance i.size
  | .store dst src => g.writing (g.get dst) (g.get src) (·.advance i.size)
  | .mov dst src => (.ok (), (g.set dst (g.operand src)).advance i.size)
  | .alu op dst src => (.ok (), (g.set dst (op.apply (g.get dst) (g.operand src))).advance i.size)
  | .not r => (.ok (), (g.set r (~~~g.get r)).advance i.size)
  | .cmp dst src =>
    (.ok (), (g.set .flags (Flags.compare (g.get dst) (g.operand src)).bits).advance i.size)
  | .push r =>
    let g := g.set .sp (g.get .sp - 4)
    g.writing (g.get .sp) (g.get r) (·.advance i.size)
  | .pop r =>
    g.reading (g.get .sp) fun value =>
      let g := g.set r value
      (g.set .sp (g.get .sp + 4)).advance i.size
  | .call target =>
    let sp := g.get .sp - 4
    g.writing sp (g.get .pc + UInt32.ofNat i.size) fun g => (g.set .sp sp).set .pc target
  | .ret => g.ret
  | .jump c target =>
    if c.holds g.registers.flags then (.ok (), g.set .pc target)
    else (.ok (), g.advance i.size)

/-- The argument of a system call with the given number: the words above the identifier on
the stack are its arguments. -/
def argument (g : Guest) (index : Word) : Except Fault Word :=
  g.memory.readWord (g.get .sp + 8 + index * 4)

end Guest

end RegisterMachine
