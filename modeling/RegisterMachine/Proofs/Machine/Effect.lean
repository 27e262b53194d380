/-
An instruction makes at most one access to memory.

`Guest.execute` weaves the changes of registers with the access that may fail.  Here the two
are pulled apart: what an instruction does is an `Effect`, a piece of data that is computed
from the registers alone.  Either it changes registers only, or it also reads one word, or
it also writes one.  `execute_eq_perform` says that performing the effect is executing the
instruction, so that what is to be said of all instructions need only be said of three kinds
of effects.
-/
import RegisterMachine.Machine.Guest
import RegisterMachine.Proofs.Machine.Access

namespace RegisterMachine

/-- What an instruction does to a guest. -/
inductive Effect where
  /-- Only registers change. -/
  | registers (after : RegisterFile)
  /-- A word is read, on which the registers afterwards may depend. -/
  | read (addr : Word) (after : Word → RegisterFile)
  /-- A word is written.  `before` are the registers with which the access is made. -/
  | write (before : RegisterFile) (addr value : Word) (after : RegisterFile)

namespace Effect

/-- What is left of a guest when the effect has been tried on its memory. -/
def perform (g : Guest) : Effect → Except Fault Unit × Guest
  | registers after => (.ok (), ⟨after, g.memory⟩)
  | read addr after =>
    match g.memory.readWord addr with
    | .ok value => (.ok (), ⟨after value, g.memory⟩)
    | .error fault => (.error fault, g)
  | write before addr value after =>
    match g.memory.writeWord addr value with
    | .ok memory => (.ok (), ⟨after, memory⟩)
    | .error fault => (.error fault, ⟨before, g.memory⟩)

/-- Taking the program counter from the stack. -/
def ret (f : RegisterFile) : Effect :=
  .read (f.get .sp) fun target => (f.set .sp (f.get .sp + 4)).set .pc target

theorem length_perform (effect : Effect) (g : Guest) :
    (effect.perform g).2.memory.length = g.memory.length := by
  cases effect with
  | registers after => rfl
  | read addr after =>
      rw [perform]
      cases g.memory.readWord addr <;> rfl
  | write before addr value after =>
      rw [perform]
      cases hwrite : g.memory.writeWord addr value with
      | error fault => rfl
      | ok memory => exact Memory.length_of_writeWord hwrite

theorem refuses_of_perform {effect : Effect} {g : Guest} {fault : Fault}
    (h : (effect.perform g).1 = .error fault) : ∃ addr, g.memory.Refuses addr 4 fault := by
  cases effect with
  | registers after => contradiction
  | read addr after =>
      rw [perform] at h
      cases hread : g.memory.readWord addr with
      | ok value => simp [hread] at h
      | error cause =>
          obtain rfl : cause = fault := by simpa [hread] using h
          exact ⟨addr, Memory.readWord_eq_error.mp hread⟩
  | write before addr value after =>
      rw [perform] at h
      cases hwrite : g.memory.writeWord addr value with
      | ok memory => simp [hwrite] at h
      | error cause =>
          obtain rfl : cause = fault := by simpa [hwrite] using h
          exact ⟨addr, Memory.writeWord_eq_error.mp hwrite⟩

end Effect

/-- The registers with the program counter moved on by so many bytes. -/
def RegisterFile.advance (f : RegisterFile) (size : Nat) : RegisterFile :=
  f.set .pc (f.get .pc + UInt32.ofNat size)

/-- What a source operand stands for. -/
def Operand.value (f : RegisterFile) : Operand Word → Word
  | .reg r => f.get r
  | .imm value => value

/-- What an instruction does, told from the registers before it. -/
def Instr.effect (f : RegisterFile) (i : Instruction) : Effect :=
  match i with
  | .load dst src => .read (f.get src) fun value => (f.set dst value).advance i.size
  | .store dst src => .write f (f.get dst) (f.get src) (f.advance i.size)
  | .mov dst src => .registers ((f.set dst (src.value f)).advance i.size)
  | .alu op dst src =>
    .registers ((f.set dst (op.apply (f.get dst) (src.value f))).advance i.size)
  | .not r => .registers ((f.set r (~~~f.get r)).advance i.size)
  | .cmp dst src =>
    .registers ((f.set .flags (Flags.compare (f.get dst) (src.value f)).bits).advance i.size)
  | .push r =>
    let f := f.set .sp (f.get .sp - 4)
    .write f (f.get .sp) (f.get r) (f.advance i.size)
  | .pop r =>
    .read (f.get .sp) fun value =>
      let f := f.set r value
      (f.set .sp (f.get .sp + 4)).advance i.size
  | .call target =>
    let sp := f.get .sp - 4
    .write f sp (f.get .pc + UInt32.ofNat i.size) ((f.set .sp sp).set .pc target)
  | .ret => .ret f
  | .jump c target =>
    .registers (if c.holds f.flags then f.set .pc target else f.advance i.size)

namespace Guest

/-- **Executing an instruction is performing its effect.** -/
theorem execute_eq_perform (g : Guest) (i : Instruction) :
    g.execute i = (i.effect g.registers).perform g := by
  cases i with
  | mov dst src | alu op dst src | cmp dst src => cases src <;> rfl
  | jump c target =>
      by_cases h : c.holds g.registers.flags = true
      · simp only [execute, Instr.effect, Effect.perform, if_pos h, set]
      · simp only [execute, Instr.effect, Effect.perform, if_neg h]
        rfl
  | _ => rfl

theorem ret_eq_perform (g : Guest) : g.ret = (Effect.ret g.registers).perform g := rfl

end Guest

end RegisterMachine
