/-
An immediate operand stands for a register.

An instruction uses its source operand for its value alone.  So where a source register is
replaced by an immediate with its value, the instruction does the same, and only its size is
another one: the immediate takes four bytes more.  The value is taken before anything is
changed, and the size is added after everything else.  So it does not matter whether the
registers are different ones, nor which they are; not even the program counter is an
exception.
-/
import RegisterMachine.Proofs.Machine.Subroutine

namespace RegisterMachine

namespace Instr

variable {α : Type}

/-- The source operand of an instruction, if it may be a register or an immediate. -/
def source? : Instr α → Option (Operand α)
  | mov _ src | alu _ _ src | cmp _ src => some src
  | _ => none

/-- The instruction with another source operand, if it has one. -/
def withSource (src : Operand α) : Instr α → Instr α
  | mov dst _ => mov dst src
  | alu op dst _ => alu op dst src
  | cmp dst _ => cmp dst src
  | i => i

end Instr

/-- The registers are the same in both files, but for the program counter, which is four bytes
further in the second. -/
def RegisterFile.FourBehind (f f' : RegisterFile) : Prop :=
  (∀ r, r ≠ .pc → f'.get r = f.get r) ∧ f'.get .pc = f.get .pc + 4

theorem RegisterFile.fourBehind_advance (f : RegisterFile) :
    (f.advance 2).FourBehind (f.advance 6) := by
  refine ⟨fun r hr => by simp [advance, get_set, hr], ?_⟩
  simp only [advance, get_set, if_true, UInt32.add_assoc]
  rfl

/-- Both forms only change registers, and they do so alike. -/
theorem Instr.effect_withSource (f : RegisterFile) {i : Instruction} {r : Register}
    (h : i.source? = some (.reg r)) :
    ∃ after after', i.effect f = .registers after ∧
      (i.withSource (.imm (f.get r))).effect f = .registers after' ∧ after.FourBehind after' := by
  cases i with
  | mov dst src | alu op dst src | cmp dst src =>
      obtain rfl := Option.some.inj h
      exact ⟨_, _, rfl, rfl, RegisterFile.fourBehind_advance _⟩
  | _ => contradiction

/-- So guests with the same registers only come to differ in the program counter, whatever their
memories are. -/
theorem Instr.perform_withSource {g g' : Guest} (hregisters : g'.registers = g.registers)
    {i : Instruction} {r : Register} (h : i.source? = some (.reg r)) :
    ∃ after after', (i.effect g.registers).perform g = (.ok (), ⟨after, g.memory⟩) ∧
      ((i.withSource (.imm (g.get r))).effect g'.registers).perform g'
        = (.ok (), ⟨after', g'.memory⟩) ∧ after.FourBehind after' := by
  obtain ⟨after, after', heffect, heffect', hbehind⟩ := effect_withSource g.registers h
  have hvalue : g.registers.get r = g.get r := rfl
  refine ⟨after, after', ?_, ?_, hbehind⟩
  · rw [heffect]
    rfl
  · rw [hregisters, ← hvalue, heffect']
    rfl

/-- **An immediate stands for a register.**

Let the source of an instruction be a register, and replace it by an immediate with the
register's value.  Both instructions succeed wherever they are executed; they leave the memory
alone and every register but the program counter at the same value, and the program counter
is four bytes further for the immediate.

So it is for the steps of two machines with the same registers, one of which is at the one
instruction and the other at the other. -/
theorem immediate_stands_for_register {ω : Type} (env : Environment ω) {i : Instruction}
    {r : Register} (h : i.source? = some (.reg r)) :
    (∀ g : Guest,
      let byRegister := g.execute i
      let byImmediate := g.execute (i.withSource (.imm (g.get r)))
      byRegister.1 = .ok () ∧ byImmediate.1 = .ok () ∧ byRegister.2.memory = g.memory ∧
        byImmediate.2.memory = g.memory ∧
        byRegister.2.registers.FourBehind byImmediate.2.registers) ∧
    ∀ m m' : Machine ω, m'.guest.registers = m.guest.registers → m.guest.executes? = some i →
      m'.guest.executes? = some (i.withSource (.imm (m.guest.get r))) →
      let byRegister := m.step env
      let byImmediate := m'.step env
      byRegister.1 = .ok .continues ∧ byImmediate.1 = .ok .continues ∧
        byRegister.2.guest.memory = m.guest.memory ∧ byImmediate.2.guest.memory = m'.guest.memory ∧
        byRegister.2.guest.registers.FourBehind byImmediate.2.guest.registers := by
  refine ⟨fun g => ?_, fun m m' hregisters hi hi' => ?_⟩
  · obtain ⟨after, after', hperform, hperform', hbehind⟩ :=
      Instr.perform_withSource (g := g) rfl h
    rw [Guest.execute_eq_perform, Guest.execute_eq_perform, hperform, hperform']
    exact ⟨rfl, rfl, rfl, rfl, hbehind⟩
  · obtain ⟨after, after', hperform, hperform', hbehind⟩ := Instr.perform_withSource hregisters h
    obtain ⟨next, hstep, hguest⟩ := Machine.step_of_perform env hi hperform
    obtain ⟨next', hstep', hguest'⟩ := Machine.step_of_perform env hi' hperform'
    rw [hstep, hstep']
    refine ⟨rfl, rfl, ?_, ?_, ?_⟩
    · rw [hguest]
    · rw [hguest']
    · rw [hguest, hguest']
      exact hbehind

/-- A program that copies the program counter into itself. -/
def copiesCounter : List UInt8 :=
  [0x1f, 0, 0, 0, 0] ++ [0x06, 0xff]

/-- A program that puts 5 into the program counter. -/
def setsCounter : List UInt8 :=
  [0x1f, 0, 0, 0, 0] ++ [0x07, 0xf0, 5, 0, 0, 0]

theorem immediate_stands_for_register_counter :
    let env : Environment Unit := .silent (noSyscalls Unit)
    let i : Instruction := .mov .pc (.reg .pc)
    let m := (((Engine.create .standard ()).init env).load env copiesCounter).2.machine
    let m' := (((Engine.create .standard ()).init env).load env setsCounter).2.machine
    i.source? = some (.reg .pc) ∧ m'.guest.registers = m.guest.registers ∧
      m.guest.executes? = some i ∧ m.guest.get .pc = 5 ∧
      m'.guest.executes? = some (i.withSource (.imm 5)) ∧
      (m.guest.execute i).2.get .pc = 7 ∧ (m.guest.execute (.mov .pc (.imm 5))).2.get .pc = 11 ∧
      (m.step env).1 = .ok .continues ∧ (m'.step env).1 = .ok .continues ∧
      (m.step env).2.guest.registers.FourBehind (m'.step env).2.guest.registers := by
  intro env i m m'
  have hsource : i.source? = some (.reg .pc) := rfl
  have hregisters : m'.guest.registers = m.guest.registers := by decide +kernel
  have hi : m.guest.executes? = some i := by decide +kernel
  have hpc : m.guest.get .pc = 5 := by decide +kernel
  have hi' : m'.guest.executes? = some (i.withSource (.imm 5)) := by decide +kernel
  have hcopied : (m.guest.execute i).2.get .pc = 7 := by decide +kernel
  obtain ⟨hexecutes, hsteps⟩ := immediate_stands_for_register env hsource
  obtain ⟨-, -, -, -, -, hfour⟩ := hexecutes m.guest
  have hset : (m.guest.execute (.mov .pc (.imm 5))).2.get .pc = 11 := by
    rw [hpc] at hfour
    refine Eq.trans hfour ?_
    rw [show (m.guest.execute i).2.registers.get .pc = 7 from hcopied]
    rfl
  obtain ⟨hstep, hstep', -, -, hbehind⟩ := hsteps m m' hregisters hi (by rwa [hpc])
  exact ⟨hsource, hregisters, hi, hpc, hi', hcopied, hset, hstep, hstep', hbehind⟩

end RegisterMachine
