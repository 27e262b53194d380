/-
What an environment keeps of its world, a run keeps.

The machine passes its world along, so a property of the world needs to be followed only
through the two functions that may change it: the handler of system calls and the observer.
What both keep is still there after a step, after the preparation of a program and after any
number of rounds of the loop.

The last event of an execution, the one with the final registers, is left out of this.  Nothing
comes after it, and an observer may do with it what it does with no other.
-/
import RegisterMachine.Proofs.Machine.Run
import RegisterMachine.Proofs.Machine.Step

namespace RegisterMachine

variable {ω : Type} {env : Environment ω} {P : ω → Prop}

/-- Whatever is called, and whatever happens before the end, the property is kept. -/
structure Environment.Keeps (env : Environment ω) (P : ω → Prop) : Prop where
  serve {id : Word} {guest guest' : Guest} {world world' : ω} {outcome : Except SyscallError Unit}
    (h : env.serve id guest world = (outcome, guest', world')) (hworld : P world) : P world'
  observe {event : Event} (hevent : ∀ registers, event ≠ .halt registers) {world : ω}
    (hworld : P world) : P (env.observe event world)

namespace Machine

variable {m m' : Machine ω} {result : Except Fault Progress}

theorem keeps_tell (henv : env.Keeps P) {event : Event}
    (hevent : ∀ registers, event ≠ .halt registers) (hm : P m.world) :
    P (m.tell env event).world :=
  henv.observe hevent hm

theorem keeps_retire (henv : env.Keeps P) {world : ω} {outcome : Except Fault Unit × Guest}
    (h : retire env world outcome = (result, m')) (hworld : P world) : P m'.world := by
  rcases retire_cases h with ⟨_, _, _, rfl⟩ | ⟨_, _, rfl⟩
  · exact hworld
  · exact henv.observe (by simp) hworld

/-- **A step keeps what the environment keeps.** -/
theorem keeps_step (henv : env.Keeps P) (hm : P m.world) : P (m.step env).2.world := by
  rcases hstep : m.step env with ⟨result, m'⟩
  have hcalled : ∀ id, P (env.observe (.syscall id m.guest.registers) m.world) :=
    fun id => henv.observe (by simp) hm
  cases stepped_of_step hstep with
  | unidentified _ _ | unfetched _ _ | undecoded _ _ _ => exact hm
  | exited _ _ => exact hcalled _
  | unserved _ _ _ hserve => exact henv.serve hserve (hcalled _)
  | served _ _ _ hserve hretire => exact keeps_retire henv hretire (henv.serve hserve (hcalled _))
  | executed _ _ _ hretire => exact keeps_retire henv hretire (henv.observe (by simp) hm)

end Machine

namespace Engine

variable {e : Engine ω}

/-- **The loop keeps what the environment keeps.** -/
theorem keeps_resume (henv : env.Keeps P) (he : P e.machine.world) (steps : Nat) :
    P (e.resume env steps).2.machine.world := by
  obtain ⟨k, m', hafter, hstopped⟩ := resume_cases env steps e
  have hlater : P (e.machine.later env k).world :=
    Machine.later_keeps (P := fun m => P m.world) (Q := fun _ => True)
      (fun _ _ hm => Machine.keeps_step henv hm) (fun _ _ => trivial) he
  rw [hstopped.later_eq] at hlater
  rw [hafter]
  exact hlater

theorem keeps_run (henv : env.Keeps P) (he : P e.machine.world) (patience : Nat) :
    P (e.run env patience).2.machine.world :=
  keeps_resume henv (Machine.keeps_tell henv (by simp) he) _

theorem keeps_prepare (henv : env.Keeps P) (he : P e.machine.world) (image : List UInt8) :
    P (e.prepare env image).2.machine.world := by
  have hstart : P (env.observe (.loadProgram image.length)
      (env.observe (.initRegisters (.reset (UInt32.ofNat e.config.ramBytes)))
        (env.observe (.initMemory e.config.ramBytes)
          (env.observe (.configure e.kind image.length e.config.ramMib) e.machine.world)))) :=
    henv.observe (by simp) (henv.observe (by simp)
      (henv.observe (by simp) (henv.observe (by simp) he)))
  rw [prepare, load]
  split <;> exact hstart

/-- **An execution that reaches its exit ends with the final registers**, and up to there the
environment has kept what it keeps. -/
theorem world_of_execute_halted (henv : env.Keeps P) (he : P e.machine.world) {patience : Nat}
    {image : List UInt8} {registers : RegisterFile}
    (h : (e.execute env patience image).1 = .halted registers) :
    ∃ world, P world ∧
      (e.execute env patience image).2.machine.world = env.observe (.halt registers) world := by
  have hprepared := keeps_prepare henv he image
  rw [execute] at h ⊢
  rcases hprepare : e.prepare env image with ⟨_ | _, prepared⟩
  all_goals simp only [hprepare] at h hprepared ⊢
  · contradiction
  · have hrun := keeps_run henv hprepared patience
    rcases hend : prepared.run env patience with ⟨ending, e'⟩
    rw [hend] at h hrun
    cases ending with
    | halted =>
        obtain rfl := RunResult.halted.inj h
        exact ⟨e'.machine.world, hrun, rfl⟩
    | faulted _ | unfinished => contradiction

end Engine

end RegisterMachine
