/-
What a fault leaves behind.

An instruction makes at most one access that can fail, and everything it does before that
access would show after a fault.  All instructions but one begin with the access, so they
leave the guest alone.  A push makes room on the stack first and then writes, so after it
has failed the stack pointer is four below where it was; `afterFault` says this, and
`execute_fault` that it is the only trace.
-/
import RegisterMachine.Machine.Engine

namespace RegisterMachine

/-- The instruction at an address, if one can be fetched and decoded. -/
def Memory.decodedAt? (m : Memory) (addr : Word) : Option Instruction :=
  match m.window addr with
  | .ok window => (Instr.decode window).toOption
  | .error _ => none

namespace Guest

@[simp] theorem get_set (g : Guest) (r s : Register) (value : Word) :
    (g.set r value).get s = if s = r then value else g.get s :=
  RegisterFile.get_set g.registers r s value

@[simp] theorem memory_set (g : Guest) (r : Register) (value : Word) :
    (g.set r value).memory = g.memory := rfl

/-! ### Instructions that fail -/

theorem reading_fault {g g' : Guest} {addr : Word} {next : Word → Guest} {fault : Fault}
    (h : g.reading addr next = (.error fault, g')) : g' = g := by
  unfold reading at h
  split at h
  · simp at h
  · exact (Prod.mk.inj h).2.symm

theorem writing_fault {g g' : Guest} {addr value : Word} {next : Guest → Guest} {fault : Fault}
    (h : g.writing addr value next = (.error fault, g')) : g' = g := by
  unfold writing at h
  split at h
  · simp at h
  · exact (Prod.mk.inj h).2.symm

/-- What is left of a guest when its instruction fails. -/
def afterFault (g : Guest) : Instruction → Guest
  | .push _ => g.set .sp (g.get .sp - 4)
  | _ => g

theorem execute_fault {g g' : Guest} {i : Instruction} {fault : Fault}
    (h : g.execute i = (.error fault, g')) : g' = g.afterFault i := by
  cases i with
  | load _ _ | pop _ | ret =>
      simp only [execute] at h
      exact reading_fault h
  | store _ _ | push _ | call _ =>
      simp only [execute] at h
      exact writing_fault h
  | jump c target =>
      simp only [execute] at h
      split at h <;> simp at h
  | mov _ _ | alu _ _ _ | not _ | cmp _ _ => simp [execute] at h

/-- The instruction at the program counter, if one can be fetched and decoded. -/
def nextInstruction? (g : Guest) : Option Instruction :=
  g.memory.decodedAt? (g.get .pc)

end Guest

/-! ### Steps that fail -/

namespace Machine

variable {ω : Type}

theorem retire_fault {env : Environment ω} {world : ω} {result : Except Fault Unit × Guest}
    {m' : Machine ω} {fault : Fault} (h : retire env world result = (.error fault, m')) :
    result = (.error fault, m'.guest) := by
  unfold retire at h
  split at h
  · obtain ⟨hfault, rfl⟩ := Prod.mk.inj h
    rw [Except.error.inj hfault]
  · simp at h

/-- A step that fails leaves the guest alone if there is no instruction to execute, and as
the instruction leaves it otherwise. -/
theorem step_fault {env : Environment ω} {m m' : Machine ω} {fault : Fault}
    (hpc : m.guest.get .pc ≠ syscallEntry) (h : m.step env = (.error fault, m')) :
    m'.guest = (m.guest.nextInstruction?.map m.guest.afterFault).getD m.guest := by
  rw [step, if_neg hpc] at h
  simp only [executeNext] at h
  unfold Guest.nextInstruction? Memory.decodedAt?
  split at h
  · rename_i hwindow
    rw [hwindow]
    exact congrArg guest (Prod.mk.inj h).2.symm
  · rename_i window hwindow
    rw [hwindow]
    dsimp only
    split at h
    · rename_i hdecode
      rw [hdecode]
      exact congrArg guest (Prod.mk.inj h).2.symm
    · rename_i i hdecode
      rw [hdecode]
      exact Guest.execute_fault (retire_fault h)

end Machine

namespace Engine

variable {ω : Type}

/-- **What a step that fails leaves of the guest.**  Memory and registers are as they were,
except that a push has lowered the stack pointer.  Nobody who observes the run can change
that. -/
theorem step_fault_keeps_guest {env : Environment ω} {e e' : Engine ω} {fault : Fault}
    (hpc : e.machine.guest.get .pc ≠ syscallEntry) (h : e.step env = (.error fault, e')) :
    e'.machine.guest.memory = e.machine.guest.memory ∧
      ((∀ r, e.machine.guest.nextInstruction? ≠ some (.push r)) →
        ∀ s, e'.machine.guest.get s = e.machine.guest.get s) ∧
      ∀ r, e.machine.guest.nextInstruction? = some (.push r) →
        ∀ s, e'.machine.guest.get s
          = if s = .sp then e.machine.guest.get .sp - 4 else e.machine.guest.get s := by
  have hguest : e'.machine.guest
      = (e.machine.guest.nextInstruction?.map e.machine.guest.afterFault).getD e.machine.guest := by
    obtain ⟨hresult, rfl⟩ := Prod.mk.inj h
    exact Machine.step_fault hpc (Prod.ext hresult rfl)
  rw [hguest]
  cases e.machine.guest.nextInstruction? with
  | none => simp
  | some i =>
      cases i with
      | push r => simp [Guest.afterFault]
      | _ => simp [Guest.afterFault]

/-- An engine that is about to push with the stack at address 0, so that the room for the
word wraps around to the end of the address space. -/
def pushAtBottom : Engine Unit :=
  ⟨.standard, ⟨⟨.reset 0, (Memory.zeroed 0x400000).setByte 5 0x16⟩, ()⟩, 0⟩

theorem step_fault_keeps_guest_push :
    ∃ e', pushAtBottom.step (.silent (noSyscalls Unit))
        = (.error (.outOfBounds 0xfffffffc 4 0x400000), e') ∧
      pushAtBottom.machine.guest.get .pc ≠ syscallEntry ∧
      pushAtBottom.machine.guest.nextInstruction? = some (.push (.general 0)) ∧
      e'.machine.guest.memory = pushAtBottom.machine.guest.memory ∧
      ∀ s, e'.machine.guest.get s
        = if s = .sp then pushAtBottom.machine.guest.get .sp - 4
          else pushAtBottom.machine.guest.get s := by
  have hpc : pushAtBottom.machine.guest.get .pc ≠ syscallEntry := by decide
  have hstep : pushAtBottom.step (.silent (noSyscalls Unit))
      = (.error (.outOfBounds 0xfffffffc 4 0x400000),
        (pushAtBottom.step (.silent (noSyscalls Unit))).2) := rfl
  have hnext : pushAtBottom.machine.guest.nextInstruction? = some (.push (.general 0)) := rfl
  obtain ⟨hmemory, -, hpush⟩ := step_fault_keeps_guest hpc hstep
  exact ⟨_, hstep, hpc, hnext, hmemory, hpush _ hnext⟩

/-- A step that fails does not leave every register as it was. -/
theorem step_fault_can_move_sp :
    ¬∀ (env : Environment Unit) (e e' : Engine Unit) (fault : Fault),
      e.machine.guest.get .pc ≠ syscallEntry → e.step env = (.error fault, e') →
        e'.machine.guest.memory = e.machine.guest.memory ∧
          ∀ s, e'.machine.guest.get s = e.machine.guest.get s := by
  intro h
  have hsp := (h (.silent (noSyscalls Unit)) pushAtBottom _ _ (by decide) rfl).2 .sp
  exact absurd hsp (by decide)

end Engine

end RegisterMachine
