/-
What a step can do.

A step goes one of seven ways: four through a system call, three through an instruction.
`Stepped` lists them, each with the conditions under which it is taken, and
`stepped_of_step` says that there is no other.  What is to be said of every step is then
said of each way, and no proof has to unfold a step again.
-/
import RegisterMachine.Machine.Step
import RegisterMachine.Proofs.Machine.Effect

namespace RegisterMachine.Machine

variable {ω : Type} {env : Environment ω} {m m' : Machine ω}
  {result : Except Fault Progress}

/-- The ways of a step. -/
inductive Stepped (env : Environment ω) (m : Machine ω) :
    Except Fault Progress → Machine ω → Prop
  /-- At the entry of a system call there is no identifier to be read. -/
  | unidentified {fault : Fault} (hpc : m.guest.get .pc = syscallEntry)
      (hid : m.guest.memory.readWord (m.guest.get .sp + 4) = .error fault) :
      Stepped env m (.error fault) m
  /-- The system call is the one that ends the run. -/
  | exited (hpc : m.guest.get .pc = syscallEntry)
      (hid : m.guest.memory.readWord (m.guest.get .sp + 4) = .ok exitSyscall) :
      Stepped env m (.ok .halted) (m.tell env (.syscall exitSyscall m.guest.registers))
  /-- The handler does not serve the call. -/
  | unserved {id : Word} {e : SyscallError} {guest : Guest} {world : ω}
      (hpc : m.guest.get .pc = syscallEntry)
      (hid : m.guest.memory.readWord (m.guest.get .sp + 4) = .ok id) (hne : id ≠ exitSyscall)
      (hserve : env.serve id m.guest (env.observe (.syscall id m.guest.registers) m.world)
        = (.error e, guest, world)) :
      Stepped env m (.error (e.toFault id)) ⟨guest, world⟩
  /-- The handler has served the call, and control returns to the caller if it can. -/
  | served {id : Word} {guest : Guest} {world : ω} {result : Except Fault Progress}
      {m' : Machine ω} (hpc : m.guest.get .pc = syscallEntry)
      (hid : m.guest.memory.readWord (m.guest.get .sp + 4) = .ok id) (hne : id ≠ exitSyscall)
      (hserve : env.serve id m.guest (env.observe (.syscall id m.guest.registers) m.world)
        = (.ok (), guest, world))
      (hretire : retire env world ((Effect.ret guest.registers).perform guest) = (result, m')) :
      Stepped env m result m'
  /-- The program counter is outside the memory. -/
  | unfetched {fault : Fault} (hpc : m.guest.get .pc ≠ syscallEntry)
      (hwindow : m.guest.memory.window (m.guest.get .pc) = .error fault) :
      Stepped env m (.error fault) m
  /-- No instruction stands at the program counter. -/
  | undecoded {window : List UInt8} {cause : DecodeError}
      (hpc : m.guest.get .pc ≠ syscallEntry)
      (hwindow : m.guest.memory.window (m.guest.get .pc) = .ok window)
      (hdecode : Instr.decode window = .error cause) :
      Stepped env m (.error (.decode (m.guest.get .pc) cause)) m
  /-- The instruction at the program counter is executed. -/
  | executed {window : List UInt8} {i : Instruction} {result : Except Fault Progress}
      {m' : Machine ω} (hpc : m.guest.get .pc ≠ syscallEntry)
      (hwindow : m.guest.memory.window (m.guest.get .pc) = .ok window)
      (hdecode : Instr.decode window = .ok i)
      (hretire : retire env
          (env.observe (.instruction (m.guest.get .pc) (window.take i.size) i m.guest.registers)
            m.world)
          ((i.effect m.guest.registers).perform m.guest) = (result, m')) :
      Stepped env m result m'

theorem stepped_of_enterSyscall (hpc : m.guest.get .pc = syscallEntry)
    (h : m.enterSyscall env = (result, m')) : Stepped env m result m' := by
  unfold enterSyscall at h
  cases hid : m.guest.memory.readWord (m.guest.get .sp + 4) with
  | error fault =>
      simp only [hid] at h
      obtain ⟨rfl, rfl⟩ := Prod.mk.inj h
      exact .unidentified hpc hid
  | ok id =>
      simp only [hid, tell] at h
      by_cases hexit : id = exitSyscall
      · rw [if_pos hexit] at h
        obtain ⟨rfl, rfl⟩ := Prod.mk.inj h
        subst hexit
        exact .exited hpc hid
      · rw [if_neg hexit] at h
        rcases hserve : env.serve id m.guest
          (env.observe (.syscall id m.guest.registers) m.world) with ⟨_ | _, guest, world⟩
        · simp only [hserve] at h
          obtain ⟨rfl, rfl⟩ := Prod.mk.inj h
          exact .unserved hpc hid hexit hserve
        · simp only [hserve, Guest.ret_eq_perform] at h
          exact .served hpc hid hexit hserve h

theorem stepped_of_executeNext (hpc : m.guest.get .pc ≠ syscallEntry)
    (h : m.executeNext env = (result, m')) : Stepped env m result m' := by
  unfold executeNext at h
  cases hwindow : m.guest.memory.window (m.guest.get .pc) with
  | error fault =>
      simp only [hwindow] at h
      obtain ⟨rfl, rfl⟩ := Prod.mk.inj h
      exact .unfetched hpc hwindow
  | ok window =>
      cases hdecode : Instr.decode window with
      | error cause =>
          simp only [hwindow, hdecode] at h
          obtain ⟨rfl, rfl⟩ := Prod.mk.inj h
          exact .undecoded hpc hwindow hdecode
      | ok i =>
          simp only [hwindow, hdecode, tell, Guest.execute_eq_perform] at h
          exact .executed hpc hwindow hdecode h

/-- **A step goes one of the listed ways.** -/
theorem stepped_of_step (h : m.step env = (result, m')) : Stepped env m result m' := by
  unfold step at h
  by_cases hpc : m.guest.get .pc = syscallEntry
  · rw [if_pos hpc] at h
    exact stepped_of_enterSyscall hpc h
  · rw [if_neg hpc] at h
    exact stepped_of_executeNext hpc h

/-- How the last action of a step ends it: with a fault as it is, otherwise with word to the
environment. -/
theorem retire_cases {world : ω} {outcome : Except Fault Unit × Guest}
    (h : retire env world outcome = (result, m')) :
    (∃ fault, outcome.1 = .error fault ∧ result = .error fault ∧ m' = ⟨outcome.2, world⟩) ∨
      (outcome.1 = .ok () ∧ result = .ok .continues ∧
        m' = ⟨outcome.2, env.observe (.retired outcome.2.registers) world⟩) := by
  rcases outcome with ⟨fault | _, guest⟩
  · obtain ⟨rfl, rfl⟩ := Prod.mk.inj h
    exact Or.inl ⟨fault, rfl, rfl, rfl⟩
  · obtain ⟨rfl, rfl⟩ := Prod.mk.inj h
    exact Or.inr ⟨rfl, rfl, rfl⟩

theorem guest_of_retire {world : ω} {outcome : Except Fault Unit × Guest}
    (h : retire env world outcome = (result, m')) : m'.guest = outcome.2 := by
  rcases retire_cases h with ⟨_, _, _, rfl⟩ | ⟨_, _, rfl⟩ <;> rfl

theorem outcome_of_retire_error {world : ω} {outcome : Except Fault Unit × Guest} {fault : Fault}
    (h : retire env world outcome = (.error fault, m')) : outcome.1 = .error fault := by
  rcases retire_cases h with ⟨_, houtcome, hresult, _⟩ | ⟨_, hresult, _⟩
  · rw [houtcome, Except.error.inj hresult]
  · contradiction

theorem guest_of_step_halted (h : m.step env = (.ok .halted, m')) : m'.guest = m.guest := by
  cases stepped_of_step h with
  | exited _ _ => rfl
  | served _ _ _ _ hretire | executed _ _ _ hretire =>
      rcases retire_cases hretire with ⟨_, _, hresult, _⟩ | ⟨_, hresult, _⟩
      · contradiction
      · exact absurd (Except.ok.inj hresult) (by decide)

/-! ### Steps at known bytes -/

/-- A step at an instruction announces it with its bytes and executes it. -/
theorem step_of_decode {window : List UInt8} {i : Instruction}
    (hpc : m.guest.get .pc ≠ syscallEntry)
    (hwindow : m.guest.memory.window (m.guest.get .pc) = .ok window)
    (hdecode : Instr.decode window = .ok i) :
    m.step env = retire env
      (env.observe (.instruction (m.guest.get .pc)
        (m.guest.memory.bytesAt (m.guest.get .pc).toNat i.size) i m.guest.registers) m.world)
      (m.guest.execute i) := by
  rw [step, if_neg hpc, executeNext]
  simp only [hwindow, hdecode, Memory.take_window hwindow hdecode]
  rfl

theorem step_of_decode_error {window : List UInt8} {cause : DecodeError}
    (hpc : m.guest.get .pc ≠ syscallEntry)
    (hwindow : m.guest.memory.window (m.guest.get .pc) = .ok window)
    (hdecode : Instr.decode window = .error cause) :
    m.step env = (.error (.decode (m.guest.get .pc) cause), m) := by
  rw [step, if_neg hpc, executeNext]
  simp only [hwindow, hdecode]

end RegisterMachine.Machine
