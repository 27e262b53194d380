/-
A program stays inside its memory, and faults tell the truth.

Whatever bytes a program consists of and whatever addresses it computes, a run from a
loaded image keeps the length of the memory, uses no index that is out of range, and if it
ends in a fault, the fault describes the guest as it was before the failing step.

A handler of system calls is a part of the run, so something has to be asked of it: it
reaches the guest only through the operations on registers and memory, and a fault that it
passes on is one that such an operation has raised.  `Confined` says so without looking at
how the handler is written.  An access raises a fault only for what ends outside the
memory, and no operation changes the length, so nothing more has to be known.
-/
import RegisterMachine.Machine.Console
import RegisterMachine.Proofs.Machine.Indexing
import RegisterMachine.Proofs.Machine.Run
import RegisterMachine.Proofs.Machine.Step

namespace RegisterMachine

/-! ### Handlers -/

/-- Operations on registers and memory lead from one guest to the other. -/
inductive Guest.LeadsTo (g : Guest) : Guest → Prop
  | refl : LeadsTo g g
  | set {g' : Guest} (h : LeadsTo g g') (r : Register) (value : Word) : LeadsTo g (g'.set r value)
  | writeWord {g' : Guest} (h : LeadsTo g g') {addr value : Word} {memory : Memory}
      (hwrite : g'.memory.writeWord addr value = .ok memory) : LeadsTo g { g' with memory }
  | loadImage {g' : Guest} (h : LeadsTo g g') {image : List UInt8} {memory : Memory}
      (hload : g'.memory.loadImage image = .ok memory) : LeadsTo g { g' with memory }

/-- Some access to the memory ends with the fault. -/
inductive Memory.Raises (m : Memory) (fault : Fault) : Prop
  | slice {addr : Word} {size : Nat} (h : m.slice addr size = .error fault)
  | readWord {addr : Word} (h : m.readWord addr = .error fault)
  | writeWord {addr value : Word} (h : m.writeWord addr value = .error fault)
  | window {addr : Word} (h : m.window addr = .error fault)

/-- A handler that touches a guest only through operations on its registers and its memory,
and passes on as faults only those that these operations raise. -/
structure SyscallHandler.Confined {ω : Type} (serve : SyscallHandler ω) : Prop where
  leadsTo (id : Word) (g : Guest) (world : ω) : g.LeadsTo (serve id g world).2.1
  raises (id : Word) (g : Guest) (world : ω) (fault : Fault)
    (h : (serve id g world).1 = .error (.fault fault)) :
    ∃ g', g.LeadsTo g' ∧ g'.memory.Raises fault

theorem Guest.LeadsTo.length_memory {g g' : Guest} (h : g.LeadsTo g') :
    g'.memory.length = g.memory.length := by
  induction h with
  | refl => rfl
  | set _ _ _ ih => exact ih
  | writeWord _ hwrite ih => exact (Memory.length_of_writeWord hwrite).trans ih
  | loadImage _ hload ih => exact (Memory.length_of_loadImage hload).trans ih

theorem Memory.Raises.refuses {m : Memory} {fault : Fault} (h : m.Raises fault) :
    ∃ addr size, m.Refuses addr size fault := by
  cases h with
  | slice h => exact ⟨_, _, slice_eq_error.mp h⟩
  | readWord h => exact ⟨_, _, readWord_eq_error.mp h⟩
  | writeWord h => exact ⟨_, _, writeWord_eq_error.mp h⟩
  | window h => exact ⟨_, _, window_eq_error.mp h⟩

theorem Console.confined_handler {ω : Type} (write : List UInt8 → ω → ω) :
    SyscallHandler.Confined (handler write) where
  leadsTo id g world := by
    unfold handler
    split
    · exact .refl
    · split <;> exact .refl
  raises id g world fault h := by
    unfold handler at h
    split at h
    · simp at h
    · split at h
      · rename_i cause hargument
        obtain rfl := SyscallError.fault.inj (Except.error.inj h)
        exact ⟨g, .refl, .readWord hargument⟩
      · contradiction

/-! ### Faults -/

/-- What a fault says is so of the guest before the failing step.  An access out of bounds
ends behind the memory, in numbers that do not wrap; bytes that are not decoded stand at the
program counter; and a system call that fails was entered, by the identifier on the stack. -/
def Fault.TrueOf (g : Guest) : Fault → Prop
  | outOfBounds addr size length =>
    length = g.memory.length ∧ g.memory.length < addr.toNat + size
  | decode addr cause =>
    addr = g.get .pc ∧ Instr.decode (g.memory.bytesFrom addr) = .error cause
  | unhandledSyscall id | syscallFailed id _ =>
    g.get .pc = 0 ∧ id ≠ 0 ∧ g.memory.readWord (g.get .sp + 4) = .ok id
  | budgetExhausted _ => False

theorem Fault.trueOf_of_refuses {g : Guest} {m : Memory} {addr : Word} {size : Nat} {fault : Fault}
    (hlength : m.length = g.memory.length) (h : m.Refuses addr size fault) : fault.TrueOf g := by
  obtain ⟨rfl, houtside⟩ := h
  exact ⟨hlength, by omega⟩

namespace Machine

variable {ω : Type} {env : Environment ω} {m m' : Machine ω}

theorem length_memory_of_step (hserve : env.serve.Confined) {result : Except Fault Progress}
    (h : m.step env = (result, m')) : m'.guest.memory.length = m.guest.memory.length := by
  have hhandled : ∀ {id : Word} {world world' : ω} {guest : Guest} {outcome},
      env.serve id m.guest world = (outcome, guest, world') →
        guest.memory.length = m.guest.memory.length := by
    intro id world world' guest outcome hresult
    have hleads := hserve.leadsTo id m.guest world
    rw [hresult] at hleads
    exact hleads.length_memory
  cases stepped_of_step h with
  | unidentified _ _ | exited _ _ | unfetched _ _ | undecoded _ _ _ => rfl
  | unserved _ _ _ hresult => exact hhandled hresult
  | served _ _ _ hresult hretire =>
      rw [guest_of_retire hretire, Effect.length_perform]
      exact hhandled hresult
  | executed _ _ _ hretire => rw [guest_of_retire hretire, Effect.length_perform]

/-- **A step that fails gives a fault that is true of the guest before it.** -/
theorem trueOf_of_step (hserve : env.serve.Confined) {fault : Fault}
    (h : m.step env = (.error fault, m')) : fault.TrueOf m.guest := by
  generalize hresult : (Except.error fault : Except Fault Progress) = result at h
  cases stepped_of_step h with
  | unidentified _ hid =>
      obtain rfl := Except.error.inj hresult
      exact Fault.trueOf_of_refuses rfl (Memory.readWord_eq_error.mp hid)
  | exited _ _ => contradiction
  | @unserved id e guest world hpc hid hne hcall =>
      obtain rfl := Except.error.inj hresult
      cases e with
      | unhandled => exact ⟨hpc, hne, hid⟩
      | failed message => exact ⟨hpc, hne, hid⟩
      | fault fault =>
          obtain ⟨g, hleads, hraises⟩ := hserve.raises id m.guest
            (env.observe (.syscall id m.guest.registers) m.world) fault (by rw [hcall])
          obtain ⟨addr, size, hrefuses⟩ := hraises.refuses
          exact Fault.trueOf_of_refuses hleads.length_memory hrefuses
  | @served id guest world _ _ hpc hid hne hcall hretire =>
      have hleads := hserve.leadsTo id m.guest
        (env.observe (.syscall id m.guest.registers) m.world)
      rw [hcall] at hleads
      subst hresult
      obtain ⟨addr, hrefuses⟩ := Effect.refuses_of_perform (outcome_of_retire_error hretire)
      exact Fault.trueOf_of_refuses hleads.length_memory hrefuses
  | unfetched _ hwindow =>
      obtain rfl := Except.error.inj hresult
      exact Fault.trueOf_of_refuses rfl (Memory.window_eq_error.mp hwindow)
  | undecoded _ hwindow hdecode =>
      obtain rfl := Except.error.inj hresult
      refine ⟨rfl, ?_⟩
      rw [← Memory.decode_window hwindow]
      exact hdecode
  | executed _ _ _ hretire =>
      subst hresult
      obtain ⟨addr, hrefuses⟩ := Effect.refuses_of_perform (outcome_of_retire_error hretire)
      exact Fault.trueOf_of_refuses rfl hrefuses

end Machine

namespace Engine

open Machine

variable {ω : Type} {env : Environment ω}

/-- **A program stays inside its memory, and its faults tell the truth.**

The image is loaded.  From there on, after any number of steps, the memory has the length
that is configured; no index in a step is out of range, nor in any access that a handler can
make; and if the step fails, what its fault says is so of the guest before it.  A run that
ends in a fault has used up its budget or ends with such a step. -/
theorem run_stays_in_sandbox (hserve : env.serve.Confined) (e : Engine ω) {image : List UInt8}
    (hfits : image.length ≤ e.config.ramBytes) :
    (∀ memory : Memory, memory.IndexesInside) ∧
    ∃ loaded, (e.init env).load env image = (.ok (), loaded) ∧
      (∀ n m, Steps env n (loaded.started env) m →
        m.guest.memory.length = e.config.ramBytes ∧
        m.stepStrict env = some (m.step env) ∧
        ∀ result m', m.step env = (result, m') →
          m'.guest.memory.length = e.config.ramBytes ∧
          ∀ fault, result = .error fault → fault.TrueOf m.guest) ∧
      ∀ patience fault e', loaded.run env patience = (.faulted fault, e') →
        (∃ budget, e.config.budget? = some budget ∧ budget ≤ e'.executed ∧
          fault = .budgetExhausted budget) ∨
        ∃ n m, Steps env n (loaded.started env) m ∧ m.step env = (.error fault, e'.machine) ∧
          fault.TrueOf m.guest := by
  obtain ⟨loaded, hload, hconfig, hlength⟩ := load_init_of_le env e hfits
  refine ⟨fun memory => memory.indexesInside, loaded, hload, ?_, ?_⟩
  · intro n m hsteps
    have hm : m.guest.memory.length = e.config.ramBytes :=
      hsteps.keeps (P := fun m => m.guest.memory.length = e.config.ramBytes)
        (fun m mid hm hstep => (length_memory_of_step hserve hstep).trans hm) hlength
    refine ⟨hm, m.stepStrict_eq env, fun result m' hstep => ⟨?_, ?_⟩⟩
    · exact (length_memory_of_step hserve hstep).trans hm
    · rintro fault rfl
      exact trueOf_of_step hserve hstep
  · intro patience fault e' hrun
    rw [← hconfig]
    rcases run_faulted hrun with hbudget | ⟨n, m, hsteps, hstep⟩
    · exact Or.inl hbudget
    · exact Or.inr ⟨n, m, hsteps, hstep, trueOf_of_step hserve hstep⟩

/-- A program that calls for a byte to be written and gives none: the identifier of the call
is the only word on its stack, so the argument would stand behind the end of memory. -/
def argumentless : List UInt8 :=
  [0x1f, 0, 0, 0, 0] ++ [0x07, 0, 1, 0, 0, 0] ++ [0x16, 0] ++ [0x1b, 0, 0, 0, 0]

/-- An environment whose world is what has been written. -/
def consoleEnvironment : Environment (List UInt8) :=
  .silent (Console.handler fun bytes written => written ++ bytes)

theorem run_stays_in_sandbox_argumentless :
    ∃ loaded n m e',
      ((create .standard []).init consoleEnvironment).load consoleEnvironment argumentless
          = (.ok (), loaded) ∧
        consoleEnvironment.serve.Confined ∧ argumentless.length ≤ EngineConfig.standard.ramBytes ∧
        loaded.run consoleEnvironment 5
          = (.faulted (.outOfBounds 0x400000 4 0x400000), e') ∧
        Steps consoleEnvironment n (loaded.started consoleEnvironment) m ∧
        m.step consoleEnvironment
          = (.error (.outOfBounds 0x400000 4 0x400000), e'.machine) ∧
        (Fault.outOfBounds 0x400000 4 0x400000).TrueOf m.guest := by
  have hconfined : consoleEnvironment.serve.Confined :=
    Console.confined_handler fun bytes written => written ++ bytes
  have hfits : argumentless.length ≤ EngineConfig.standard.ramBytes := by decide
  obtain ⟨-, loaded, hload, -, hfaults⟩ :=
    run_stays_in_sandbox hconfined (create .standard []) hfits
  obtain rfl : (((create .standard []).init consoleEnvironment).load consoleEnvironment
      argumentless).2 = loaded := congrArg Prod.snd hload
  have hrun : ((((create .standard []).init consoleEnvironment).load consoleEnvironment
      argumentless).2.run consoleEnvironment 5).1
        = .faulted (.outOfBounds 0x400000 4 0x400000) := by decide +kernel
  rcases hfaults 5 _ _ (Prod.ext hrun rfl) with ⟨_, hbudget, _⟩ | ⟨n, m, hsteps, hstep, htrue⟩
  · contradiction
  · exact ⟨_, n, m, _, hload, hconfined, hfits, Prod.ext hrun rfl, hsteps, hstep, htrue⟩

end Engine

end RegisterMachine
