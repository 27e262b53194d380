/-
What a step leaves alone.

From an instruction alone one can tell which registers it may change, and from the registers
which word of memory it may write.  `Instr.changed` and `Instr.written?` say so; that nothing
else changes is shown for effects, where each instruction is one of three kinds, and so
covers every register in every role.

A step is an effect on the guest as the handler of system calls has left it, if the step
calls it at all (`guest_of_step`).  So what is asked of a run can be asked of the machines
that it visits, one by one: what the handler does there, which word is written from there.
It does not matter that a run may overwrite its own code, as each machine is asked for the
instruction that stands in its own memory.
-/
import RegisterMachine.Proofs.Machine.Fault
import RegisterMachine.Proofs.Machine.Run
import RegisterMachine.Proofs.Machine.Step

namespace RegisterMachine

/-! ### What an instruction may change -/

namespace Instr

variable {α : Type}

/-- The register that an instruction is told to put its result in. -/
def destination? : Instr α → Option Register
  | load dst _ | mov dst _ | alu _ dst _ | not dst | pop dst => some dst
  | _ => none

/-- The registers that an instruction may change. -/
def changed : Instr α → List Register
  | load dst _ | mov dst _ | alu _ dst _ | not dst => [dst, .pc]
  | cmp _ _ => [.flags, .pc]
  | pop dst => [dst, .sp, .pc]
  | push _ | call _ | ret => [.sp, .pc]
  | store _ _ | jump _ _ => [.pc]

/-- The word that an instruction writes to memory. -/
def written? (f : RegisterFile) : Instr α → Option Word
  | store dst _ => some (f.get dst)
  | push _ | call _ => some (f.get .sp - 4)
  | _ => none

/-- Whether the instruction decides where to go on. -/
def transfers : Instr α → Bool
  | call _ | ret | jump _ _ => true
  | _ => false

theorem general_mem_changed {i : Instr α} {k : Fin 13} :
    .general k ∈ i.changed ↔ i.destination? = some (.general k) := by
  cases i <;> simp [changed, destination?, eq_comm]

/-- The flags are changed by a comparison, and otherwise only as a destination. -/
theorem flags_mem_changed {i : Instr α} :
    .flags ∈ i.changed ↔ (∃ dst src, i = .cmp dst src) ∨ i.destination? = some .flags := by
  cases i <;> simp [changed, destination?, eq_comm]

end Instr

namespace Effect

/-- Whatever an effect leaves of the registers when it succeeds, `p` holds of it. -/
def Leaves (p : RegisterFile → Prop) : Effect → Prop
  | registers after => p after
  | read _ after => ∀ value, p (after value)
  | write _ _ _ after => p after

/-- An effect keeps a register, also when it fails. -/
def Keeps (f : RegisterFile) (r : Register) : Effect → Prop
  | registers after => after.get r = f.get r
  | read _ after => ∀ value, (after value).get r = f.get r
  | write before _ _ after => before.get r = f.get r ∧ after.get r = f.get r

/-- The word that an effect writes. -/
def written? : Effect → Option Word
  | write _ addr _ _ => some addr
  | _ => none

theorem leaves_of_perform {effect : Effect} {p : RegisterFile → Prop} {g : Guest}
    (h : effect.Leaves p) (hok : (effect.perform g).1 = .ok ()) :
    p (effect.perform g).2.registers := by
  cases effect with
  | registers after => exact h
  | read addr after =>
      rw [perform] at hok ⊢
      cases hread : g.memory.readWord addr with
      | ok value => exact h value
      | error fault => simp [hread] at hok
  | write before addr value after =>
      rw [perform] at hok ⊢
      cases hwrite : g.memory.writeWord addr value with
      | ok memory => exact h
      | error fault => simp [hwrite] at hok

theorem get_perform {effect : Effect} {r : Register} {g : Guest}
    (h : effect.Keeps g.registers r) : (effect.perform g).2.get r = g.get r := by
  cases effect with
  | registers after => exact h
  | read addr after =>
      rw [perform]
      cases g.memory.readWord addr with
      | ok value => exact h value
      | error fault => rfl
  | write before addr value after =>
      rw [perform]
      cases g.memory.writeWord addr value with
      | ok memory => exact h.2
      | error fault => exact h.1

theorem byte_perform {effect : Effect} {g : Guest} {a : Nat}
    (h : ∀ addr, effect.written? = some addr → ¬addr.Covers a) :
    (effect.perform g).2.memory.byte a = g.memory.byte a := by
  cases effect with
  | registers after => rfl
  | read addr after =>
      rw [perform]
      cases g.memory.readWord addr <;> rfl
  | write before addr value after =>
      rw [perform]
      cases hwrite : g.memory.writeWord addr value with
      | error fault => rfl
      | ok memory => exact Memory.byte_writeWord hwrite (h addr rfl)

theorem keeps_ret (f : RegisterFile) {r : Register} (hsp : r ≠ .sp) (hpc : r ≠ .pc) :
    (Effect.ret f).Keeps f r := by
  intro value
  simp [RegisterFile.get_set, hsp, hpc]

end Effect

namespace Instr

/-- **An instruction keeps the registers that are not among those it may change.** -/
theorem keeps_effect (f : RegisterFile) {i : Instruction} {r : Register} (h : r ∉ i.changed) :
    (i.effect f).Keeps f r := by
  cases i <;> simp only [changed, List.mem_cons, List.not_mem_nil, or_false, not_or] at h
  case jump c target =>
    cases htaken : c.holds f.flags <;>
      simp [effect, htaken, Effect.Keeps, RegisterFile.advance, RegisterFile.get_set, h]
  all_goals simp [effect, Effect.ret, Effect.Keeps, RegisterFile.advance, RegisterFile.get_set, h]

theorem written?_effect (f : RegisterFile) (i : Instruction) :
    (i.effect f).written? = i.written? f := by
  cases i <;> simp [effect, Effect.ret, Effect.written?, written?, RegisterFile.get_set]

/-- Where an instruction does not decide otherwise, it goes on with what stands behind it. -/
theorem leaves_next_pc (f : RegisterFile) {i : Instruction} (htransfers : i.transfers = false)
    (hdestination : i.destination? ≠ some .pc) :
    (i.effect f).Leaves fun after => after.get .pc = f.get .pc + UInt32.ofNat i.size := by
  cases i <;> simp_all [effect, Effect.Leaves, RegisterFile.advance, RegisterFile.get_set,
    transfers, destination?, eq_comm]

end Instr

/-! ### What a step may change -/

namespace Memory

/-- The instruction that is executed when control gets to an address. -/
def instructionAt? (m : Memory) (addr : Word) : Option Instruction :=
  if addr = syscallEntry then none else m.decodedAt? addr

theorem instructionAt?_eq_some {m : Memory} {addr : Word} {i : Instruction} :
    m.instructionAt? addr = some i ↔ addr ≠ syscallEntry ∧
      ∃ window, m.window addr = .ok window ∧ Instr.decode window = .ok i := by
  unfold instructionAt? decodedAt?
  by_cases haddr : addr = syscallEntry
  · simp [haddr]
  · rw [if_neg haddr]
    cases m.window addr with
    | error fault => simp
    | ok window => cases hdecode : Instr.decode window <;> simp [haddr, hdecode, Except.toOption]

end Memory

namespace Guest

/-- The instruction that the next step executes. -/
def executes? (g : Guest) : Option Instruction :=
  g.memory.instructionAt? (g.get .pc)

/-- The system call that the next step makes the handler serve. -/
def calls? (g : Guest) : Option Word :=
  if g.get .pc = syscallEntry then
    match g.memory.readWord (g.get .sp + 4) with
    | .ok id => if id = exitSyscall then none else some id
    | .error _ => none
  else none

/-- The word that the next instruction writes to memory. -/
def writes? (g : Guest) : Option Word :=
  g.executes?.bind (·.written? g.registers)

/-- The register that the next instruction is told to put its result in. -/
def names? (g : Guest) : Option Register :=
  g.executes?.bind (·.destination?)

variable {g : Guest}

theorem executes?_eq_some {i : Instruction} :
    g.executes? = some i ↔ g.get .pc ≠ syscallEntry ∧
      ∃ window, g.memory.window (g.get .pc) = .ok window ∧ Instr.decode window = .ok i :=
  Memory.instructionAt?_eq_some

theorem calls?_eq_some {id : Word} :
    g.calls? = some id ↔ g.get .pc = syscallEntry ∧
      g.memory.readWord (g.get .sp + 4) = .ok id ∧ id ≠ exitSyscall := by
  unfold calls?
  by_cases hpc : g.get .pc = syscallEntry
  · rw [if_pos hpc]
    cases g.memory.readWord (g.get .sp + 4) with
    | error fault => simp
    | ok n =>
        by_cases hexit : n = exitSyscall
        · simp only [if_pos hexit, hpc, Except.ok.injEq, true_and, reduceCtorEq, false_iff]
          rintro ⟨rfl, hne⟩
          exact hne hexit
        · simp only [if_neg hexit, hpc, Except.ok.injEq, true_and, Option.some.injEq]
          exact ⟨fun h => ⟨h, h ▸ hexit⟩, And.left⟩
  · simp [hpc]

end Guest

namespace Machine

variable {ω : Type} {env : Environment ω} {m m' : Machine ω}

/-- The guest as the handler of system calls leaves it, if the next step calls the handler. -/
def handled (env : Environment ω) (m : Machine ω) : Guest :=
  match m.guest.calls? with
  | some id => (env.serve id m.guest (env.observe (.syscall id m.guest.registers) m.world)).2.1
  | none => m.guest

theorem handled_of_ne (hpc : m.guest.get .pc ≠ syscallEntry) : m.handled env = m.guest := by
  unfold handled Guest.calls?
  rw [if_neg hpc]

/-- **A step is at most one effect on the guest as the handler has left it.** -/
theorem guest_of_step (env : Environment ω) (m : Machine ω) :
    (m.step env).2.guest = m.handled env ∨
      (∃ id, m.guest.calls? = some id ∧ (m.step env).2.guest
        = ((Effect.ret (m.handled env).registers).perform (m.handled env)).2) ∨
      ∃ i, m.guest.executes? = some i ∧
        (m.step env).2.guest = ((i.effect m.guest.registers).perform m.guest).2 := by
  rcases hstep : m.step env with ⟨result, m'⟩
  cases stepped_of_step hstep with
  | unidentified hpc hid =>
      refine Or.inl ?_
      simp only [handled, Guest.calls?, if_pos hpc, hid]
  | exited hpc hid =>
      refine Or.inl ?_
      simp only [handled, Guest.calls?, if_pos hpc, hid, if_true]
      rfl
  | unserved hpc hid hne hserve =>
      have hcalls := Guest.calls?_eq_some.mpr ⟨hpc, hid, hne⟩
      refine Or.inl ?_
      simp only [handled, hcalls, hserve]
  | served hpc hid hne hserve hretire =>
      have hcalls := Guest.calls?_eq_some.mpr ⟨hpc, hid, hne⟩
      refine Or.inr (Or.inl ⟨_, hcalls, ?_⟩)
      rw [guest_of_retire hretire]
      simp only [handled, hcalls, hserve]
  | unfetched hpc _ => exact Or.inl (handled_of_ne hpc).symm
  | undecoded hpc _ _ => exact Or.inl (handled_of_ne hpc).symm
  | executed hpc hwindow hdecode hretire =>
      have hexecutes := Guest.executes?_eq_some.mpr ⟨hpc, _, hwindow, hdecode⟩
      exact Or.inr (Or.inr ⟨_, hexecutes, guest_of_retire hretire⟩)

theorem handled_of_executes {i : Instruction} (h : m.guest.executes? = some i) :
    m.handled env = m.guest :=
  handled_of_ne (Guest.executes?_eq_some.mp h).1

theorem length_step (env : Environment ω) (m : Machine ω) :
    (m.step env).2.guest.memory.length = (m.handled env).memory.length := by
  rcases guest_of_step env m with hguest | ⟨_, _, hguest⟩ | ⟨i, hi, hguest⟩
  · rw [hguest]
  · rw [hguest, Effect.length_perform]
  · rw [hguest, Effect.length_perform, handled_of_executes hi]

/-- **A byte outside the word that a step writes stays as the handler has left it.** -/
theorem byte_step (env : Environment ω) {m : Machine ω} {a : Nat}
    (hwrites : ∀ addr, m.guest.writes? = some addr → ¬addr.Covers a) :
    (m.step env).2.guest.memory.byte a = (m.handled env).memory.byte a := by
  rcases guest_of_step env m with hguest | ⟨_, _, hguest⟩ | ⟨i, hi, hguest⟩
  · rw [hguest]
  · rw [hguest]
    exact Effect.byte_perform fun _ hret => nomatch hret
  · rw [hguest, handled_of_executes hi]
    refine Effect.byte_perform fun addr haddr => hwrites addr ?_
    rw [Guest.writes?, hi]
    exact (Instr.written?_effect _ _).symm.trans haddr

/-- **A register that a step does not change stays as the handler has left it.**  The stack
pointer and the program counter are apart, as the return from a system call changes them. -/
theorem register_step (env : Environment ω) {m : Machine ω} {r : Register} (hsp : r ≠ .sp)
    (hpc : r ≠ .pc) (hkept : ∀ i, m.guest.executes? = some i → r ∉ i.changed) :
    (m.step env).2.guest.get r = (m.handled env).get r := by
  rcases guest_of_step env m with hguest | ⟨_, _, hguest⟩ | ⟨i, hi, hguest⟩
  · rw [hguest]
  · rw [hguest]
    exact Effect.get_perform (Effect.keeps_ret _ hsp hpc)
  · rw [hguest, handled_of_executes hi]
    exact Effect.get_perform (Instr.keeps_effect _ (hkept i hi))

theorem general_step (env : Environment ω) {m : Machine ω} {k : Fin 13}
    (hnames : m.guest.names? ≠ some (.general k)) :
    (m.step env).2.guest.get (.general k) = (m.handled env).get (.general k) := by
  refine register_step env (by simp) (by simp) fun i hi hmem => hnames ?_
  rw [Guest.names?, hi]
  exact Instr.general_mem_changed.mp hmem

/-- An instruction lies inside the memory, so the address behind it does not wrap around. -/
theorem toNat_pc_add_size (hlength : m.guest.memory.length ≤ 0x80000000) {i : Instruction}
    (h : m.guest.executes? = some i) :
    (m.guest.get .pc + UInt32.ofNat i.size).toNat = (m.guest.get .pc).toNat + i.size := by
  obtain ⟨-, window, hwindow, hdecode⟩ := Guest.executes?_eq_some.mp h
  have hfits := (Instr.decode_eq_ok hdecode).1
  obtain ⟨hinside, rfl⟩ := Memory.window_eq_ok.mp hwindow
  rw [Memory.length_bytesAt] at hfits
  rw [UInt32.toNat_add, UInt32.toNat_ofNat']
  omega

theorem executed_of_step {progress : Progress} (hpc : m.guest.get .pc ≠ syscallEntry)
    (h : m.step env = (.ok progress, m')) :
    ∃ i, m.guest.executes? = some i ∧
      (i.effect m.guest.registers).perform m.guest = (.ok (), m'.guest) := by
  generalize hresult : (Except.ok progress : Except Fault Progress) = result at h
  cases stepped_of_step h with
  | unidentified hentry _ | exited hentry _ | unserved hentry _ _ _ | served hentry _ _ _ _ =>
      exact absurd hentry hpc
  | unfetched _ _ | undecoded _ _ _ => contradiction
  | executed _ hwindow hdecode hretire =>
      refine ⟨_, Guest.executes?_eq_some.mpr ⟨hpc, _, hwindow, hdecode⟩, ?_⟩
      rcases retire_cases hretire with ⟨_, _, rfl, _⟩ | ⟨houtcome, _, rfl⟩
      · contradiction
      · exact Prod.ext houtcome rfl

/-- An instruction that goes on with what stands behind it does not get to the entry of system
calls. -/
theorem next_pc_of_step {i : Instruction}
    (hlength : m.guest.memory.length ≤ 0x80000000) (hi : m.guest.executes? = some i)
    (hperform : (i.effect m.guest.registers).perform m.guest = (.ok (), m'.guest))
    (htransfers : i.transfers = false) (hdestination : i.destination? ≠ some .pc) :
    (m'.guest.get .pc).toNat = (m.guest.get .pc).toNat + i.size ∧
      m'.guest.get .pc ≠ syscallEntry := by
  have hleaves := Effect.leaves_of_perform (Instr.leaves_next_pc _ htransfers hdestination)
    (congrArg Prod.fst hperform)
  rw [hperform] at hleaves
  have hnext : m'.guest.get .pc = m.guest.get .pc + UInt32.ofNat i.size := hleaves
  have hbehind : (m'.guest.get .pc).toNat = (m.guest.get .pc).toNat + i.size := by
    rw [hnext]
    exact toNat_pc_add_size hlength hi
  refine ⟨hbehind, fun hentry => ?_⟩
  have hpositive := i.size_pos
  rw [hentry] at hbehind
  have hzero : syscallEntry.toNat = 0 := rfl
  omega

end Machine

namespace Engine

open Machine

variable {ω : Type}

theorem byte_of_load_init {env : Environment ω} {e loaded : Engine ω} {image : List UInt8}
    (h : (e.init env).load env image = (.ok (), loaded)) (a : Nat) :
    loaded.machine.guest.memory.byte a = image.getD a 0 := by
  have hinit : ((e.init env).tell env (.loadProgram image.length)).machine.guest.memory
      = .zeroed e.config.ramBytes := rfl
  rw [load] at h
  simp only [hinit] at h
  cases hload : (Memory.zeroed e.config.ramBytes).loadImage image with
  | error cause => simp [hload] at h
  | ok memory =>
      simp only [hload] at h
      obtain ⟨-, rfl⟩ := Prod.mk.inj h
      exact Memory.byte_of_loadImage_zeroed hload a

theorem byte_run (env : Environment ω) {e : Engine ω} {patience a : Nat}
    (h : ∀ m ∈ (e.started env).visited env ((e.run env patience).2.executed - e.executed),
      (m.handled env).memory.byte a = m.guest.memory.byte a ∧
        ∀ addr, m.guest.writes? = some addr → ¬addr.Covers a) :
    (e.run env patience).2.machine.guest.memory.byte a = e.machine.guest.memory.byte a := by
  rw [machine_run]
  refine later_keeps (P := fun m => m.guest.memory.byte a = e.machine.guest.memory.byte a)
    (fun m hm hbyte => ?_) h rfl
  obtain ⟨hhandled, hwrites⟩ := hm
  exact (byte_step env hwrites).trans (hhandled.trans hbyte)

theorem general_run (env : Environment ω) {e : Engine ω} {patience : Nat} {k : Fin 13}
    (h : ∀ m ∈ (e.started env).visited env ((e.run env patience).2.executed - e.executed),
      (m.handled env).get (.general k) = m.guest.get (.general k) ∧
        m.guest.names? ≠ some (.general k)) :
    (e.run env patience).2.machine.guest.get (.general k)
      = e.machine.guest.get (.general k) := by
  rw [machine_run]
  refine later_keeps (P := fun m => m.guest.get (.general k) = e.machine.guest.get (.general k))
    (fun m hm hget => ?_) h rfl
  obtain ⟨hhandled, hnames⟩ := hm
  exact (general_step env hnames).trans (hhandled.trans hget)

/-- **What is not written stays.**

An instruction that succeeds changes memory only in the word that it writes, and registers
only in its roles.  If it neither transfers control nor puts its result in the program
counter, the next one is the one behind it, at an address that has not wrapped around; so
nobody comes to the entry of system calls by going on and on.

During a run a byte that the handler of system calls does not change, and that is outside the
words that are written, stays as it was, for a loaded program the byte of its image or zero.
So does a general register that the handler does not change and that is not named for a
result.  This is so wherever the run stops and why. -/
theorem run_frame (env : Environment ω) :
    (∀ (m m' : Machine ω) (progress : Progress), m.guest.memory.length ≤ 0x80000000 →
      m.guest.get .pc ≠ syscallEntry → m.step env = (.ok progress, m') →
      ∃ i, m.guest.executes? = some i ∧
        m'.guest.memory.length = m.guest.memory.length ∧
        (∀ a, (∀ addr, i.written? m.guest.registers = some addr → ¬addr.Covers a) →
          m'.guest.memory.byte a = m.guest.memory.byte a) ∧
        (∀ r, r ∉ i.changed → m'.guest.get r = m.guest.get r) ∧
        (i.transfers = false → i.destination? ≠ some .pc →
          (m'.guest.get .pc).toNat = (m.guest.get .pc).toNat + i.size ∧
            m'.guest.get .pc ≠ syscallEntry)) ∧
    (∀ (e loaded : Engine ω) (image : List UInt8),
      (e.init env).load env image = (.ok (), loaded) →
      ∀ a, loaded.machine.guest.memory.byte a = image.getD a 0) ∧
    ∀ (e : Engine ω) (patience : Nat),
      let e' := (e.run env patience).2
      let visited := (e.started env).visited env (e'.executed - e.executed)
      (∀ a, (∀ m ∈ visited, (m.handled env).memory.byte a = m.guest.memory.byte a ∧
            ∀ addr, m.guest.writes? = some addr → ¬addr.Covers a) →
          e'.machine.guest.memory.byte a = e.machine.guest.memory.byte a) ∧
        ∀ k, (∀ m ∈ visited, (m.handled env).get (.general k) = m.guest.get (.general k) ∧
            m.guest.names? ≠ some (.general k)) →
          e'.machine.guest.get (.general k) = e.machine.guest.get (.general k) := by
  refine ⟨?_, fun e loaded image hload a => byte_of_load_init hload a,
    fun e patience => ⟨fun a => byte_run env, fun k => general_run env⟩⟩
  intro m m' progress hlength hpc hstep
  obtain ⟨i, hi, hperform⟩ := executed_of_step hpc hstep
  have hguest : m'.guest = ((i.effect m.guest.registers).perform m.guest).2 := by rw [hperform]
  refine ⟨i, hi, ?_, fun a ha => ?_, fun r hr => ?_, next_pc_of_step hlength hi hperform⟩
  · rw [hguest, Effect.length_perform]
  · rw [hguest]
    exact Effect.byte_perform fun addr haddr =>
      ha addr ((Instr.written?_effect _ _).symm.trans haddr)
  · rw [hguest]
    exact Effect.get_perform (Instr.keeps_effect _ hr)

/-- A program that pushes 7. -/
def pushesSeven : List UInt8 :=
  [0x1f, 0, 0, 0, 0] ++ [0x07, 0x10, 7, 0, 0, 0] ++ [0x16, 0x10]

theorem run_frame_pushesSeven :
    let env := Environment.silent (noSyscalls Unit)
    let e := (((create .standard ()).init env).load env pushesSeven).2
    let e' := (e.run env 2).2
    e.machine.guest.memory.length ≤ 0x80000000 ∧ e.machine.guest.get .pc ≠ syscallEntry ∧
      (∃ m', e.machine.step env = (.ok .continues, m') ∧ (m'.guest.get .pc).toNat = 5 + 6 ∧
        ∀ r, r ∉ [Register.general 1, .pc] → m'.guest.get r = e.machine.guest.get r) ∧
      (∀ m ∈ (e.started env).visited env 2, m.handled env = m.guest) ∧
      e'.executed - e.executed = 2 ∧ e'.machine.guest.get (.general 1) = 7 ∧
      e'.machine.guest.memory.byte 0x3ffffc = 7 ∧
      (∀ k, k ≠ 1 → e'.machine.guest.get (.general k) = e.machine.guest.get (.general k)) ∧
      ∀ a, a < 0x3ffffc → e'.machine.guest.memory.byte a = pushesSeven.getD a 0 := by
  intro env e e'
  obtain ⟨hsteps, hloaded, hruns⟩ := run_frame env
  have hlength : e.machine.guest.memory.length ≤ 0x80000000 := by decide +kernel
  have hpc : e.machine.guest.get .pc ≠ syscallEntry := by decide +kernel
  have hstep : e.machine.step env = (.ok .continues, (e.machine.step env).2) :=
    Prod.ext (Ending.ofStep?_eq_none (by decide +kernel)) rfl
  have hload : ((create .standard ()).init env).load env pushesSeven = (.ok (), e) := rfl
  have hexecuted : e'.executed - e.executed = 2 := by decide +kernel
  have hquiet : ∀ m ∈ (e.started env).visited env 2, m.handled env = m.guest := by
    have haway : ∀ m ∈ (e.started env).visited env 2, m.guest.get .pc ≠ syscallEntry := by
      decide +kernel
    exact fun m hm => handled_of_ne (haway m hm)
  have hwrites : ∀ m ∈ (e.started env).visited env 2,
      m.guest.writes? = none ∨ m.guest.writes? = some 0x3ffffc := by decide +kernel
  have hnames : ∀ m ∈ (e.started env).visited env 2,
      m.guest.names? = none ∨ m.guest.names? = some (.general 1) := by decide +kernel
  have hmov : e.machine.guest.executes? = some (.mov (.general 1) (.imm 7)) := by decide +kernel
  obtain ⟨i, hi, -, -, hkept, hnext⟩ := hsteps _ _ _ hlength hpc hstep
  obtain rfl := Option.some.inj (hi.symm.trans hmov)
  obtain ⟨hbytes, hregisters⟩ := hruns e 2
  rw [hexecuted] at hbytes hregisters
  refine ⟨hlength, hpc, ⟨_, hstep, (hnext rfl (by decide)).1, hkept⟩, hquiet, hexecuted,
    by decide +kernel, by decide +kernel, fun k hk => hregisters k fun m hm => ?_,
    fun a ha => (hbytes a fun m hm => ?_).trans (hloaded _ _ _ hload a)⟩
  · refine ⟨by rw [hquiet m hm], ?_⟩
    rcases hnames m hm with hname | hname
    · simp [hname]
    · rw [hname]
      simpa using Ne.symm hk
  · refine ⟨by rw [hquiet m hm], fun addr haddr => ?_⟩
    rcases hwrites m hm with hwrite | hwrite
    · simp [hwrite] at haddr
    · obtain rfl := Option.some.inj (hwrite.symm.trans haddr)
      exact fun hcovers => absurd hcovers.1 (Nat.not_le.mpr ha)

end Engine

end RegisterMachine
