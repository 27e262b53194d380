/-
What stands in the slot does not matter.

Control that reaches address 0 enters a system call, whatever bytes stand there, so a program
that stays out of the slot cannot know what is in it.  Two runs are compared here that start
from images with different slots.  Their memories stay different, perhaps to the end, and all
else is the same: `AgreeBehindSlot` is what carries the comparison from one step to the next.

What a run must not do is asked of the machines that it visits, of each by itself.
`Machine.SlotUnseen` asks that control is not inside the slot, that no word which the step reads
as data touches it, and that the handler of the call that is made there does the same whatever
is in the slot.  A write to the slot does no harm.  Only the first run is asked; the second turns
out to make the same steps.
-/
import RegisterMachine.Machine.Console
import RegisterMachine.Proofs.Machine.Reuse

namespace RegisterMachine

/-! ### Memories that differ in the slot -/

/-- Two memories of one length whose bytes behind the slot are the same. -/
structure Memory.AgreeBehindSlot (m m' : Memory) : Prop where
  length : m'.length = m.length
  byte : ∀ a, slotSize ≤ a → m'.byte a = m.byte a

namespace Memory.AgreeBehindSlot

variable {m m' : Memory} {addr : Word}

theorem readWord (h : m.AgreeBehindSlot m') (haddr : slotSize ≤ addr.toNat) :
    m'.readWord addr = m.readWord addr :=
  readWord_congr h.length fun a ha => h.byte a (Nat.le_trans haddr ha.1)

theorem window (h : m.AgreeBehindSlot m') (haddr : slotSize ≤ addr.toNat) :
    m'.window addr = m.window addr := by
  have hbytes : ∀ count, m'.bytesAt addr.toNat count = m.bytesAt addr.toNat count := by
    intro count
    refine List.map_congr_left fun a ha => h.byte a ?_
    exact Nat.le_trans haddr (List.mem_range'_1.mp ha).1
  simp only [Memory.window, checkAccess, h.length, hbytes]

theorem setBytes (h : m.AgreeBehindSlot m') (start : Nat) (bytes : List UInt8) :
    (m.setBytes start bytes).AgreeBehindSlot (m'.setBytes start bytes) where
  length := by rw [length_setBytes, length_setBytes, h.length]
  byte a ha := by rw [byte_setBytes, byte_setBytes, h.byte a ha]

/-- A word is written to both or refused by both, also if it lies in the slot. -/
theorem writeWord (h : m.AgreeBehindSlot m') (addr value : Word) :
    (∃ fault, m.writeWord addr value = .error fault ∧ m'.writeWord addr value = .error fault) ∨
      ∃ n n', m.writeWord addr value = .ok n ∧ m'.writeWord addr value = .ok n' ∧
        n.AgreeBehindSlot n' := by
  by_cases hinside : addr.toNat + 4 ≤ m.length
  · exact Or.inr ⟨_, _, writeWord_eq_ok.mpr ⟨hinside, rfl⟩,
      writeWord_eq_ok.mpr ⟨h.length ▸ hinside, rfl⟩, h.setBytes _ _⟩
  · have houtside := Nat.lt_of_not_le hinside
    exact Or.inl ⟨_, writeWord_eq_error.mpr ⟨rfl, houtside⟩,
      writeWord_eq_error.mpr ⟨by rw [h.length], h.length ▸ houtside⟩⟩

end Memory.AgreeBehindSlot

theorem Memory.agreeBehindSlot_of_images (m : Memory) {image image' : List UInt8}
    (hbehind : image'.drop slotSize = image.drop slotSize) :
    (m.setBytes 0 image).AgreeBehindSlot (m.setBytes 0 image') where
  length := by rw [length_setBytes, length_setBytes]
  byte a ha := by
    have hget : image'[a]? = image[a]? := by
      rw [← Nat.add_sub_of_le ha, ← List.getElem?_drop, ← List.getElem?_drop, hbehind]
    simp only [byte_setBytes, Nat.zero_le, if_true, Nat.sub_zero, List.getD_eq_getElem?_getD, hget]

/-- Two guests with the same registers whose memories differ in the slot at most. -/
structure Guest.AgreeBehindSlot (g g' : Guest) : Prop where
  registers : g'.registers = g.registers
  memory : g.memory.AgreeBehindSlot g'.memory

theorem Guest.AgreeBehindSlot.get {g g' : Guest} (h : g.AgreeBehindSlot g') (r : Register) :
    g'.get r = g.get r :=
  congrArg (·.get r) h.registers

/-! ### What is read -/

/-- The word that an instruction reads from memory. -/
def Instr.read? {α : Type} (f : RegisterFile) : Instr α → Option Word
  | load _ src => some (f.get src)
  | pop _ | ret => some (f.get .sp)
  | _ => none

namespace Effect

/-- The word that an effect reads. -/
def read? : Effect → Option Word
  | read addr _ => some addr
  | _ => none

/-- **An effect that does not read the slot** leaves guests alike that were alike before. -/
theorem perform_agree (effect : Effect) {g g' : Guest} (h : g.AgreeBehindSlot g')
    (hread : ∀ addr, effect.read? = some addr → slotSize ≤ addr.toNat) :
    (effect.perform g').1 = (effect.perform g).1 ∧
      (effect.perform g).2.AgreeBehindSlot (effect.perform g').2 := by
  cases effect with
  | registers after => exact ⟨rfl, rfl, h.memory⟩
  | read addr after =>
      have hsame := h.memory.readWord (hread addr rfl)
      rw [perform, perform, hsame]
      cases g.memory.readWord addr with
      | ok value => exact ⟨rfl, rfl, h.memory⟩
      | error fault => exact ⟨rfl, h⟩
  | write before addr value after =>
      rw [perform, perform]
      rcases h.memory.writeWord addr value with ⟨fault, hm, hm'⟩ | ⟨n, n', hm, hm', hagree⟩
      · rw [hm, hm']
        exact ⟨rfl, rfl, h.memory⟩
      · rw [hm, hm']
        exact ⟨rfl, rfl, hagree⟩

end Effect

theorem Instr.read?_effect (f : RegisterFile) (i : Instruction) :
    (i.effect f).read? = i.read? f := by
  cases i <;> rfl

/-- The word that the next instruction reads from memory. -/
def Guest.reads? (g : Guest) : Option Word :=
  g.executes?.bind (·.read? g.registers)

/-- Whatever is in the slot of the guest, the service does the same with it. -/
def Service.IgnoresSlot {ω : Type} (service : Service ω) (g : Guest) (world : ω) : Prop :=
  ∀ g', g.AgreeBehindSlot g' →
    (service g' world).1 = (service g world).1 ∧
      (service g world).2.1.AgreeBehindSlot (service g' world).2.1 ∧
      (service g' world).2.2 = (service g world).2.2

namespace Machine

variable {ω : Type}

/-- What the handler makes of a call. -/
def service (env : Environment ω) (m : Machine ω) (id : Word) :
    Except SyscallError Unit × Guest × ω :=
  env.serve id m.guest (env.observe (.syscall id m.guest.registers) m.world)

/-- The next step reads the word at an address as data. -/
inductive Reads (env : Environment ω) (m : Machine ω) : Word → Prop
  | identifier (hpc : m.guest.get .pc = syscallEntry) : Reads env m (m.guest.get .sp + 4)
  /-- The return from a call that the handler has served. -/
  | returnAddress {id : Word} (hcall : m.guest.calls? = some id)
      (hserved : (m.service env id).1 = .ok ()) :
      Reads env m ((m.service env id).2.1.get .sp)
  /-- What the instruction reads. -/
  | data {addr : Word} (h : m.guest.reads? = some addr) : Reads env m addr

/-- The next step does not see what is in the slot. -/
structure SlotUnseen (env : Environment ω) (m : Machine ω) : Prop where
  /-- Control is at the front of the slot or behind it. -/
  fetch : m.guest.get .pc = syscallEntry ∨ slotSize ≤ (m.guest.get .pc).toNat
  reads : ∀ addr, m.Reads env addr → slotSize ≤ addr.toNat
  handler : ∀ id, m.guest.calls? = some id →
    (env.serve id).IgnoresSlot m.guest (env.observe (.syscall id m.guest.registers) m.world)

/-- Two machines in one world whose guests differ in the slot at most. -/
structure AgreeBehindSlot (m m' : Machine ω) : Prop where
  guest : m.guest.AgreeBehindSlot m'.guest
  world : m'.world = m.world

/-! ### One step -/

section

variable {env : Environment ω} {m m' : Machine ω}

theorem AgreeBehindSlot.tell (h : m.AgreeBehindSlot m') (event : Event) :
    (m.tell env event).AgreeBehindSlot (m'.tell env event) :=
  ⟨h.guest, congrArg (env.observe event) h.world⟩

theorem retire_agree (env : Environment ω) (world : ω)
    {outcome outcome' : Except Fault Unit × Guest}
    (hresult : outcome'.1 = outcome.1) (hguest : outcome.2.AgreeBehindSlot outcome'.2) :
    (retire env world outcome').1 = (retire env world outcome).1 ∧
      (retire env world outcome).2.AgreeBehindSlot (retire env world outcome').2 := by
  obtain ⟨result, g⟩ := outcome
  obtain ⟨result', g'⟩ := outcome'
  obtain rfl : result' = result := hresult
  have hguest : g.AgreeBehindSlot g' := hguest
  cases result' with
  | error fault => exact ⟨rfl, hguest, rfl⟩
  | ok _ =>
      rw [retire, retire, hguest.registers]
      exact ⟨rfl, hguest, rfl⟩

theorem AgreeBehindSlot.readWord_identifier (h : m.AgreeBehindSlot m') (hunseen : m.SlotUnseen env)
    (hpc : m.guest.get .pc = syscallEntry) :
    m'.guest.memory.readWord (m'.guest.get .sp + 4)
      = m.guest.memory.readWord (m.guest.get .sp + 4) := by
  rw [h.guest.get]
  exact h.guest.memory.readWord (hunseen.reads _ (.identifier hpc))

theorem AgreeBehindSlot.window (h : m.AgreeBehindSlot m') (hunseen : m.SlotUnseen env)
    (hpc : m.guest.get .pc ≠ syscallEntry) :
    m'.guest.memory.window (m'.guest.get .pc) = m.guest.memory.window (m.guest.get .pc) := by
  rw [h.guest.get]
  exact h.guest.memory.window (hunseen.fetch.resolve_left hpc)

theorem AgreeBehindSlot.calls? (h : m.AgreeBehindSlot m') (hunseen : m.SlotUnseen env) :
    m'.guest.calls? = m.guest.calls? := by
  rw [Guest.calls?, Guest.calls?, h.guest.get .pc]
  by_cases hpc : m.guest.get .pc = syscallEntry
  · rw [if_pos hpc, if_pos hpc, h.readWord_identifier hunseen hpc]
  · rw [if_neg hpc, if_neg hpc]

theorem AgreeBehindSlot.executes? (h : m.AgreeBehindSlot m') (hunseen : m.SlotUnseen env) :
    m'.guest.executes? = m.guest.executes? := by
  rw [Guest.executes?, Guest.executes?, Memory.instructionAt?, Memory.instructionAt?,
    h.guest.get .pc]
  by_cases hpc : m.guest.get .pc = syscallEntry
  · rw [if_pos hpc, if_pos hpc]
  · have hwindow := h.window hunseen hpc
    rw [h.guest.get .pc] at hwindow
    rw [if_neg hpc, if_neg hpc, Memory.decodedAt?, Memory.decodedAt?, hwindow]

theorem enterSyscall_agree (h : m.AgreeBehindSlot m') (hunseen : m.SlotUnseen env)
    (hpc : m.guest.get .pc = syscallEntry) :
    (m'.enterSyscall env).1 = (m.enterSyscall env).1 ∧
      (m.enterSyscall env).2.AgreeBehindSlot (m'.enterSyscall env).2 := by
  rw [enterSyscall, enterSyscall, h.readWord_identifier hunseen hpc]
  cases hid : m.guest.memory.readWord (m.guest.get .sp + 4) with
  | error fault => exact ⟨rfl, h⟩
  | ok id =>
      simp only [h.guest.registers]
      by_cases hexit : id = exitSyscall
      · rw [if_pos hexit, if_pos hexit]
        exact ⟨rfl, h.tell _⟩
      · rw [if_neg hexit, if_neg hexit]
        have hcall : m.guest.calls? = some id := Guest.calls?_eq_some.mpr ⟨hpc, hid, hexit⟩
        have hreturn := fun hserved => hunseen.reads _ (.returnAddress hcall hserved)
        obtain ⟨hresult, hguest, hworld⟩ := hunseen.handler id hcall m'.guest h.guest
        simp only [Machine.tell, h.world]
        rcases hserve : env.serve id m.guest
          (env.observe (.syscall id m.guest.registers) m.world) with ⟨result, guest, world⟩
        rcases hserve' : env.serve id m'.guest
          (env.observe (.syscall id m.guest.registers) m.world) with ⟨result', guest', world'⟩
        rw [service, hserve] at hreturn
        rw [hserve, hserve'] at hresult hguest hworld
        obtain rfl : result' = result := hresult
        obtain rfl : world' = world := hworld
        cases result' with
        | error e => exact ⟨rfl, hguest, rfl⟩
        | ok _ =>
            have hret := Effect.perform_agree (.ret guest.registers) hguest
              fun addr haddr => Option.some.inj haddr ▸ hreturn rfl
            have hregisters : guest'.registers = guest.registers := hguest.registers
            simp only [Guest.ret_eq_perform, hregisters]
            exact retire_agree env world' hret.1 hret.2

theorem executeNext_agree (h : m.AgreeBehindSlot m') (hunseen : m.SlotUnseen env)
    (hpc : m.guest.get .pc ≠ syscallEntry) :
    (m'.executeNext env).1 = (m.executeNext env).1 ∧
      (m.executeNext env).2.AgreeBehindSlot (m'.executeNext env).2 := by
  rw [executeNext, executeNext, h.window hunseen hpc]
  cases hwindow : m.guest.memory.window (m.guest.get .pc) with
  | error fault => exact ⟨rfl, h⟩
  | ok window =>
      simp only [h.guest.get]
      cases hdecode : Instr.decode window with
      | error cause => exact ⟨rfl, h⟩
      | ok i =>
          have hi := Guest.executes?_eq_some.mpr ⟨hpc, window, hwindow, hdecode⟩
          have hexecute := Effect.perform_agree (i.effect m.guest.registers) h.guest
            fun addr haddr => hunseen.reads addr (.data (by
              rw [Guest.reads?, hi]
              exact (Instr.read?_effect _ i).symm.trans haddr))
          simp only [Machine.tell, h.world, h.guest.registers, Guest.execute_eq_perform]
          exact retire_agree env _ hexecute.1 hexecute.2

/-- **A step that does not see the slot** is the same whatever is in it. -/
theorem step_agree (h : m.AgreeBehindSlot m') (hunseen : m.SlotUnseen env) :
    (m'.step env).1 = (m.step env).1 ∧ (m.step env).2.AgreeBehindSlot (m'.step env).2 := by
  rw [step, step, h.guest.get]
  by_cases hpc : m.guest.get .pc = syscallEntry
  · rw [if_pos hpc, if_pos hpc]
    exact enterSyscall_agree h hunseen hpc
  · rw [if_neg hpc, if_neg hpc]
    exact executeNext_agree h hunseen hpc

end

/-! ### Many steps -/

theorem later_agree {env : Environment ω} {n : Nat} {m m' : Machine ω} (h : m.AgreeBehindSlot m')
    (hunseen : ∀ mid ∈ m.visited env n, mid.SlotUnseen env) :
    (m.later env n).AgreeBehindSlot (m'.later env n) := by
  induction n generalizing m m' with
  | zero => exact h
  | succ n ih =>
      have hfirst := hunseen m List.mem_cons_self
      exact ih (step_agree h hfirst).2 fun mid hmid => hunseen mid (List.mem_cons_of_mem _ hmid)

/-- The same step is made from both machines, and they differ in the slot at most. -/
structure SameStep (env : Environment ω) (m m' : Machine ω) : Prop where
  agree : m.AgreeBehindSlot m'
  /-- The same instruction is executed. -/
  executes : m'.guest.executes? = m.guest.executes?
  /-- The same call is made. -/
  calls : m'.guest.calls? = m.guest.calls?
  result : (m'.step env).1 = (m.step env).1

theorem sameStep_later {env : Environment ω} {n k : Nat} {m m' : Machine ω}
    (h : m.AgreeBehindSlot m') (hunseen : ∀ mid ∈ m.visited env n, mid.SlotUnseen env)
    (hk : k < n) : (m.later env k).SameStep env (m'.later env k) := by
  have hagree : (m.later env k).AgreeBehindSlot (m'.later env k) :=
    later_agree h fun mid hmid => hunseen mid (visited_subset (Nat.le_of_lt hk) m hmid)
  have hhere := hunseen _ (later_mem_visited hk m)
  exact ⟨hagree, hagree.executes? hhere, hagree.calls? hhere, (step_agree hagree hhere).1⟩

/-! ### The console -/

section

variable (write : List UInt8 → ω → ω)

/-- A call to the console reads nothing but its argument. -/
theorem ignoresSlot_of_console (id : Word) {g : Guest} (world : ω)
    (hargument : slotSize ≤ (g.get .sp + 8).toNat) :
    Service.IgnoresSlot (Console.handler write id) g world := by
  intro g' h
  have hsame : g'.argument 0 = g.argument 0 := by
    rw [Guest.argument, Guest.argument, h.get, UInt32.zero_mul, UInt32.add_zero]
    exact h.memory.readWord hargument
  unfold Console.handler
  cases Console.output? id with
  | none => exact ⟨rfl, h, rfl⟩
  | some output =>
      dsimp only
      rw [hsame]
      cases g.argument 0 <;> exact ⟨rfl, h, rfl⟩

theorem guest_of_console (id : Word) (g : Guest) (world : ω) :
    (Console.handler write id g world).2.1 = g := by
  unfold Console.handler
  cases Console.output? id with
  | none => rfl
  | some output => cases g.argument 0 <;> rfl

/-- With a console it is enough that the stack is not in the slot when a call is made. -/
theorem slotUnseen_of_console {m : Machine ω}
    (hfetch : m.guest.get .pc = syscallEntry ∨ slotSize ≤ (m.guest.get .pc).toNat)
    (hreads : m.guest.reads?.all fun addr => slotSize ≤ addr.toNat)
    (hstack : m.guest.get .pc = syscallEntry → slotSize ≤ (m.guest.get .sp).toNat ∧
      slotSize ≤ (m.guest.get .sp + 4).toNat ∧ slotSize ≤ (m.guest.get .sp + 8).toNat) :
    m.SlotUnseen (.silent (Console.handler write)) where
  fetch := hfetch
  reads addr hread := by
    cases hread with
    | identifier hpc => exact (hstack hpc).2.1
    | @returnAddress id hcall _ =>
        have hguest := guest_of_console write id m.guest m.world
        rw [service, Environment.silent, hguest]
        exact (hstack (Guest.calls?_eq_some.mp hcall).1).1
    | data h =>
        rw [h] at hreads
        exact of_decide_eq_true hreads
  handler id hcall :=
    ignoresSlot_of_console write id m.world (hstack (Guest.calls?_eq_some.mp hcall).1).2.2

end

end Machine

/-! ### Runs -/

namespace Engine

open Machine

variable {ω : Type} {e e' : Engine ω}

/-- Two engines with the same parameters and the same count whose machines differ in the slot
at most. -/
structure AgreeBehindSlot (e e' : Engine ω) : Prop where
  config : e'.config = e.config
  executed : e'.executed = e.executed
  machine : e.machine.AgreeBehindSlot e'.machine

theorem AgreeBehindSlot.tell (h : e.AgreeBehindSlot e') (env : Environment ω) (event : Event) :
    (e.tell env event).AgreeBehindSlot (e'.tell env event) :=
  ⟨h.config, h.executed, h.machine.tell event⟩

theorem AgreeBehindSlot.after (h : e.AgreeBehindSlot e') {m m' : Machine ω}
    (hm : m.AgreeBehindSlot m') (n : Nat) : (e.after m n).AgreeBehindSlot (e'.after m' n) :=
  ⟨h.config, congrArg (· + n) h.executed, hm⟩

theorem AgreeBehindSlot.budgetFault? (h : e.AgreeBehindSlot e') :
    e'.budgetFault? = e.budgetFault? := by
  rw [Engine.budgetFault?, Engine.budgetFault?, h.config, h.executed]

/-- **A run that does not see the slot** goes the same way whatever is in it. -/
theorem resume_agree (env : Environment ω) (fuel : Nat) {e e' : Engine ω}
    (h : e.AgreeBehindSlot e')
    (hunseen : ∀ m ∈ e.machine.visited env ((e.resume env fuel).2.executed - e.executed),
      m.SlotUnseen env) :
    (e'.resume env fuel).1 = (e.resume env fuel).1 ∧
      (e.resume env fuel).2.AgreeBehindSlot (e'.resume env fuel).2 := by
  induction fuel generalizing e e' with
  | zero => exact ⟨rfl, h⟩
  | succ fuel ih =>
      have hbudget := h.budgetFault?
      cases hfault : e.budgetFault? with
      | some fault =>
          rw [hfault] at hbudget
          rw [resume, resume, hfault, hbudget]
          exact ⟨rfl, h⟩
      | none =>
          rw [hfault] at hbudget
          rcases hstep : e.machine.step env with ⟨result, mid⟩
          rcases hstep' : e'.machine.step env with ⟨result', mid'⟩
          have hsame (hfirst : e.machine.SlotUnseen env) :
              result' = result ∧ mid.AgreeBehindSlot mid' := by
            have hagree := step_agree h.machine hfirst
            rwa [hstep, hstep'] at hagree
          rw [resume_succ (allows_one hfault) hstep] at hunseen ⊢
          rw [resume_succ (allows_one hbudget) hstep']
          have hcounted : (e.after mid 1).executed = e.executed + 1 := rfl
          cases hend : Ending.ofStep? result with
          | some ending =>
              simp only [hend, hcounted, Nat.add_sub_cancel_left] at hunseen
              obtain ⟨rfl, hmid⟩ := hsame (hunseen _ List.mem_cons_self)
              rw [hend]
              exact ⟨rfl, h.after hmid 1⟩
          | none =>
              -- This step is one more than those of the rest.
              have hle := executed_le_resume env fuel (e.after mid 1)
              have hcount : ((e.after mid 1).resume env fuel).2.executed - e.executed
                  = ((e.after mid 1).resume env fuel).2.executed - (e.after mid 1).executed
                    + 1 := by omega
              simp only [hend, hcount, visited, hstep] at hunseen
              obtain ⟨rfl, hmid⟩ := hsame (hunseen _ List.mem_cons_self)
              rw [hend]
              exact ih (h.after hmid 1) fun m hm => hunseen m (List.mem_cons_of_mem _ hm)

theorem run_agree (env : Environment ω) (patience : Nat) (h : e.AgreeBehindSlot e')
    (hunseen : ∀ m ∈ (e.started env).visited env ((e.run env patience).2.executed - e.executed),
      m.SlotUnseen env) :
    (e'.run env patience).1 = (e.run env patience).1 ∧
      (e.run env patience).2.AgreeBehindSlot (e'.run env patience).2 := by
  have hbound : e'.stepBound patience = e.stepBound patience := by
    rw [stepBound, stepBound, remaining?, remaining?, h.config, h.executed]
  rw [run, run, hbound]
  exact resume_agree env _ (h.tell env .start) hunseen

theorem load_agree (env : Environment ω) (e : Engine ω) {image image' : List UInt8}
    (hlength : image'.length = image.length)
    (hbehind : image'.drop slotSize = image.drop slotSize) :
    (e.load env image').1 = (e.load env image).1 ∧
      (e.load env image).2.AgreeBehindSlot (e.load env image').2 := by
  have hmemory : (e.tell env (.loadProgram image.length)).machine.guest.memory
      = e.machine.guest.memory := rfl
  rw [load, load, hlength]
  simp only [hmemory]
  by_cases hfits : image.length ≤ e.machine.guest.memory.length
  · have hfits' : image'.length ≤ e.machine.guest.memory.length := hlength ▸ hfits
    rw [Memory.loadImage_of_le hfits, Memory.loadImage_of_le hfits']
    exact ⟨rfl, rfl, rfl, ⟨rfl, Memory.agreeBehindSlot_of_images _ hbehind⟩, rfl⟩
  · have hlarge := Nat.lt_of_not_le hfits
    have hlarge' : e.machine.guest.memory.length < image'.length := hlength ▸ hlarge
    rw [Memory.loadImage_of_lt hlarge, Memory.loadImage_of_lt hlarge', hlength]
    exact ⟨rfl, rfl, rfl, ⟨rfl, rfl, fun _ _ => rfl⟩, rfl⟩

theorem prepare_agree (env : Environment ω) (e : Engine ω) {image image' : List UInt8}
    (hlength : image'.length = image.length)
    (hbehind : image'.drop slotSize = image.drop slotSize) :
    (e.prepare env image').1 = (e.prepare env image).1 ∧
      (e.prepare env image).2.AgreeBehindSlot (e.prepare env image').2 := by
  rw [prepare, prepare, hlength]
  exact load_agree env _ hlength hbehind

theorem conclude_agree (env : Environment ω) (ending : Ending) (h : e.AgreeBehindSlot e') :
    (e'.conclude env ending).1 = (e.conclude env ending).1 ∧
      (e.conclude env ending).2.AgreeBehindSlot (e'.conclude env ending).2 := by
  cases ending with
  | halted =>
      rw [conclude, conclude, finish, finish, h.machine.guest.registers]
      exact ⟨rfl, h.tell env _⟩
  | faulted fault => exact ⟨rfl, h⟩
  | unfinished => exact ⟨rfl, h⟩

theorem execute_agree (env : Environment ω) (e : Engine ω) (patience : Nat)
    {image image' : List UInt8} (hlength : image'.length = image.length)
    (hbehind : image'.drop slotSize = image.drop slotSize)
    (hunseen : ∀ m ∈ (e.atStart env image).machine.visited env
      (e.execute env patience image).2.executed, m.SlotUnseen env) :
    (e.execute env patience image').1 = (e.execute env patience image).1 ∧
      (e.execute env patience image).2.AgreeBehindSlot (e.execute env patience image').2 := by
  obtain ⟨hsame, hagree⟩ := prepare_agree env e hlength hbehind
  have hfresh := executed_atStart env image e
  rcases hprepare : e.prepare env image with ⟨result, loaded⟩
  rcases hprepare' : e.prepare env image' with ⟨result', loaded'⟩
  rw [hprepare, hprepare'] at hsame hagree
  obtain rfl : result' = result := hsame
  replace hagree : loaded.AgreeBehindSlot loaded' := hagree
  rw [atStart, hprepare] at hunseen hfresh
  replace hfresh : loaded.executed = 0 := hfresh
  rw [execute, hprepare']
  rw [execute, hprepare] at hunseen ⊢
  cases result' with
  | error cause => exact ⟨rfl, hagree⟩
  | ok _ =>
      dsimp only at hunseen ⊢
      rw [executed_conclude] at hunseen
      obtain ⟨hending, hleft⟩ := run_agree env patience hagree (by rwa [hfresh, Nat.sub_zero])
      rw [hending]
      exact conclude_agree env _ hleft

/-- **What is in the slot does not matter.**  An image is executed with the same result and the
same steps whatever its slot contains, if the execution never sees the slot.  All registers, all
of memory behind the slot and the world outside are the same before every step and at the end. -/
theorem execute_ignores_slot (env : Environment ω) (e : Engine ω) (patience : Nat)
    {image image' : List UInt8} (hlength : image'.length = image.length)
    (hbehind : image'.drop slotSize = image.drop slotSize)
    (hunseen : ∀ m ∈ (e.atStart env image).machine.visited env
      (e.execute env patience image).2.executed, m.SlotUnseen env) :
    let outcome := e.execute env patience image
    let outcome' := e.execute env patience image'
    let start := (e.atStart env image).machine
    let start' := (e.atStart env image').machine
    outcome'.1 = outcome.1 ∧ outcome.2.AgreeBehindSlot outcome'.2 ∧
      (∀ k, k < outcome.2.executed → (start.later env k).SameStep env (start'.later env k)) ∧
      ∀ k, k ≤ outcome.2.executed →
        (start.later env k).AgreeBehindSlot (start'.later env k) := by
  intro outcome outcome' start start'
  have hstart : start.AgreeBehindSlot start' :=
    ((prepare_agree env e hlength hbehind).2.tell env .start).machine
  obtain ⟨hresult, hleft⟩ := execute_agree env e patience hlength hbehind hunseen
  refine ⟨hresult, hleft, fun k hk => sameStep_later hstart hunseen hk, fun k hk => ?_⟩
  exact later_agree hstart fun m hm => hunseen m (visited_subset hk start hm)

/-- A program that writes the stack pointer into the slot, prints an H and halts. -/
def writesSlot : List UInt8 :=
  [0x1f, 0, 0, 0, 0] ++ [0x04, 0x1e] ++ [0x07, 0x20, 0x48, 0, 0, 0] ++ [0x16, 0x20] ++
    [0x07, 0x20, 1, 0, 0, 0] ++ [0x16, 0x20] ++ [0x1b, 0, 0, 0, 0] ++ [0x16, 0x10] ++
    [0x1b, 0, 0, 0, 0]

theorem execute_ignores_slot_writesSlot :
    let env : Environment (List UInt8) :=
      .silent (Console.handler fun bytes written => written ++ bytes)
    let e := create .standard []
    let other := [0xde, 0xad, 0xbe, 0xef, 0xff] ++ writesSlot.drop slotSize
    let outcome := e.execute env 100 writesSlot
    let outcome' := e.execute env 100 other
    other.length = writesSlot.length ∧ other.drop slotSize = writesSlot.drop slotSize ∧
      (∀ m ∈ (e.atStart env writesSlot).machine.visited env outcome.2.executed,
        m.SlotUnseen env) ∧
      outcome'.1 = .halted outcome.2.machine.guest.registers ∧ outcome'.2.executed = 10 ∧
      outcome'.2.machine.world = [0x48] ∧
      (outcome.2.machine.guest.memory.byte 4, outcome'.2.machine.guest.memory.byte 4)
        = (0, 0xff) := by
  intro env e other outcome outcome'
  have hexecuted : outcome.2.executed = 10 := by decide +kernel
  have hunseen : ∀ m ∈ (e.atStart env writesSlot).machine.visited env outcome.2.executed,
      m.SlotUnseen env := by
    have hvisited : ∀ m ∈ (e.atStart env writesSlot).machine.visited env 10,
        (m.guest.get .pc = syscallEntry ∨ slotSize ≤ (m.guest.get .pc).toNat) ∧
          (m.guest.reads?.all fun addr => slotSize ≤ addr.toNat) ∧
          (m.guest.get .pc = syscallEntry → slotSize ≤ (m.guest.get .sp).toNat ∧
            slotSize ≤ (m.guest.get .sp + 4).toNat ∧ slotSize ≤ (m.guest.get .sp + 8).toNat) := by
      decide +kernel
    rw [hexecuted]
    intro m hm
    obtain ⟨hfetch, hreads, hstack⟩ := hvisited m hm
    exact slotUnseen_of_console _ hfetch hreads hstack
  have hlength : other.length = writesSlot.length := by decide
  have hbehind : other.drop slotSize = writesSlot.drop slotSize := by decide
  obtain ⟨hresult, hleft, -, -⟩ := execute_ignores_slot env e 100 hlength hbehind hunseen
  have hhalted : outcome.1 = .halted outcome.2.machine.guest.registers := by decide +kernel
  have hwritten : outcome.2.machine.world = [0x48] := by decide +kernel
  exact ⟨hlength, hbehind, hunseen, hresult.trans hhalted, hleft.executed.trans hexecuted,
    hleft.machine.world.trans hwritten, by decide +kernel⟩

end Engine

end RegisterMachine
