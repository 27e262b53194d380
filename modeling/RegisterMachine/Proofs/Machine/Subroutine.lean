/-
A return goes back behind its call.

A call leaves on the stack the address behind it.  Whatever the subroutine does then, it gets
back there if it returns with the stack pointer where the call has left it, and if the word
has not been overwritten.  Pushes and calls write below the stack pointer, so they miss the
word as long as the stack does not reach above it; even if the stack pointer wraps around
below address 0, they write at the end of the address space, which is nowhere near.  So
only stores and handlers of system calls have to be asked to spare the word, and `Spares` is
all that is asked of a step.  Nested calls need no thought: what they leave on the stack
is below as well.
-/
import RegisterMachine.Proofs.Machine.Frame

namespace RegisterMachine

/-- A word at an address below `s`, pushed from a stack pointer up to `s`, does not meet the word
at `s`.  If the stack pointer wraps around, the push is still far from it. -/
theorem Word.not_covers_push {s sp : Word} (hs : s.toNat + 4 ≤ 0x80000000) (hsp : sp ≤ s) {a : Nat}
    (ha : s.Covers a) : ¬(sp - 4).Covers a := by
  have hle : sp.toNat ≤ s.toNat := hsp
  have hfour : (4 : Word).toNat = 4 := rfl
  unfold Word.Covers Word.byteCount at *
  rw [UInt32.toNat_sub, hfour]
  omega

namespace Effect

theorem perform_write_eq_ok {before after : RegisterFile} {addr value : Word} {g g' : Guest} :
    (write before addr value after).perform g = (.ok (), g') ↔
      ∃ memory, g.memory.writeWord addr value = .ok memory ∧ g' = ⟨after, memory⟩ := by
  rw [perform]
  cases g.memory.writeWord addr value with
  | ok memory => simp [eq_comm]
  | error fault => simp

theorem perform_ret {g : Guest} {target : Word}
    (h : g.memory.readWord (g.get .sp) = .ok target) :
    (Effect.ret g.registers).perform g
      = (.ok (), (g.set .sp (g.get .sp + 4)).set .pc target) := by
  have hread : g.memory.readWord (g.registers.get .sp) = .ok target := h
  rw [ret, perform]
  simp only [hread]
  rfl

end Effect

namespace Machine

variable {ω : Type} {env : Environment ω} {m : Machine ω}

theorem step_of_perform (env : Environment ω) {i : Instruction} {g : Guest}
    (hi : m.guest.executes? = some i)
    (hok : (i.effect m.guest.registers).perform m.guest = (.ok (), g)) :
    ∃ m', m.step env = (.ok .continues, m') ∧ m'.guest = g := by
  obtain ⟨hpc, window, hwindow, hdecode⟩ := Guest.executes?_eq_some.mp hi
  rw [step, if_neg hpc]
  simp only [executeNext, hwindow, hdecode, tell, Guest.execute_eq_perform, hok]
  exact ⟨_, rfl, rfl⟩

/-- What the next step has to leave alone so that a return finds the word at the top of a stack
that ends at `s`. -/
structure Spares (env : Environment ω) (s : Word) (m : Machine ω) : Prop where
  /-- The stack has not been popped beyond the word. -/
  sp_le : m.guest.get .sp ≤ s
  /-- A store does not write any byte of the word. -/
  store {dst src : Register} (h : m.guest.executes? = some (.store dst src)) (a : Nat)
    (ha : s.Covers a) : ¬(m.guest.get dst).Covers a
  /-- Neither does the handler of system calls: the word reads as before. -/
  handler : (m.handled env).memory.readWord s = m.guest.memory.readWord s

/-- **A step that spares a word leaves it as it is.** -/
theorem readWord_step {s : Word} (hs : s.toNat + 4 ≤ 0x80000000) (h : m.Spares env s) :
    (m.step env).2.guest.memory.readWord s = m.guest.memory.readWord s := by
  rw [← h.handler]
  refine Memory.readWord_congr (length_step env m) fun a ha => byte_step env fun addr hwrites => ?_
  obtain ⟨i, hi, hwritten⟩ := Option.bind_eq_some_iff.mp hwrites
  cases i with
  | store dst src =>
      obtain rfl := Option.some.inj hwritten
      exact h.store hi a ha
  | push _ | call _ =>
      obtain rfl := Option.some.inj hwritten
      exact Word.not_covers_push hs h.sp_le ha
  | _ => contradiction

theorem readWord_call {called : Machine ω} {target : Word}
    (hcall : m.guest.executes? = some (.call target))
    (hstep : m.step env = (.ok .continues, called)) :
    called.guest.get .sp = m.guest.get .sp - 4 ∧
      called.guest.memory.readWord (m.guest.get .sp - 4) = .ok (m.guest.get .pc + 5) ∧
      (m.guest.get .sp - 4).toNat + 4 ≤ m.guest.memory.length := by
  have hpc := (Guest.executes?_eq_some.mp hcall).1
  obtain ⟨i, hi, hperform⟩ := executed_of_step hpc hstep
  obtain rfl := Option.some.inj (hcall.symm.trans hi)
  obtain ⟨memory, hwrite, hguest⟩ := Effect.perform_write_eq_ok.mp hperform
  rw [hguest]
  exact ⟨rfl, Memory.readWord_writeWord hwrite, (Memory.writeWord_eq_ok.mp hwrite).1⟩

/-- **A return goes back behind its call.**

Let a call be executed at `p` with the stack pointer at `s + 4`, let any number of steps
follow that spare the word at `s`, and then a return with the stack pointer at `s`.  The
return succeeds, goes on at `p + 5`, and has taken the word off the stack.  The memory is as
long as an engine's can be; so a stack pointer that wraps around is far from the word. -/
theorem ret_goes_behind_call {called before : Machine ω} {p s target : Word} {n : Nat}
    (hlength : m.guest.memory.length ≤ 0x80000000)
    (hcall : m.guest.executes? = some (.call target)) (hp : m.guest.get .pc = p)
    (hsp : m.guest.get .sp = s + 4) (hstep : m.step env = (.ok .continues, called))
    (hsteps : Steps env n called before) (hspares : ∀ mid ∈ called.visited env n, mid.Spares env s)
    (hret : before.guest.executes? = some .ret) (hback : before.guest.get .sp = s) :
    called.guest.get .sp = s ∧
      ∃ returned, before.step env = (.ok .continues, returned) ∧
        returned.guest.get .pc = p + 5 ∧ returned.guest.get .sp = s + 4 := by
  have htop : m.guest.get .sp - 4 = s := by rw [hsp, UInt32.add_sub_cancel]
  obtain ⟨hcalled, hword, hinside⟩ := readWord_call hcall hstep
  rw [htop] at hcalled hword hinside
  rw [hp] at hword
  have hkept : before.guest.memory.readWord s = .ok (p + 5) := by
    rw [← hsteps.later_eq]
    exact later_keeps (P := fun mid => mid.guest.memory.readWord s = .ok (p + 5))
      (fun mid hmid hmidword => (readWord_step (Nat.le_trans hinside hlength) hmid).trans hmidword)
      hspares hword
  rw [← hback] at hkept
  obtain ⟨returned, hreturn, hguest⟩ := step_of_perform env hret (Effect.perform_ret hkept)
  refine ⟨hcalled, returned, hreturn, ?_, ?_⟩
  · simp [hguest]
  · simp [hguest, hback]

/-- A program whose subroutine makes a system call of its own: it puts the identifier 1 on the
stack, enters the call, and takes the identifier off again. -/
def callsWithin : List UInt8 :=
  [0x1f, 0, 0, 0, 0] ++ [0x1b, 0x10, 0, 0, 0] ++ [0, 0, 0, 0, 0, 0] ++
    [0x07, 0x10, 1, 0, 0, 0] ++ [0x16, 0x10] ++ [0x1b, 0, 0, 0, 0] ++ [0x18, 0x10] ++ [0x1c]

theorem ret_goes_behind_call_callsWithin :
    let env : Environment Unit := .silent fun _ => Service.nothing
    let m := ((((Engine.create .standard ()).init env).load env callsWithin).2.started env)
    let called := (m.step env).2
    let before := called.later env 5
    m.guest.memory.length ≤ 0x80000000 ∧ m.guest.executes? = some (.call 0x10) ∧
      m.guest.get .pc = 5 ∧ m.guest.get .sp = 0x3ffffc + 4 ∧
      m.step env = (.ok .continues, called) ∧ Steps env 5 called before ∧
      (∀ mid ∈ called.visited env 5, mid.Spares env 0x3ffffc) ∧
      (called.visited env 5).any (·.guest.calls?.isSome) ∧
      before.guest.executes? = some .ret ∧ before.guest.get .sp = 0x3ffffc ∧
      ∃ returned, before.step env = (.ok .continues, returned) ∧
        returned.guest.get .pc = 5 + 5 ∧ returned.guest.get .sp = 0x3ffffc + 4 := by
  intro env m called before
  have hlength : m.guest.memory.length ≤ 0x80000000 := by decide +kernel
  have hcall : m.guest.executes? = some (.call 0x10) := by decide +kernel
  have hp : m.guest.get .pc = 5 := by decide +kernel
  have hsp : m.guest.get .sp = 0x3ffffc + 4 := by decide +kernel
  have hstep : m.step env = (.ok .continues, called) :=
    Prod.ext (Ending.ofStep?_eq_none (by decide +kernel)) rfl
  have hsteps : Steps env 5 called before := steps_later (by decide +kernel)
  have hbelow : ∀ mid ∈ called.visited env 5,
      mid.guest.get .sp ≤ 0x3ffffc ∧ mid.guest.executes?.map Instr.operation ≠ some .store := by
    decide +kernel
  have hhandled : ∀ mid : Machine Unit, mid.handled env = mid.guest := by
    intro mid
    unfold handled
    split <;> rfl
  have hspares : ∀ mid ∈ called.visited env 5, mid.Spares env 0x3ffffc := fun mid hmid =>
    { sp_le := (hbelow mid hmid).1
      store := fun h => absurd (by rw [h]; rfl) (hbelow mid hmid).2
      handler := by rw [hhandled] }
  have hret : before.guest.executes? = some .ret := by decide +kernel
  have hback : before.guest.get .sp = 0x3ffffc := by decide +kernel
  obtain ⟨-, hreturned⟩ := ret_goes_behind_call hlength hcall hp hsp hstep hsteps hspares hret hback
  exact ⟨hlength, hcall, hp, hsp, hstep, hsteps, hspares, by decide +kernel, hret, hback, hreturned⟩

end Machine

end RegisterMachine
