/-
When a run ends and when its handler is called.

Whether a step ends the run, calls the handler of system calls or executes an instruction is
decided by the guest alone: by the program counter, and at the entry by the identifier on the
stack.  It does not matter how control has come there, nor what bytes stand at the entry.

To say how often a handler is called and with what, it is made to keep a record of its calls.
The record of a run is then read off the machines that the run visits (`calls_later`): every
machine adds the call that its guest makes, if it makes one.  No guest makes a call with the
identifier of the exit, so no handler ever gets it.  And since reaching the exit changes
nothing, a run that is started there ends there at once.
-/
import RegisterMachine.Proofs.Machine.Frame
import RegisterMachine.Proofs.Trace.Invisibility

namespace RegisterMachine

namespace Guest

/-- Control is at the entry of system calls, and the identifier on the stack is that of the
exit. -/
def AtExit (g : Guest) : Prop :=
  g.get .pc = syscallEntry ∧ g.memory.readWord (g.get .sp + 4) = .ok exitSyscall

/-- The call that the next step makes, with the guest that is lent for it. -/
def dispatched? (g : Guest) : Option (Word × Guest) :=
  g.calls?.map fun id => (id, g)

theorem dispatched?_of_not_call {g : Guest}
    (h : ∀ id, g.get .pc = syscallEntry → g.memory.readWord (g.get .sp + 4) = .ok id →
      id = exitSyscall) : g.dispatched? = none := by
  rw [dispatched?, Option.map_eq_none_iff, Option.eq_none_iff_forall_ne_some]
  intro id hid
  obtain ⟨hpc, hread, hne⟩ := calls?_eq_some.mp hid
  exact hne (h id hpc hread)

theorem dispatched?_of_call {g : Guest} {id : Word} (hpc : g.get .pc = syscallEntry)
    (hid : g.memory.readWord (g.get .sp + 4) = .ok id) (hne : id ≠ exitSyscall) :
    g.dispatched? = some (id, g) := by
  rw [dispatched?, calls?_eq_some.mpr ⟨hpc, hid, hne⟩]
  rfl

theorem fst_of_dispatched? {g : Guest} {call : Word × Guest} (h : g.dispatched? = some call) :
    call.1 ≠ exitSyscall := by
  obtain ⟨id, hid, rfl⟩ := Option.map_eq_some_iff.mp h
  exact (calls?_eq_some.mp hid).2.2

end Guest

/-- An environment whose handler keeps a record of its calls. -/
abbrev Environment.recorded {α β : Type} (serve : SyscallHandler α) (observe : Event → β → β) :
    Environment ((α × List (Word × Guest)) × β) :=
  .beside serve.recorded observe

/-- What a call does to the record, to the observer and to the rest. -/
theorem Environment.serve_recorded {α β : Type} {serve : SyscallHandler α}
    {observe : Event → β → β} {id : Word} {guest guest' : Guest}
    {world world' : (α × List (Word × Guest)) × β} {outcome : Except SyscallError Unit}
    (h : (recorded serve observe).serve id guest world = (outcome, guest', world')) :
    outcome = (serve id guest world.1.1).1 ∧ world'.1.2 = world.1.2 ++ [(id, guest)] ∧
      world'.2 = world.2 := by
  obtain ⟨rfl, hrest⟩ := Prod.mk.inj h
  obtain ⟨-, rfl⟩ := Prod.mk.inj hrest
  exact ⟨rfl, rfl, rfl⟩

namespace Machine

/-! ### The exit -/

section

variable {ω : Type} (env : Environment ω) (m : Machine ω)

/-- **A step ends the run exactly at the exit.** -/
theorem step_eq_halted_iff : (m.step env).1 = .ok .halted ↔ m.guest.AtExit := by
  constructor
  · rcases hstep : m.step env with ⟨result, m'⟩
    rintro rfl
    cases stepped_of_step hstep with
    | exited hpc hid => exact ⟨hpc, hid⟩
    | served _ _ _ _ hretire | executed _ _ _ hretire =>
        rcases retire_cases hretire with ⟨_, _, hresult, _⟩ | ⟨_, hresult, _⟩
        · contradiction
        · exact absurd (Except.ok.inj hresult) (by decide)
  · rintro ⟨hpc, hid⟩
    rw [step, if_pos hpc]
    simp only [enterSyscall, hid]
    rfl

theorem guest_step_of_atExit (h : m.guest.AtExit) : (m.step env).2.guest = m.guest :=
  guest_of_step_halted (Prod.ext ((m.step_eq_halted_iff env).mpr h) rfl)

end

theorem Returns.atExit {ω : Type} {env : Environment ω} {n : Nat} {m m' : Machine ω}
    (h : Returns env n m .halted m') : m'.guest.AtExit := by
  obtain ⟨k, mid, result, -, -, hstep, hend⟩ := h.exists_last
  obtain rfl := Ending.ofStep?_eq_halted hend
  have hexit : mid.guest.AtExit := (mid.step_eq_halted_iff env).mp (by rw [hstep])
  rwa [← guest_of_step_halted hstep] at hexit

/-! ### Calls -/

variable {α β : Type} {serve : SyscallHandler α} {observe : Event → β → β}
  {m m' : Machine ((α × List (Word × Guest)) × β)} {result : Except Fault Progress}

/-- The calls that the handler has had. -/
def calls (m : Machine ((α × List (Word × Guest)) × β)) : List (Word × Guest) :=
  m.world.1.2

/-- The end of a step calls nobody, and the observer only hears that it is complete. -/
theorem world_of_retire {world : (α × List (Word × Guest)) × β}
    {outcome : Except Fault Unit × Guest}
    (h : retire (.recorded serve observe) world outcome = (result, m')) :
    m'.world.1 = world.1 ∧
      (m'.world.2 = world.2 ∨ m'.world.2 = observe (.retired m'.guest.registers) world.2) := by
  rcases retire_cases h with ⟨_, _, _, rfl⟩ | ⟨_, _, rfl⟩
  · exact ⟨rfl, Or.inl rfl⟩
  · exact ⟨rfl, Or.inr rfl⟩

/-- **A step adds the call that its guest makes.** -/
theorem calls_step (serve : SyscallHandler α) (observe : Event → β → β)
    (m : Machine ((α × List (Word × Guest)) × β)) :
    (m.step (.recorded serve observe)).2.calls = m.calls ++ m.guest.dispatched?.toList := by
  rcases hstep : m.step (.recorded serve observe) with ⟨result, m'⟩
  -- Whichever way the step goes, the record has grown by the call or not at all.
  have hquiet : ∀ {calls : List (Word × Guest)}, m.guest.dispatched? = none → calls = m.calls →
      calls = m.calls ++ m.guest.dispatched?.toList := by
    intro calls hnone hcalls
    rw [hnone, hcalls]
    exact (List.append_nil _).symm
  cases stepped_of_step hstep with
  | unidentified hpc hid =>
      refine hquiet (Guest.dispatched?_of_not_call fun id _ hok => ?_) rfl
      rw [hid] at hok
      contradiction
  | exited hpc hid =>
      refine hquiet (Guest.dispatched?_of_not_call fun id _ hok => ?_) rfl
      exact Except.ok.inj (hok.symm.trans hid)
  | unserved hpc hid hne hserve =>
      rw [Guest.dispatched?_of_call hpc hid hne]
      exact (Environment.serve_recorded hserve).2.1
  | served hpc hid hne hserve hretire =>
      rw [Guest.dispatched?_of_call hpc hid hne]
      exact (congrArg Prod.snd (world_of_retire hretire).1).trans
        (Environment.serve_recorded hserve).2.1
  | unfetched hpc _ => exact hquiet (Guest.dispatched?_of_not_call fun _ h => absurd h hpc) rfl
  | undecoded hpc _ _ => exact hquiet (Guest.dispatched?_of_not_call fun _ h => absurd h hpc) rfl
  | executed hpc _ _ hretire =>
      refine hquiet (Guest.dispatched?_of_not_call fun _ h => absurd h hpc) ?_
      exact congrArg Prod.snd (world_of_retire hretire).1

/-- **The calls of a run are those of the guests that it visits, in order.** -/
theorem calls_later (serve : SyscallHandler α) (observe : Event → β → β) (n : Nat)
    (m : Machine ((α × List (Word × Guest)) × β)) :
    (m.later (.recorded serve observe) n).calls
      = m.calls ++ (m.visited (.recorded serve observe) n).filterMap (·.guest.dispatched?) := by
  induction n generalizing m with
  | zero => exact (List.append_nil _).symm
  | succ n ih =>
      rw [later, visited, ih, calls_step, List.append_assoc, List.filterMap_cons]
      cases m.guest.dispatched? <;> rfl

/-- What a step that calls the handler does: the handler is called, the observer hears of the
call and maybe of its completion, and what the step complains about in bytes, the handler
has complained about. -/
theorem step_of_call {id : Word} (hpc : m.guest.get .pc = syscallEntry)
    (hid : m.guest.memory.readWord (m.guest.get .sp + 4) = .ok id) (hne : id ≠ exitSyscall)
    (h : m.step (.recorded serve observe) = (result, m')) :
    let told := observe (.syscall id m.guest.registers) m.world.2
    (m'.world.2 = told ∨ m'.world.2 = observe (.retired m'.guest.registers) told) ∧
      ∀ addr cause, result = .error (.decode addr cause) →
        (serve id m.guest m.world.1.1).1 = .error (.fault (.decode addr cause)) := by
  intro told
  cases stepped_of_step h with
  | unidentified _ herror =>
      rw [hid] at herror
      contradiction
  | exited _ hexit => exact absurd (Except.ok.inj (hid.symm.trans hexit)) hne
  | @unserved n e _ _ _ hread _ hserve =>
      obtain rfl := Except.ok.inj (hid.symm.trans hread)
      obtain ⟨houtcome, -, hobserved⟩ := Environment.serve_recorded hserve
      refine ⟨Or.inl hobserved, fun addr cause hresult => houtcome.symm.trans ?_⟩
      cases e with
      | unhandled | failed message => simp [SyscallError.toFault] at hresult
      | fault f => rw [← Except.error.inj hresult]; rfl
  | @served n _ _ _ _ _ hread _ hserve hretire =>
      obtain rfl := Except.ok.inj (hid.symm.trans hread)
      obtain ⟨-, -, hobserved⟩ := Environment.serve_recorded hserve
      refine ⟨?_, fun addr cause hresult => ?_⟩
      · rw [show told = _ from hobserved.symm]
        exact (world_of_retire hretire).2
      · subst hresult
        obtain ⟨_, hfault, _⟩ := Effect.refuses_of_perform (outcome_of_retire_error hretire)
        contradiction
  | unfetched hne' _ | undecoded hne' _ _ | executed hne' _ _ _ => exact absurd hpc hne'

/-- How the next step of a machine deals with system calls. -/
structure Dispatches (serve : SyscallHandler α) (observe : Event → β → β)
    (m : Machine ((α × List (Word × Guest)) × β)) : Prop where
  /-- It ends the run exactly at the exit. -/
  halts_iff : (m.step (.recorded serve observe)).1 = .ok .halted ↔
    m.guest.get .pc = 0 ∧ m.guest.memory.readWord (m.guest.get .sp + 4) = .ok 0
  /-- Then it leaves the guest alone and calls nobody. -/
  halted (h : (m.step (.recorded serve observe)).1 = .ok .halted) :
    (m.step (.recorded serve observe)).2.guest = m.guest ∧
      (m.step (.recorded serve observe)).2.calls = m.calls
  /-- With another identifier the handler is called, just once and with that identifier. -/
  called (hpc : m.guest.get .pc = 0) {id : Word}
    (hid : m.guest.memory.readWord (m.guest.get .sp + 4) = .ok id) (hne : id ≠ 0) :
    (m.step (.recorded serve observe)).2.calls = m.calls ++ [(id, m.guest)]
  /-- Of an instruction the observer hears nothing then, only of the call and maybe of its
  completion. -/
  observed (hpc : m.guest.get .pc = 0) {id : Word}
    (hid : m.guest.memory.readWord (m.guest.get .sp + 4) = .ok id) (hne : id ≠ 0) :
    let told := observe (.syscall id m.guest.registers) m.world.2
    let after := (m.step (.recorded serve observe)).2
    after.world.2 = told ∨ after.world.2 = observe (.retired after.guest.registers) told
  /-- Nor are there bytes that cannot be decoded, unless the handler says so of some. -/
  undecoded (hpc : m.guest.get .pc = 0) {id : Word}
    (hid : m.guest.memory.readWord (m.guest.get .sp + 4) = .ok id) (hne : id ≠ 0)
    {addr : Word} {cause : DecodeError}
    (h : (m.step (.recorded serve observe)).1 = .error (.decode addr cause)) :
    (serve id m.guest m.world.1.1).1 = .error (.fault (.decode addr cause))
  /-- Away from the entry nobody is called. -/
  elsewhere (hpc : m.guest.get .pc ≠ 0) : (m.step (.recorded serve observe)).2.calls = m.calls

theorem dispatches (serve : SyscallHandler α) (observe : Event → β → β)
    (m : Machine ((α × List (Word × Guest)) × β)) : m.Dispatches serve observe where
  halts_iff := m.step_eq_halted_iff _
  halted h := by
    have hexit := (m.step_eq_halted_iff _).mp h
    refine ⟨m.guest_step_of_atExit _ hexit, ?_⟩
    rw [calls_step, Guest.dispatched?_of_not_call fun id _ hid =>
      Except.ok.inj (hid.symm.trans hexit.2)]
    exact List.append_nil _
  called hpc id hid hne := by
    rw [calls_step, Guest.dispatched?_of_call hpc hid hne]
    rfl
  observed hpc id hid hne := (step_of_call hpc hid hne rfl).1
  undecoded hpc id hid hne addr cause h := (step_of_call hpc hid hne rfl).2 addr cause h
  elsewhere hpc := by
    rw [calls_step, Guest.dispatched?_of_not_call fun _ h => absurd h hpc]
    exact List.append_nil _

end Machine

namespace Engine

open Machine

theorem atExit_of_run_halted {ω : Type} {env : Environment ω} {e e' : Engine ω} {patience : Nat}
    (h : e.run env patience = (.halted, e')) : e'.machine.guest.AtExit := by
  obtain ⟨k, m', hafter, hstopped⟩ := resume_cases env (e.stepBound patience) (e.tell env .start)
  have hresume : (e.tell env .start).resume env (e.stepBound patience) = (.halted, e') := h
  rw [hresume] at hafter hstopped
  obtain rfl : e' = (e.tell env .start).after m' k := hafter
  cases hstopped with
  | returned hreturns => exact hreturns.atExit

theorem run_of_atExit {ω : Type} (env : Environment ω) {e : Engine ω} {patience : Nat}
    (hexit : e.machine.guest.AtExit) (hallows : e.Allows 1)
    (hpatience : e.config.budget? = none → 0 < patience) :
    (e.run env patience).1 = .halted ∧
      (e.run env patience).2.machine.guest = e.machine.guest := by
  have hstep : (e.started env).step env = (.ok .halted, ((e.started env).step env).2) :=
    Prod.ext (((e.started env).step_eq_halted_iff env).mpr hexit) rfl
  have hbound : 1 ≤ e.stepBound patience := by
    unfold stepBound remaining?
    cases hbudget : e.config.budget? with
    | none => exact hpatience hbudget
    | some budget => exact Nat.le_add_left 1 _
  have hrun : e.run env patience
      = (.halted, (e.tell env .start).after ((e.started env).step env).2 1) :=
    resume_returns (e := e.tell env .start) (.last hstep rfl) _ rfl hallows hbound
  rw [hrun]
  exact ⟨rfl, guest_step_of_atExit env (e.started env) hexit⟩

/-- **System calls are dispatched by what is on the stack, and only at the entry.**

Every step deals with them as `Machine.Dispatches` says.  So the calls of a run are those of
the guests that it visits, in order, and none has the identifier of the exit; a run that ends
at the exit leaves the guest there; and a run that is started again from there ends at once,
if it may make one step, and leaves the guest as it is. -/
theorem run_dispatches {α β : Type} (serve : SyscallHandler α) (observe : Event → β → β) :
    let env := Environment.recorded serve observe
    (∀ m, Machine.Dispatches serve observe m) ∧
    ∀ (e : Engine ((α × List (Word × Guest)) × β)) (patience : Nat),
      let ending := (e.run env patience).1
      let e' := (e.run env patience).2
      let made := ((e.started env).visited env (e'.executed - e.executed)).filterMap
        (·.guest.dispatched?)
      e'.machine.calls = e.machine.calls ++ made ∧
      (∀ call ∈ made, call.1 ≠ 0) ∧
      (ending = .halted → e'.machine.guest.get .pc = 0 ∧
        e'.machine.guest.memory.readWord (e'.machine.guest.get .sp + 4) = .ok 0 ∧
        ∀ again, (∀ budget, e'.config.budget? = some budget → e'.executed < budget) →
          (e'.config.budget? = none → 0 < again) →
          (e'.run env again).1 = .halted ∧
            (e'.run env again).2.machine.guest = e'.machine.guest) := by
  intro env
  refine ⟨fun m => m.dispatches serve observe, fun e patience => ?_⟩
  intro ending e' made
  refine ⟨?_, ?_, fun hhalted => ?_⟩
  · have hmachine : e'.machine = (e.started env).later env (e'.executed - e.executed) :=
      machine_run env e patience
    rw [hmachine]
    exact calls_later serve observe _ _
  · intro call hcall
    obtain ⟨m, -, hm⟩ := List.mem_filterMap.mp hcall
    exact Guest.fst_of_dispatched? hm
  · have hexit : e'.machine.guest.AtExit := atExit_of_run_halted (Prod.ext hhalted rfl)
    refine ⟨hexit.1, hexit.2, fun again hbudget hpatience => ?_⟩
    exact run_of_atExit env hexit (fun budget h => Nat.sub_pos_of_lt (hbudget budget h)) hpatience

/-- A program that makes the system call 1 and then exits. -/
def callsOne : List UInt8 :=
  [0x1f, 0, 0, 0, 0] ++ [0x07, 0x10, 1, 0, 0, 0] ++ [0x16, 0x10] ++ [0x1b, 0, 0, 0, 0] ++
    [0x07, 0x10, 0, 0, 0, 0] ++ [0x16, 0x10] ++ [0x1b, 0, 0, 0, 0]

theorem run_dispatches_callsOne :
    let env := Environment.recorded (fun _ => Service.nothing) fun _ (heard : Nat) => heard + 1
    let e := (((create .standard (((), []), 0)).init env).load env callsOne).2
    let calling := (e.started env).later env 3
    let e' := (e.run env 10).2
    calling.guest.get .pc = 0 ∧
      calling.guest.memory.readWord (calling.guest.get .sp + 4) = .ok 1 ∧
      (calling.step env).2.calls = [(1, calling.guest)] ∧
      (e.run env 10).1 = .halted ∧ e'.executed = 8 ∧
      e'.machine.calls.map Prod.fst = [1] ∧ (∀ call ∈ e'.machine.calls, call.1 ≠ 0) ∧
      e'.machine.guest.get .pc = 0 ∧
      e'.machine.guest.memory.readWord (e'.machine.guest.get .sp + 4) = .ok 0 ∧
      (e'.run env 1).1 = .halted ∧ (e'.run env 1).2.machine.guest = e'.machine.guest := by
  intro env e calling e'
  obtain ⟨hsteps, hruns⟩ :=
    run_dispatches (fun _ => Service.nothing) fun _ (heard : Nat) => heard + 1
  have hcalls? : calling.guest.calls? = some 1 := by decide +kernel
  obtain ⟨hpc, hread, hne⟩ := Guest.calls?_eq_some.mp hcalls?
  have hfirst : calling.calls = [] := by
    have hcount : calling.calls.length = 0 := by decide +kernel
    exact List.eq_nil_of_length_eq_zero hcount
  have hcalled : (calling.step env).2.calls = calling.calls ++ [(1, calling.guest)] :=
    (hsteps calling).called hpc hread hne
  rw [hfirst] at hcalled
  have hhalted : (e.run env 10).1 = .halted := by decide +kernel
  have hids : e'.machine.calls.map Prod.fst = [1] := by decide +kernel
  obtain ⟨hcalls, hserved, hend⟩ := hruns e 10
  obtain ⟨hpcEnd, hreadEnd, hagain⟩ := hend hhalted
  have hnobudget : e'.config.budget? = none := by decide +kernel
  obtain ⟨hrerun, hguest⟩ := hagain 1
    (fun _ h => absurd (h.symm.trans hnobudget) (by simp)) fun _ => Nat.one_pos
  have hnone : e.machine.calls = [] := rfl
  rw [hnone, List.nil_append] at hcalls
  refine ⟨hpc, hread, hcalled, hhalted, by decide +kernel, hids, ?_, hpcEnd, hreadEnd, hrerun,
    hguest⟩
  rw [hcalls]
  exact hserved

end Engine

end RegisterMachine
