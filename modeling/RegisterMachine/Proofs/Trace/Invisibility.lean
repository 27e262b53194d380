/-
Nobody can tell whether a run is traced.

A tracer is an observer with a world of its own: what it has seen, what it has printed,
whether its sink has failed.  Handlers of system calls do not see that world, and the
machine does not look into it, so `Proofs/Machine/View.lean` applies with the view that
forgets it.  Neither what the tracer does with an event nor how it fails enters anywhere.

To say that a handler is also called alike, and not only that it ends up alike, the handler
is made to keep a record of its calls, with the guests that were lent to it.
-/
import RegisterMachine.Proofs.Machine.Run
import RegisterMachine.Proofs.Machine.View

namespace RegisterMachine

/-- The handler with a record of its calls: for each the identifier and the guest. -/
def SyscallHandler.recorded {α : Type} (serve : SyscallHandler α) :
    SyscallHandler (α × List (Word × Guest)) :=
  fun id guest (world, calls) =>
    let (outcome, guest', world) := serve id guest world
    (outcome, guest', (world, calls ++ [(id, guest)]))

theorem Engine.atStart_mapWorld {ω ω' : Type} {view : ω → ω'} {env : Environment ω}
    {env' : Environment ω'} (h : env.Hom view env') (image : List UInt8) (e : Engine ω) :
    (e.mapWorld view).atStart env' image = (e.atStart env image).mapWorld view := by
  unfold atStart
  rw [prepare_mapWorld h]
  exact tell_mapWorld h _ _

/-- **Tracing is invisible.**

Let a program run once with a tracer and once without, with the same parameters and the same
handler.  Both runs have the same result, and the handler ends in the same world after the
same calls, in the same order and each with the same guest.  And wherever both runs are
interrupted, they have made the same steps: they stand at the same registers and the same
memory, with the same number of fetches counted.

The tracer is any function of the events and of a world `β` of its own.  One that does
nothing is among them, and so is a printer of any verbosity in any colours, whatever its
sink does with the lines and wherever it fails. -/
theorem tracing_is_invisible {α β : Type} (serve : SyscallHandler α) (observe : Event → β → β)
    (image : List UInt8) (a : α) (b : β) :
    (∀ (options : RunOptions) (patience : Nat),
      let traced := runProgram options (.beside serve.recorded observe) patience image ((a, []), b)
      let plain := runProgram options (.silent serve.recorded) patience image (a, [])
      traced.1 = plain.1 ∧ traced.2.1 = plain.2) ∧
    ∀ (config : EngineConfig) (steps : Nat),
      let traced := ((Engine.create config ((a, []), b)).atStart (.beside serve.recorded observe)
        image).resume (.beside serve.recorded observe) steps
      let plain := ((Engine.create config (a, [])).atStart (.silent serve.recorded)
        image).resume (.silent serve.recorded) steps
      traced.1 = plain.1 ∧
        traced.2.machine.guest.registers = plain.2.machine.guest.registers ∧
        traced.2.machine.guest.memory = plain.2.machine.guest.memory ∧
        traced.2.executed = plain.2.executed ∧
        traced.2.machine.world.1 = plain.2.machine.world := by
  have hom := Environment.hom_fst serve.recorded observe
  refine ⟨fun options patience => ?_, fun config steps => ?_⟩
  · have hrun := runProgram_view hom options patience image ((a, []), b)
    exact ⟨(congrArg Prod.fst hrun).symm, (congrArg Prod.snd hrun).symm⟩
  · have hstart := Engine.atStart_mapWorld hom image (Engine.create config ((a, []), b))
    have hresume := Engine.resume_mapWorld hom steps
      ((Engine.create config ((a, []), b)).atStart (.beside serve.recorded observe) image)
    rw [← hstart] at hresume
    have hplain : ((Engine.create config (a, [])).atStart (.silent serve.recorded) image).resume
        (.silent serve.recorded) steps
          = (((Engine.create config ((a, []), b)).atStart (.beside serve.recorded observe)
            image).resume (.beside serve.recorded observe) steps).map id
              (Engine.mapWorld Prod.fst) := hresume
    simp only [hplain]
    exact ⟨rfl, rfl, rfl, rfl, rfl⟩

end RegisterMachine
