/-
A run seen through a view of its world.

The machine passes its world along and never looks into it; only the handler of system calls
and the observer do.  So if a view of the world is respected by both, it is respected by
everything that is made of them: by a step, by the loop, and by a program from its
parameters to its result.  `Environment.Hom` is the requirement, and the lemmas below it say
for one function after another that it may be applied before the view or after.

The view that matters most forgets what belongs to the observer alone.
-/
import RegisterMachine.Machine.Engine

namespace RegisterMachine

variable {ω ω' : Type} {view : ω → ω'} {env : Environment ω} {env' : Environment ω'}

/-- As far as a view of the world shows, the handlers and the observers of two environments
do the same. -/
structure Environment.Hom (view : ω → ω') (env : Environment ω) (env' : Environment ω') :
    Prop where
  serve {id : Word} {guest guest' : Guest} {world world' : ω} {outcome : Except SyscallError Unit}
    (h : env.serve id guest world = (outcome, guest', world')) :
    env'.serve id guest (view world) = (outcome, guest', view world')
  observe (event : Event) (world : ω) :
    env'.observe event (view world) = view (env.observe event world)

/-- An observer with a world of its own is not seen by the handler. -/
theorem Environment.hom_fst {α β : Type} (serve : SyscallHandler α) (observe : Event → β → β) :
    Hom Prod.fst (.beside serve observe) (.silent serve) where
  serve := by
    intro id guest guest' world world' outcome h
    obtain ⟨rfl, hrest⟩ := Prod.mk.inj h
    obtain ⟨rfl, rfl⟩ := Prod.mk.inj hrest
    rfl
  observe _ _ := rfl

namespace Machine

/-- The machine in the world as it is viewed. -/
def mapWorld (view : ω → ω') (m : Machine ω) : Machine ω' :=
  ⟨m.guest, view m.world⟩

theorem tell_mapWorld (h : env.Hom view env') (event : Event) (m : Machine ω) :
    (m.mapWorld view).tell env' event = (m.tell env event).mapWorld view := by
  simp only [tell, mapWorld, h.observe]

theorem retire_view (h : env.Hom view env') (world : ω) (outcome : Except Fault Unit × Guest) :
    retire env' (view world) outcome = (retire env world outcome).map id (mapWorld view) := by
  rcases outcome with ⟨_ | _, guest⟩
  · rfl
  · simp only [retire, tell, h.observe]
    rfl

theorem enterSyscall_mapWorld (h : env.Hom view env') (m : Machine ω) :
    (m.mapWorld view).enterSyscall env' = (m.enterSyscall env).map id (mapWorld view) := by
  have hguest : (m.mapWorld view).guest = m.guest := rfl
  unfold enterSyscall
  rw [hguest]
  cases m.guest.memory.readWord (m.guest.get .sp + 4) with
  | error fault => rfl
  | ok id =>
      simp only [tell_mapWorld h]
      by_cases hexit : id = exitSyscall
      · rw [if_pos hexit, if_pos hexit]
        rfl
      · rw [if_neg hexit, if_neg hexit]
        rcases hserve : env.serve id (m.tell env (.syscall id m.guest.registers)).guest
          (m.tell env (.syscall id m.guest.registers)).world with ⟨_ | _, guest, world⟩
        · simp only [mapWorld, h.serve hserve]
          rfl
        · simp only [mapWorld, h.serve hserve]
          exact retire_view h world guest.ret

theorem executeNext_mapWorld (h : env.Hom view env') (m : Machine ω) :
    (m.mapWorld view).executeNext env' = (m.executeNext env).map id (mapWorld view) := by
  have hguest : (m.mapWorld view).guest = m.guest := rfl
  unfold executeNext
  cases hwindow : m.guest.memory.window (m.guest.get .pc) with
  | error fault =>
      simp only [hguest, hwindow]
      rfl
  | ok window =>
      cases hdecode : Instr.decode window with
      | error cause =>
          simp only [hguest, hwindow, hdecode]
          rfl
      | ok i =>
          simp only [hguest, hwindow, hdecode, tell_mapWorld h]
          exact retire_view h _ _

/-- **A step is seen as a step.** -/
theorem step_mapWorld (h : env.Hom view env') (m : Machine ω) :
    (m.mapWorld view).step env' = (m.step env).map id (mapWorld view) := by
  have hguest : (m.mapWorld view).guest = m.guest := rfl
  unfold step
  rw [hguest]
  split
  · exact enterSyscall_mapWorld h m
  · exact executeNext_mapWorld h m

end Machine

namespace Engine

/-- The engine in the world as it is viewed. -/
def mapWorld (view : ω → ω') (e : Engine ω) : Engine ω' :=
  ⟨e.config, e.machine.mapWorld view, e.executed⟩

theorem tell_mapWorld (h : env.Hom view env') (event : Event) (e : Engine ω) :
    (e.mapWorld view).tell env' event = (e.tell env event).mapWorld view := by
  show Engine.mk e.config ((e.machine.mapWorld view).tell env' event) e.executed = _
  rw [Machine.tell_mapWorld h]
  rfl

theorem init_mapWorld (h : env.Hom view env') (e : Engine ω) :
    (e.mapWorld view).init env' = (e.init env).mapWorld view := by
  have htell := tell_mapWorld h (.initMemory e.config.ramBytes) e
  have hconfig : (e.mapWorld view).config = e.config := rfl
  unfold init
  simp only [hconfig, htell]
  exact tell_mapWorld h _
    ⟨e.config, ⟨⟨.reset _, .zeroed _⟩, (e.tell env (.initMemory _)).machine.world⟩, 0⟩

theorem load_mapWorld (h : env.Hom view env') (image : List UInt8) (e : Engine ω) :
    (e.mapWorld view).load env' image = (e.load env image).map id (mapWorld view) := by
  unfold load
  simp only [tell_mapWorld h]
  have hguest : ((e.tell env (.loadProgram image.length)).mapWorld view).machine.guest
      = (e.tell env (.loadProgram image.length)).machine.guest := rfl
  rw [hguest]
  cases (e.tell env (.loadProgram image.length)).machine.guest.memory.loadImage image <;> rfl

theorem countedStep_mapWorld (h : env.Hom view env') (e : Engine ω) :
    (e.mapWorld view).countedStep env' = (e.countedStep env).map id (mapWorld view) := by
  show (((e.machine.mapWorld view).step env').1,
    Engine.mk e.config ((e.machine.mapWorld view).step env').2 (e.executed + 1)) = _
  rw [Machine.step_mapWorld h]
  rfl

/-- **The loop is seen as the loop.** -/
theorem resume_mapWorld (h : env.Hom view env') (fuel : Nat) (e : Engine ω) :
    (e.mapWorld view).resume env' fuel = (e.resume env fuel).map id (mapWorld view) := by
  induction fuel generalizing e with
  | zero => rfl
  | succ fuel ih =>
      have hbudget : (e.mapWorld view).budgetFault? = e.budgetFault? := rfl
      rw [resume, resume, hbudget]
      cases e.budgetFault? with
      | some fault => rfl
      | none =>
          simp only [countedStep_mapWorld h]
          rcases e.countedStep env with ⟨_ | _ | _, after⟩
          · rfl
          · exact ih after
          · rfl

theorem run_mapWorld (h : env.Hom view env') (patience : Nat) (e : Engine ω) :
    (e.mapWorld view).run env' patience = (e.run env patience).map id (mapWorld view) := by
  unfold run
  rw [tell_mapWorld h]
  exact resume_mapWorld h _ _

theorem prepare_mapWorld (h : env.Hom view env') (image : List UInt8) (e : Engine ω) :
    (e.mapWorld view).prepare env' image = (e.prepare env image).map id (mapWorld view) := by
  have hkind : (e.mapWorld view).kind = e.kind := rfl
  have hconfig : (e.mapWorld view).config = e.config := rfl
  unfold prepare
  rw [hkind, hconfig, tell_mapWorld h, init_mapWorld h, load_mapWorld h]

theorem conclude_mapWorld (h : env.Hom view env') (ending : Ending) (e : Engine ω) :
    (e.mapWorld view).conclude env' ending = (e.conclude env ending).map id (mapWorld view) := by
  cases ending with
  | halted =>
      have hguest : (e.mapWorld view).machine.guest = e.machine.guest := rfl
      simp only [conclude, finish, hguest, tell_mapWorld h]
      rfl
  | faulted fault => rfl
  | unfinished => rfl

theorem execute_mapWorld (h : env.Hom view env') (patience : Nat) (image : List UInt8)
    (e : Engine ω) :
    (e.mapWorld view).execute env' patience image
      = (e.execute env patience image).map id (mapWorld view) := by
  unfold execute
  rw [prepare_mapWorld h]
  rcases e.prepare env image with ⟨_ | _, prepared⟩
  · rfl
  · show ((prepared.mapWorld view).run env' patience).2.conclude env'
      ((prepared.mapWorld view).run env' patience).1 = _
    rw [run_mapWorld h]
    exact conclude_mapWorld h _ _

end Engine

/-- **A program is seen as the program.** -/
theorem runProgram_view (h : env.Hom view env') (options : RunOptions) (patience : Nat)
    (image : List UInt8) (world : ω) :
    runProgram options env' patience image (view world)
      = (runProgram options env patience image world).map id view := by
  unfold runProgram
  cases EngineConfig.ofRequest options.ramMib options.budget? with
  | error e => rfl
  | ok config =>
      have hcreate : Engine.create config (view world)
          = (Engine.create config world).mapWorld view := rfl
      simp only [hcreate, Engine.execute_mapWorld h]
      rfl

end RegisterMachine
