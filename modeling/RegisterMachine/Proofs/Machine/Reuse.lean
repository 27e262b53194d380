/-
An engine may be used again, and a program may be run in several ways.

Before it executes a program, an engine is set up anew: memory, registers and counter are
replaced, and what they have been enters nowhere.  So all that an execution can know of the
past are the parameters, and these no operation changes (`Used.config_eq`).

Besides, a program may be run by one call that makes the engine and throws it away, or by
someone who does to an engine what `execute` does, one thing after another.  The latter need
not tell the environment of the parameters and of the end, nor be observed during the run.
None of this shows, since an observer's world is not seen by anyone else.
-/
import RegisterMachine.Proofs.Machine.Dispatch

namespace RegisterMachine

namespace Engine

variable {ω ω' : Type}

/-- The engine in another world, with another handler and another observer perhaps. -/
def lent (world : ω') (e : Engine ω) : Engine ω' :=
  e.mapWorld fun _ => world

/-- What may have become of an engine with the given parameters.

Every operation may have an environment of its own, and may have ended in whatever way. -/
inductive Used (config : EngineConfig) : {ω : Type} → Engine ω → Prop
  | created {ω : Type} (world : ω) : Used config (create config world)
  | lent {ω ω' : Type} {e : Engine ω} (h : Used config e) (world : ω') : Used config (e.lent world)
  | init {ω : Type} {e : Engine ω} (h : Used config e) (env : Environment ω) :
      Used config (e.init env)
  | load {ω : Type} {e : Engine ω} (h : Used config e) (env : Environment ω) (image : List UInt8) :
      Used config (e.load env image).2
  | step {ω : Type} {e : Engine ω} (h : Used config e) (env : Environment ω) :
      Used config (e.step env).2
  | run {ω : Type} {e : Engine ω} (h : Used config e) (env : Environment ω) (patience : Nat) :
      Used config (e.run env patience).2
  | finish {ω : Type} {e : Engine ω} (h : Used config e) (env : Environment ω) :
      Used config (e.finish env).2
  | execute {ω : Type} {e : Engine ω} (h : Used config e) (env : Environment ω) (patience : Nat)
      (image : List UInt8) : Used config (e.execute env patience image).2
  /-- Registers and memory have been edited from outside. -/
  | edited {ω : Type} {e : Engine ω} (h : Used config e) (guest : Guest) :
      Used config { e with machine.guest := guest }

/-! ### No operation changes the parameters -/

section

variable (env : Environment ω) (e : Engine ω)

theorem config_load (image : List UInt8) : (e.load env image).2.config = e.config := by
  rw [load]
  split <;> rfl

theorem config_run (patience : Nat) : (e.run env patience).2.config = e.config := by
  obtain ⟨k, m', hafter, -⟩ := resume_cases env (e.stepBound patience) (e.tell env .start)
  have hrun : (e.run env patience).2 = (e.tell env .start).after m' k := hafter
  rw [hrun]
  rfl

theorem config_conclude (ending : Ending) : (e.conclude env ending).2.config = e.config := by
  cases ending <;> rfl

theorem executed_conclude (ending : Ending) :
    (e.conclude env ending).2.executed = e.executed := by
  cases ending <;> rfl

theorem config_execute (patience : Nat) (image : List UInt8) :
    (e.execute env patience image).2.config = e.config := by
  have hprepare : (e.prepare env image).2.config = e.config := config_load _ _ _
  rw [execute]
  rcases hprepared : e.prepare env image with ⟨_ | _, prepared⟩
  all_goals rw [hprepared] at hprepare
  · exact hprepare
  · exact (config_conclude _ _ _).trans ((config_run _ _ _).trans hprepare)

end

theorem Used.config_eq {config : EngineConfig} {e : Engine ω} (h : Used config e) :
    e.config = config := by
  induction h with
  | created _ => rfl
  | lent _ _ ih | init _ _ ih | step _ _ ih | finish _ _ ih | edited _ _ ih => exact ih
  | load _ env image ih => exact (config_load env _ image).trans ih
  | run _ env patience ih => exact (config_run env _ patience).trans ih
  | execute _ env patience image ih => exact (config_execute env _ patience image).trans ih

/-- **An execution starts afresh**: of the engine's past only the parameters enter. -/
theorem execute_afresh (env : Environment ω) (patience : Nat) (image : List UInt8)
    (e : Engine ω) :
    e.execute env patience image
      = (create e.config e.machine.world).execute env patience image := by
  have hinit : (e.tell env (.configure e.kind image.length e.config.ramMib)).init env
      = ((create e.config e.machine.world).tell env
          (.configure .interpreter image.length e.config.ramMib)).init env := rfl
  rw [execute, prepare, hinit]
  rfl

theorem Used.execute_eq {config : EngineConfig} {e : Engine ω} (h : Used config e)
    (world : ω') (env : Environment ω') (patience : Nat) (image : List UInt8) :
    (e.lent world).execute env patience image
      = (create config world).execute env patience image := by
  have hconfig : (e.lent world).config = config := h.config_eq
  rw [execute_afresh, hconfig]
  rfl

/-! ### Driving an engine directly -/

variable {α β : Type}

/-- Runs a program from a fresh start by setting up, loading and running in turn.  The run
itself is not observed, and the result is read off the machine that it leaves. -/
def drive (serve : SyscallHandler α) (observe : Event → β → β) (patience : Nat)
    (image : List UInt8) (e : Engine (α × β)) : RunResult × Engine (α × β) :=
  let env := Environment.beside serve observe
  match (e.init env).load env image with
  | (.error error, e) => (.rejected error, e)
  | (.ok (), e) =>
    match e.run (.beside serve fun _ observed => observed) patience with
    | (.halted, e) => (.halted e.machine.guest.registers, e)
    | (.faulted fault, e) => (.faulted fault, e)
    | (.unfinished, e) => (.unfinished, e)

/-- To everyone but the observer, driving an engine is executing the program. -/
theorem drive_fst (serve : SyscallHandler α) (observe : Event → β → β) (patience : Nat)
    (image : List UInt8) (e : Engine (α × β)) :
    (e.drive serve observe patience image).map id (mapWorld Prod.fst)
      = (e.mapWorld Prod.fst).execute (.silent serve) patience image := by
  have hom := Environment.hom_fst serve observe
  have hprepare : (e.mapWorld Prod.fst).prepare (.silent serve) image
      = ((e.init (.beside serve observe)).load (.beside serve observe) image).map id
          (mapWorld Prod.fst) := by
    rw [← load_mapWorld hom, ← init_mapWorld hom]
    rfl
  rw [execute, hprepare, drive]
  rcases (e.init (.beside serve observe)).load (.beside serve observe) image with
    ⟨_ | _, loaded⟩
  · rfl
  · have hrun := run_mapWorld (Environment.hom_fst serve fun _ (observed : β) => observed) patience
      loaded
    simp only [Prod.map, id, hrun]
    rcases loaded.run (.beside serve fun _ observed => observed) patience with
      ⟨_ | _ | _, finished⟩ <;> rfl

theorem drive_eq_execute (serve : SyscallHandler α) (observe : Event → β → β) (patience : Nat)
    (image : List UInt8) (e : Engine (α × β)) :
    (e.drive serve observe patience image).map id (mapWorld Prod.fst)
      = (e.execute (.beside serve observe) patience image).map id (mapWorld Prod.fst) :=
  (drive_fst serve observe patience image e).trans
    (execute_mapWorld (Environment.hom_fst serve observe) patience image e)

/-! ### Images that do not fit -/

section

variable (env : Environment ω) (patience : Nat) {image : List UInt8} (e : Engine ω)

theorem prepare_too_large (h : e.config.ramBytes < image.length) :
    e.prepare env image
      = (.error (.imageTooLarge image.length e.config.ramBytes),
        ((e.tell env (.configure e.kind image.length e.config.ramMib)).init env).tell env
          (.loadProgram image.length)) := by
  have hload := Memory.loadImage_of_lt (m := .zeroed e.config.ramBytes) h
  have hmemory : ((((e.tell env (.configure e.kind image.length e.config.ramMib)).init env).tell env
      (.loadProgram image.length)).machine.guest.memory.loadImage image)
        = .error (.imageTooLarge image.length e.config.ramBytes) := hload
  rw [prepare, load]
  simp only [hmemory]

theorem execute_too_large (h : e.config.ramBytes < image.length) :
    e.execute env patience image
      = (.rejected (.imageTooLarge image.length e.config.ramBytes),
        ((e.tell env (.configure e.kind image.length e.config.ramMib)).init env).tell env
          (.loadProgram image.length)) := by
  rw [execute, prepare_too_large env e h]

end

/-! ### The result -/

theorem registers_of_conclude {env : Environment ω} {ending : Ending} {e : Engine ω}
    {registers : RegisterFile} (h : (e.conclude env ending).1 = .halted registers) :
    (e.conclude env ending).2.machine.guest.registers = registers := by
  cases ending with
  | halted => exact RunResult.halted.inj h
  | faulted _ | unfinished => contradiction

theorem registers_of_execute {env : Environment ω} {patience : Nat} {image : List UInt8}
    {e : Engine ω} {registers : RegisterFile} :
    (e.execute env patience image).1 = .halted registers →
      (e.execute env patience image).2.machine.guest.registers = registers := by
  rw [execute]
  rcases e.prepare env image with ⟨_ | _, prepared⟩
  · intro h
    contradiction
  · exact registers_of_conclude

/-- **Neither the past of an engine matters, nor the way in which a program is run.**

Let a program be executed on a new engine, with any handler and any observer.  An engine with
the same parameters, whatever has become of it, executes the program alike: with the same
result, with the same registers and memory at the end, and with the same calls of the
handler.  So does such an engine if it is driven directly, and so does the call that makes an
engine for itself.  An image that is too large is rejected: the memory is all zeros then, the
handler has not been called, and the observer has heard of the preparation and nothing else. -/
theorem every_way_to_run_agrees {α β : Type} (serve : SyscallHandler α)
    (observe : Event → β → β) (options : RunOptions) {config : EngineConfig}
    (hconfig : EngineConfig.ofRequest options.ramMib options.budget? = .ok config)
    (patience : Nat) (image : List UInt8) (a : α) (b : β) :
    let env := Environment.recorded serve observe
    let world : (α × List (Word × Guest)) × β := ((a, []), b)
    let fresh := (create config world).execute env patience image
    (∀ {ω : Type} (e : Engine ω), Used config e →
      (e.lent world).execute env patience image = fresh ∧
      let driven := (e.lent world).drive serve.recorded observe patience image
      driven.1 = fresh.1 ∧
        driven.2.machine.guest.registers = fresh.2.machine.guest.registers ∧
        driven.2.machine.guest.memory = fresh.2.machine.guest.memory ∧
        driven.2.executed = fresh.2.executed ∧
        driven.2.machine.world.1 = fresh.2.machine.world.1) ∧
    runProgram options env patience image world = (fresh.1, fresh.2.machine.world) ∧
    (∀ registers, fresh.1 = .halted registers →
      fresh.2.machine.guest.registers = registers) ∧
    (config.ramBytes < image.length →
      fresh.1 = .rejected (.imageTooLarge image.length config.ramBytes) ∧
        fresh.2.machine.guest.memory.length = config.ramBytes ∧
        (∀ addr, fresh.2.machine.guest.memory.byte addr = 0) ∧
        fresh.2.executed = 0 ∧ fresh.2.machine.calls = [] ∧
        fresh.2.machine.world.2 =
          [.configure options.engine image.length config.ramMib, .initMemory config.ramBytes,
            .initRegisters (.reset (UInt32.ofNat config.ramBytes)),
            .loadProgram image.length].foldl (fun heard event => observe event heard) b) := by
  intro env world fresh
  refine ⟨fun e hused => ?_, ?_, fun registers => registers_of_execute, fun hlarge => ?_⟩
  · have hexecute : (e.lent world).execute env patience image = fresh :=
      hused.execute_eq world env patience image
    have hdriven := drive_eq_execute serve.recorded observe patience image (e.lent world)
    rw [hexecute] at hdriven
    have hresult := congrArg Prod.fst hdriven
    have hengine := congrArg Prod.snd hdriven
    exact ⟨hexecute, hresult, congrArg (·.machine.guest.registers) hengine,
      congrArg (·.machine.guest.memory) hengine, congrArg (·.executed) hengine,
      congrArg (·.machine.world) hengine⟩
  · rw [runProgram, hconfig]
  · have hrejected : fresh = (.rejected (.imageTooLarge image.length config.ramBytes), _) :=
      execute_too_large env patience (create config world) hlarge
    rw [hrejected]
    exact ⟨rfl, rfl, Memory.byte_zeroed _, rfl, rfl, rfl⟩

/-- What has become of the engine here: its budget was used up under a longer program, and
then somebody has cleared its registers. -/
theorem every_way_to_run_agrees_pushesSeven :
    let options : RunOptions := { ramMib := 1, budget? := some 3 }
    let config : EngineConfig := ⟨4, some 3, by decide⟩
    let exhausted :=
      ((create config ()).execute (.silent fun _ => Service.nothing) 0 callsOne).2
    let e : Engine Unit := { exhausted with
      machine.guest := { exhausted.machine.guest with registers := .zero } }
    let observe := fun _ (heard : Nat) => heard + 1
    let env := Environment.recorded (noSyscalls Unit) observe
    let world : (Unit × List (Word × Guest)) × Nat := (((), []), 0)
    let fresh := (create config world).execute env 0 pushesSeven
    let large := List.replicate (0x400000 + 1) (0 : UInt8)
    EngineConfig.ofRequest options.ramMib options.budget? = .ok config ∧ Used config e ∧
      e.executed = 3 ∧ e.machine.guest.memory.byte 18 = 7 ∧
      (e.lent world).execute env 0 pushesSeven = fresh ∧
      ((e.lent world).drive (noSyscalls Unit).recorded observe 0 pushesSeven).1 = fresh.1 ∧
      (runProgram options env 0 pushesSeven world).1 = fresh.1 ∧
      fresh.2.executed = 3 ∧ fresh.2.machine.guest.memory.byte 18 = 0 ∧
      config.ramBytes < large.length ∧
      ((create config world).execute env 0 large).1
        = .rejected (.imageTooLarge large.length config.ramBytes) ∧
      ((create config world).execute env 0 large).2.machine.world.2 = 4 := by
  intro options config exhausted e observe env world fresh large
  have hconfig : EngineConfig.ofRequest options.ramMib options.budget? = .ok config := rfl
  have hused : Used config e := ((Used.created ()).execute _ 0 callsOne).edited _
  obtain ⟨hway, hprogram, -, -⟩ :=
    every_way_to_run_agrees (noSyscalls Unit) observe options hconfig 0 pushesSeven () 0
  obtain ⟨-, -, -, hlarge⟩ :=
    every_way_to_run_agrees (noSyscalls Unit) observe options hconfig 0 large () 0
  obtain ⟨hexecute, hdriven, -⟩ := hway e hused
  have hlength : config.ramBytes < large.length := by
    rw [List.length_replicate]
    decide
  obtain ⟨hrejected, -, -, -, -, hheard⟩ := hlarge hlength
  refine ⟨hconfig, hused, by decide +kernel, by decide +kernel, hexecute, hdriven,
    congrArg Prod.fst hprogram, by decide +kernel, by decide +kernel, hlength, hrejected, ?_⟩
  rw [hheard]
  rfl

end Engine

end RegisterMachine
