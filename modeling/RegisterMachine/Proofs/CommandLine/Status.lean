/-
What the status of a process says.

A process that is to execute a program may end before there is one: because of its arguments,
because of the engine's name or the image, or because the program cannot be set up.  Otherwise
it ends when the run does, and `exists_run_eq_iff` says how that can be.  The status keeps these
apart: 0 is left to a run that reaches its exit, 1 to a program that is not run, and 2 to a run
that fails.

The exception are the arguments.  The reader of the command line has a status of its own, and
that is 2 again, whichever reader it is (`Documented`).  A caller who gets a 2 therefore cannot
tell a fault of the guest from an argument of its own that was not understood.
-/
import RegisterMachine.Proofs.CommandLine.Arguments
import RegisterMachine.Proofs.CommandLine.Session

namespace RegisterMachine

open Machine (Returns Steps)

/-! ### Memory sizes -/

theorem roundRam_eq_error_iff {requested : Nat} :
    (∃ e, roundRam requested = .error e) ↔ 2048 < requested := by
  have hsizes : ramSizes.find? (requested ≤ ·) = none ↔ 2048 < requested := by
    rw [List.find?_eq_none]
    simp only [ramSizes, List.forall_mem_cons, decide_eq_true_eq, Nat.not_le]
    constructor
    · rintro ⟨-, -, -, -, -, -, -, -, -, h, -⟩
      exact h
    · intro h
      simp
      omega
  rw [← hsizes, roundRam]
  cases ramSizes.find? (requested ≤ ·) <;> simp

theorem EngineConfig.ofRequest_eq_ok {requested : Nat} {budget? : Option Nat}
    {config : EngineConfig} (h : ofRequest requested budget? = .ok config) :
    roundRam requested = .ok config.ramMib ∧ config.budget? = budget? := by
  unfold ofRequest at h
  split at h
  · rename_i mib hmib
    obtain rfl := Except.ok.inj h
    exact ⟨hmib, rfl⟩
  · contradiction

theorem EngineConfig.ofRequest_eq_error_iff {requested : Nat} {budget? : Option Nat} :
    (∃ e, ofRequest requested budget? = .error e) ↔ 2048 < requested := by
  rw [← roundRam_eq_error_iff]
  unfold ofRequest
  split
  · rename_i mib hmib
    simp [hmib]
  · rename_i e he
    simp [he]

namespace CommandLine

/-! ### When a process ends -/

/-- The process that is started with these arguments ends with this status. -/
def Exits (reader : Reader) (write : MapWriter) (terminal : Bool) (args : List String)
    (tree : FileTree) (status : Nat) : Prop :=
  match reader.parse args with
  | .error e => status = reader.status e
  | .ok command =>
    let started := ((command.start terminal : StateM FileTree Started).run tree).1
    ∃ patience, ¬started.GoesOn patience ∧
      (started.finishWith write patience).exitCode = status

/-- What is to be executed, if the command executes a program. -/
def Command.exec? : Command → Option ExecOptions
  | run exec _ | trace exec _ _ => some exec
  | assemble .. | dump .. => none

theorem Command.start_of_exec? {command : Command} {exec : ExecOptions}
    (h : command.exec? = some exec) (terminal : Bool) :
    ∃ printer?, (command.start terminal : StateM FileTree Started)
      = startProgram exec printer? := by
  cases command with
  | run _ _ | trace _ _ _ =>
      obtain rfl := Option.some.inj h
      exact ⟨_, rfl⟩
  | assemble _ _ _ _ | dump _ _ _ _ => contradiction

section

variable {reader : Reader} {write : MapWriter} {terminal : Bool} {args : List String}
  {tree : FileTree} {command : Command} {exec : ExecOptions} {status : Nat}

theorem exits_of_program_error (hparse : reader.parse args = .ok command)
    (hexec : command.exec? = some exec) {message : String}
    (h : exec.program tree = .error message) :
    Exits reader write terminal args tree status ↔ status = 1 := by
  obtain ⟨printer?, hstart⟩ := Command.start_of_exec? hexec terminal
  unfold Exits
  simp only [hparse, hstart, run_startProgram, h]
  exact ⟨fun ⟨_, _, hstatus⟩ => hstatus.symm, fun hstatus => ⟨0, id, hstatus.symm⟩⟩

theorem Outcome.exitCode_ofRun (hwrite : write.Total) (json : Bool) (result : RunResult)
    (t : Terminal) : (ofRun write json (result, t)).exitCode = result.exitCode := by
  cases result with
  | rejected _ | faulted _ | unfinished => rfl
  | halted registers =>
      obtain ⟨text, htext⟩ := hwrite registers.members
      have hfinal : ∃ text, finalText write json t.printer?.isSome registers = .ok text := by
        unfold finalText
        rw [htext]
        split <;> exact ⟨_, rfl⟩
      obtain ⟨text, hfinal⟩ := hfinal
      rw [ofRun_halted hfinal]
      rfl

/-- **The status is that of the run that nobody watches.** -/
theorem exits_of_program_ok (hwrite : write.Total) (hparse : reader.parse args = .ok command)
    (hexec : command.exec? = some exec) {options : RunOptions} {image : List UInt8}
    (h : exec.program tree = .ok (options, image)) :
    Exits reader write terminal args tree status ↔
      ∃ patience, (executed options patience image).1 ≠ .unfinished ∧
        (executed options patience image).1.exitCode = status := by
  obtain ⟨printer?, hstart⟩ := Command.start_of_exec? hexec terminal
  unfold Exits
  simp only [hparse, hstart, run_startProgram, h]
  refine exists_congr fun patience => ?_
  obtain ⟨hfinish, hgoesOn⟩ :=
    Session.finish_ofExcept_start write options exec.json printer? patience image
  rw [hfinish, hgoesOn, (runInTerminal_eq options printer? patience image).1.symm,
    Outcome.exitCode_ofRun hwrite]

end

/-! ### What a run comes to -/

theorem conclude_exitCode {ω : Type} (env : Environment ω) (ending : Ending) (e : Engine ω) :
    let result := (e.conclude env ending).1
    (result ≠ .unfinished ∧ result.exitCode = 0 ↔ ending = .halted) ∧
      (result ≠ .unfinished ∧ result.exitCode = 2 ↔ ∃ fault, ending = .faulted fault) ∧
      result.exitCode ≠ 1 := by
  cases ending <;> simp [Engine.conclude, RunResult.exitCode, Engine.finish]

section

variable {options : RunOptions} {patience : Nat} {image : List UInt8} {config : EngineConfig}

theorem executed_of_config_error {e : SetupError}
    (h : EngineConfig.ofRequest options.ramMib options.budget? = .error e) :
    executed options patience image = (.rejected e, []) := by
  rw [executed, runProgram, h]

theorem executed_too_large (h : EngineConfig.ofRequest options.ramMib options.budget? = .ok config)
    (hlarge : config.ramBytes < image.length) :
    (executed options patience image).1
      = .rejected (.imageTooLarge image.length config.ramBytes) := by
  rw [executed, runProgram, h]
  have hreject := Engine.execute_too_large .console patience (Engine.create config []) hlarge
  simp only [hreject]
  simp only [Engine.create]

/-- A program that is rejected has no other status than 1, whatever the patience. -/
theorem exists_executed_iff_of_rejected
    (h : ∀ patience, ∃ e, (executed options patience image).1 = .rejected e) {status : Nat} :
    (∃ patience, (executed options patience image).1 ≠ .unfinished ∧
        (executed options patience image).1.exitCode = status) ↔ status = 1 := by
  constructor
  · rintro ⟨patience, -, rfl⟩
    obtain ⟨e, he⟩ := h patience
    rw [he]
    rfl
  · rintro rfl
    obtain ⟨e, he⟩ := h 0
    exact ⟨0, by rw [he]; simp, by rw [he]; rfl⟩

/-- The engine that executes a program, set up and not yet started. -/
def prepared (config : EngineConfig) (image : List UInt8) : Engine (List UInt8) :=
  ((Engine.create config []).prepare .console image).2

variable (options)

theorem executed_of_fits (patience : Nat)
    (h : EngineConfig.ofRequest options.ramMib options.budget? = .ok config)
    (hfits : image.length ≤ config.ramBytes) :
    ∃ e, (executed options patience image).1
      = (Engine.conclude .console ((prepared config image).run .console patience).1 e).1 := by
  obtain ⟨loaded, hload, -, -⟩ := Engine.load_init_of_le .console
    ((Engine.create config []).tell .console (.configure .interpreter image.length config.ramMib))
    hfits
  have hprepare : (Engine.create config []).prepare .console image = (.ok (), loaded) := hload
  rw [executed, runProgram, h]
  simp only [Engine.execute, prepared, hprepare]
  exact ⟨_, rfl⟩

/-- **The status of a program that fits is told by how its run ends.** -/
theorem exists_executed_iff
    (hconfig : EngineConfig.ofRequest options.ramMib options.budget? = .ok config)
    (hfits : image.length ≤ config.ramBytes) {status : Nat} {P : Ending → Prop}
    (hP : ∀ ending (e : Engine (List UInt8)), ((e.conclude .console ending).1 ≠ .unfinished ∧
      (e.conclude .console ending).1.exitCode = status) ↔ P ending) :
    (∃ patience, (executed options patience image).1 ≠ .unfinished ∧
        (executed options patience image).1.exitCode = status) ↔
      ∃ patience, P ((prepared config image).run .console patience).1 := by
  refine exists_congr fun patience => ?_
  obtain ⟨e, hresult⟩ := executed_of_fits options patience hconfig hfits
  rw [hresult]
  exact hP _ e

/-- The run of a program that has been set up returns within its budget or uses this up. -/
theorem exists_run_prepared_iff
    (hconfig : EngineConfig.ofRequest options.ramMib options.budget? = .ok config)
    {ending : Ending} (hends : ending ≠ .unfinished) :
    (∃ patience, ((prepared config image).run .console patience).1 = ending) ↔
      (∃ n m', Returns .console n ((prepared config image).started .console) ending m' ∧
        ∀ fuel, options.budget? = some fuel → n ≤ fuel) ∨
      ∃ fuel m', options.budget? = some fuel ∧
        Steps .console fuel ((prepared config image).started .console) m' ∧
        ending = .faulted (.budgetExhausted fuel) := by
  have hfresh : (prepared config image).executed = 0 :=
    Engine.executed_atStart .console image (Engine.create config [])
  have hbudget : (prepared config image).config.budget? = options.budget? := by
    rw [show (prepared config image).config = config from Engine.config_load _ _ _]
    exact (EngineConfig.ofRequest_eq_ok hconfig).2
  rw [← hbudget]
  exact Engine.exists_run_eq_iff hfresh hends

end

/-- A program has been set up: it is this machine that makes the first step, and the most
steps that it may make are those that the command grants. -/
inductive SetUp (exec : ExecOptions) (tree : FileTree) : Machine (List UInt8) → Prop
  | intro {engine : EngineKind} {image : List UInt8} {config : EngineConfig}
      (hengine : EngineKind.ofName exec.engine = .ok engine)
      (himage : imageIn tree exec = .ok image)
      (hconfig : EngineConfig.ofRequest exec.ramMib exec.fuel? = .ok config)
      (hfits : image.length ≤ config.ramBytes) :
      SetUp exec tree ((Engine.create config []).atStart .console image).machine

/-- What the status says of a process that executes a program, once its arguments are read. -/
structure Tells (exec : ExecOptions) (tree : FileTree) (exits : Nat → Prop) : Prop where
  /-- Status 0: the program is set up and reaches its exit within its budget. -/
  halted : exits 0 ↔ ∃ start n m', SetUp exec tree start ∧ Returns .console n start .halted m' ∧
    m'.guest.AtExit ∧ ∀ fuel, exec.fuel? = some fuel → n ≤ fuel
  /-- Status 2: the program is set up, and a step fails within its budget or it uses this up. -/
  faulted : exits 2 ↔ ∃ start, SetUp exec tree start ∧
    ((∃ n fault m', Returns .console n start (.faulted fault) m' ∧
        ∀ fuel, exec.fuel? = some fuel → n ≤ fuel) ∨
      ∃ fuel m', exec.fuel? = some fuel ∧ Steps .console fuel start m')
  /-- Status 1: there is no such engine, or the image is not read, or it or the memory that is
  asked for is too large. -/
  refused : exits 1 ↔ (∃ e, EngineKind.ofName exec.engine = .error e) ∨
    (∃ e, imageIn tree exec = .error e) ∨ 2048 < exec.ramMib ∨
    ∃ image mib, imageIn tree exec = .ok image ∧ roundRam exec.ramMib = .ok mib ∧
      mib * 0x100000 < image.length
  /-- There are no other statuses. -/
  range : ∀ status, exits status → status ≤ 2

section

variable {exec : ExecOptions} {tree : FileTree} {exits : Nat → Prop} {engine : EngineKind}
  {image : List UInt8} {config : EngineConfig}

/-- There is only one way in which a program is set up. -/
theorem SetUp.eq {start : Machine (List UInt8)} (himage : imageIn tree exec = .ok image)
    (hconfig : EngineConfig.ofRequest exec.ramMib exec.fuel? = .ok config)
    (h : SetUp exec tree start) :
    image.length ≤ config.ramBytes ∧
      start = ((Engine.create config []).atStart .console image).machine := by
  obtain ⟨-, himage', hconfig', hfits⟩ := h
  obtain rfl := Except.ok.inj (himage'.symm.trans himage)
  obtain rfl := Except.ok.inj (hconfig'.symm.trans hconfig)
  exact ⟨hfits, rfl⟩

/-- **A program that is set up is told by how its run ends.** -/
theorem tells_of_fits (hengine : EngineKind.ofName exec.engine = .ok engine)
    (himage : imageIn tree exec = .ok image)
    (hconfig : EngineConfig.ofRequest exec.ramMib exec.fuel? = .ok config)
    (hfits : image.length ≤ config.ramBytes)
    (hexits : ∀ status, exits status ↔ ∃ patience,
      (executed ⟨exec.ramMib, engine, exec.fuel?⟩ patience image).1 ≠ .unfinished ∧
        (executed ⟨exec.ramMib, engine, exec.fuel?⟩ patience image).1.exitCode = status) :
    Tells exec tree exits := by
  have hsetUp : SetUp exec tree ((prepared config image).started .console) :=
    .intro hengine himage hconfig hfits
  refine ⟨?_, ?_, ?_, ?_⟩
  · rw [hexits, exists_executed_iff ⟨_, engine, _⟩ hconfig hfits
      fun ending e => (conclude_exitCode .console ending e).1,
      exists_run_prepared_iff ⟨_, engine, _⟩ hconfig (by simp)]
    constructor
    · rintro (⟨n, m', hreturns, hfuel⟩ | ⟨_, _, _, _, h⟩)
      · exact ⟨_, n, m', hsetUp, hreturns, hreturns.atExit, hfuel⟩
      · exact nomatch h
    · rintro ⟨start, n, m', hstart, hreturns, -, hfuel⟩
      obtain ⟨-, rfl⟩ := hstart.eq himage hconfig
      exact Or.inl ⟨n, m', hreturns, hfuel⟩
  · rw [hexits, exists_executed_iff ⟨_, engine, _⟩ hconfig hfits
      fun ending e => (conclude_exitCode .console ending e).2.1, exists_comm]
    constructor
    · rintro ⟨fault, h⟩
      rcases (exists_run_prepared_iff ⟨_, engine, _⟩ hconfig (by simp)).mp h with
        ⟨n, m', hreturns, hfuel⟩ | ⟨fuel, m', hfuel, hsteps, -⟩
      · exact ⟨_, hsetUp, Or.inl ⟨n, fault, m', hreturns, hfuel⟩⟩
      · exact ⟨_, hsetUp, Or.inr ⟨fuel, m', hfuel, hsteps⟩⟩
    · rintro ⟨start, hstart, h⟩
      obtain ⟨-, rfl⟩ := hstart.eq himage hconfig
      rcases h with ⟨n, fault, m', hreturns, hfuel⟩ | ⟨fuel, m', hfuel, hsteps⟩
      · refine ⟨fault, (exists_run_prepared_iff ⟨_, engine, _⟩ hconfig (by simp)).mpr ?_⟩
        exact Or.inl ⟨n, m', hreturns, hfuel⟩
      · refine ⟨.budgetExhausted fuel,
          (exists_run_prepared_iff ⟨_, engine, _⟩ hconfig (by simp)).mpr ?_⟩
        exact Or.inr ⟨fuel, m', hfuel, hsteps, rfl⟩
  · have hround := (EngineConfig.ofRequest_eq_ok hconfig).1
    refine iff_of_false (fun h => ?_) ?_
    · obtain ⟨patience, -, hone⟩ := (hexits 1).mp h
      obtain ⟨e, hresult⟩ := executed_of_fits ⟨_, engine, _⟩ patience hconfig hfits
      rw [hresult] at hone
      exact (conclude_exitCode _ _ _).2.2 hone
    · rintro (⟨_, h⟩ | ⟨_, h⟩ | h | ⟨image', mib, himage', hmib, h⟩)
      · rw [hengine] at h
        exact nomatch h
      · rw [himage] at h
        exact nomatch h
      · obtain ⟨_, herror⟩ := roundRam_eq_error_iff.mpr h
        rw [hround] at herror
        exact nomatch herror
      · obtain rfl := Except.ok.inj (himage'.symm.trans himage)
        obtain rfl := Except.ok.inj (hmib.symm.trans hround)
        exact Nat.not_lt.mpr hfits h
  · intro status h
    obtain ⟨patience, -, rfl⟩ := (hexits status).mp h
    unfold RunResult.exitCode
    split <;> decide

theorem tells_of_refused (hexits : ∀ status, exits status ↔ status = 1)
    (hnot : ∀ start, ¬SetUp exec tree start)
    (hwhy : (∃ e, EngineKind.ofName exec.engine = .error e) ∨
      (∃ e, imageIn tree exec = .error e) ∨ 2048 < exec.ramMib ∨
      ∃ image mib, imageIn tree exec = .ok image ∧ roundRam exec.ramMib = .ok mib ∧
        mib * 0x100000 < image.length) :
    Tells exec tree exits where
  halted := iff_of_false (fun h => absurd ((hexits 0).mp h) (by decide))
    fun ⟨start, _, _, hstart, _⟩ => hnot start hstart
  faulted := iff_of_false (fun h => absurd ((hexits 2).mp h) (by decide))
    fun ⟨start, hstart, _⟩ => hnot start hstart
  refused := iff_of_true ((hexits 1).mpr rfl) hwhy
  range status h := by
    rw [(hexits status).mp h]
    decide

end

/-- **A command that executes a program tells by its status how that went.** -/
theorem tells_of_command {reader : Reader} {write : MapWriter} (hwrite : write.Total)
    {terminal : Bool} {args : List String} {tree : FileTree} {command : Command}
    {exec : ExecOptions} (hparse : reader.parse args = .ok command)
    (hexec : command.exec? = some exec) :
    Tells exec tree (Exits reader write terminal args tree) := by
  cases hprogram : exec.program tree with
  | error message =>
      have hwhy := ExecOptions.program_eq_error.mp ⟨message, hprogram⟩
      refine tells_of_refused (fun status => exits_of_program_error hparse hexec hprogram) ?_ ?_
      · rintro _ ⟨hengine, himage, -, -⟩
        rcases hwhy with ⟨_, h⟩ | ⟨_, h⟩
        · exact nomatch hengine.symm.trans h
        · exact nomatch himage.symm.trans h
      · exact hwhy.imp_right Or.inl
  | ok program =>
      obtain ⟨options, image⟩ := program
      have hexits : ∀ status, Exits reader write terminal args tree status ↔ ∃ patience,
          (executed options patience image).1 ≠ .unfinished ∧
            (executed options patience image).1.exitCode = status :=
        fun _ => exits_of_program_ok hwrite hparse hexec hprogram
      obtain ⟨engine, hengine, himage, rfl⟩ := ExecOptions.program_eq_ok.mp hprogram
      cases hconfig : EngineConfig.ofRequest exec.ramMib exec.fuel? with
      | error e =>
          have hrejected : ∀ patience, ∃ e,
              (executed ⟨exec.ramMib, engine, exec.fuel?⟩ patience image).1 = .rejected e :=
            fun _ => ⟨e, by rw [executed_of_config_error hconfig]⟩
          refine tells_of_refused
            (fun status => (hexits status).trans (exists_executed_iff_of_rejected hrejected)) ?_ ?_
          · rintro _ ⟨-, -, h, -⟩
            exact nomatch h.symm.trans hconfig
          · exact Or.inr (Or.inr (Or.inl (EngineConfig.ofRequest_eq_error_iff.mp ⟨e, hconfig⟩)))
      | ok config =>
          rcases Nat.lt_or_ge config.ramBytes image.length with hlarge | hfits
          · have hrejected : ∀ patience, ∃ e,
                (executed ⟨exec.ramMib, engine, exec.fuel?⟩ patience image).1 = .rejected e :=
              fun _ => ⟨_, executed_too_large hconfig hlarge⟩
            refine tells_of_refused
              (fun status => (hexits status).trans (exists_executed_iff_of_rejected hrejected))
              ?_ ?_
            · exact fun _ h => Nat.not_lt.mpr (h.eq himage hconfig).1 hlarge
            · have hround := (EngineConfig.ofRequest_eq_ok hconfig).1
              exact Or.inr (Or.inr (Or.inr ⟨image, _, himage, hround, hlarge⟩))
          · exact tells_of_fits hengine himage hconfig hfits hexits

/-- What the status says of a process that is to execute a program. -/
structure StatusOf (reader : Reader) (write : MapWriter) (terminal : Bool) (args : List String)
    (tree : FileTree) : Prop where
  /-- Arguments that are not understood end the process with status 2. -/
  usage (e : UsageError) (h : reader.parse args = .error e) (hhelp : e ≠ .helpRequested)
    (status : Nat) : Exits reader write terminal args tree status ↔ status = 2
  /-- If they are, the status tells what becomes of the program. -/
  program (command : Command) (h : reader.parse args = .ok command) :
    ∃ exec, command.exec? = some exec ∧ Tells exec tree (Exits reader write terminal args tree)

/-- **The status tells a run that reaches its exit, a program that is not run and a run that
fails apart**, but arguments that are not understood have the status of a run that fails.

This is so for both commands that execute a program, whatever arguments they are given, whatever
reads these and whatever the files hold. -/
theorem exit_status {reader : Reader} (hreader : reader.Documented) {write : MapWriter}
    (hwrite : write.Total) (terminal : Bool) (args : List String) (tree : FileTree) :
    StatusOf reader write terminal ("run" :: args) tree ∧
      StatusOf reader write terminal ("trace" :: args) tree := by
  have husage : ∀ {word e}, reader.parse (word :: args) = .error e → e ≠ .helpRequested →
      ∀ status, (Exits reader write terminal (word :: args) tree status ↔ status = 2) := by
    intro word e h hhelp status
    unfold Exits
    simp only [h, hreader.status_usage hhelp]
  rcases parse_run_trace hreader args with
    ⟨e, hrun, htrace⟩ | ⟨exec, debug, verbosity, color, hrun, htrace⟩
  · refine ⟨⟨fun _ h hhelp => husage h hhelp, fun _ h => ?_⟩,
      ⟨fun _ h hhelp => husage h hhelp, fun _ h => ?_⟩⟩
    · exact nomatch h.symm.trans hrun
    · exact nomatch h.symm.trans htrace
  · refine ⟨⟨fun _ h hhelp => husage h hhelp, fun command h => ?_⟩,
      ⟨fun _ h hhelp => husage h hhelp, fun command h => ?_⟩⟩
    · obtain rfl := Except.ok.inj (h.symm.trans hrun)
      exact ⟨exec, rfl, tells_of_command hwrite hrun rfl⟩
    · obtain rfl := Except.ok.inj (h.symm.trans htrace)
      exact ⟨exec, rfl, tells_of_command hwrite htrace rfl⟩

/-- The program's own reader and writer, with arguments that are not understood and with arguments
that are. -/
theorem exit_status_of_arguments :
    Reader.standard.Documented ∧ MapWriter.pretty.Total ∧
      parse ["run"] = .error .missingPath ∧
      (∀ status, Exits .standard .pretty false ["run"] ⟨[]⟩ status ↔ status = 2) ∧
      parse ["trace", "prog.hex"]
        = .ok (.trace ⟨"prog.hex", false, 4, "interpreter", none, false⟩ .brief .auto) ∧
      Tells ⟨"prog.hex", false, 4, "interpreter", none, false⟩ ⟨[]⟩
        (Exits .standard .pretty false ["trace", "prog.hex"] ⟨[]⟩) := by
  refine ⟨Reader.documented_standard, MapWriter.total_pretty, rfl, ?_, rfl, ?_⟩
  · exact (exit_status Reader.documented_standard MapWriter.total_pretty false [] ⟨[]⟩).1.usage
      .missingPath rfl (by decide)
  · obtain ⟨exec, hexec, htells⟩ := (exit_status Reader.documented_standard
      MapWriter.total_pretty false ["prog.hex"] ⟨[]⟩).2.program _ rfl
    obtain rfl := Option.some.inj hexec
    exact htells

/-- A command line without a path is a usage error and no request for help, and it does not end
with the status of those. -/
theorem exits_missing_path :
    parse ["run"] = .error .missingPath ∧ Exits .standard .pretty false ["run"] ⟨[]⟩ 2 ∧
      ¬Exits .standard .pretty false ["run"] ⟨[]⟩ 1 := by
  have hexits : ∀ status, Exits .standard .pretty false ["run"] ⟨[]⟩ status ↔ status = 2 :=
    fun _ => Iff.rfl
  exact ⟨rfl, (hexits 2).mpr rfl, fun h => absurd ((hexits 1).mp h) (by decide)⟩

end CommandLine

end RegisterMachine
