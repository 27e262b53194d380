/-
A session is a run in its terminal.

A command takes a program through its preparation, its steps and its end one after another, so
that the output can be shown in between.  Put together these are one run of the program
(`finish_ofExcept_start`), and all that the command adds is what it says at the end.

The terminal shows the guest's bytes among the tool's own lines.  Seen without those it is a
row of bytes that takes what the guest writes, and whether the run is traced cannot be seen any
more.  So the status of a command, what it says about errors and the guest's bytes are those
of one and the same run, `executed` below, however it is watched.
-/
import RegisterMachine.CommandLine.Execute
import RegisterMachine.Proofs.CommandLine.Loading
import RegisterMachine.Proofs.Machine.Console

namespace RegisterMachine

/-- What is documented of writers of maps: a map from names to numbers always has a text. -/
def MapWriter.Total (write : MapWriter) : Prop :=
  ∀ members, ∃ text, write members = .ok text

theorem MapWriter.total_pretty : MapWriter.pretty.Total :=
  fun _ => ⟨_, rfl⟩

/-- The environment of a run that nobody watches: what the guest writes is put in a row. -/
abbrev Environment.console : Environment (List UInt8) :=
  .silent (Console.handler fun bytes written => written ++ bytes)

theorem Engine.conclude_eq_unfinished {ω : Type} {env : Environment ω} {ending : Ending}
    {e : Engine ω} : (e.conclude env ending).1 = .unfinished ↔ ending = .unfinished := by
  cases ending with
  | unfinished => exact iff_of_true rfl rfl
  | halted | faulted fault => exact iff_of_false (fun h => nomatch h) (fun h => nomatch h)

namespace CommandLine

/-! ### The guest's bytes -/

/-- The bytes of a chunk that are the guest's. -/
def Chunk.guestBytes : Chunk → List UInt8
  | guest bytes => bytes
  | tool _ => []

/-- The bytes that the guest has written in the course of a command. -/
def Outcome.guestBytes (o : Outcome) : List UInt8 :=
  o.output.flatMap Chunk.guestBytes

namespace Terminal

/-- The bytes that the guest has written to the terminal. -/
def guestBytes (t : Terminal) : List UInt8 :=
  t.written.reverse.flatMap Chunk.guestBytes

theorem guestBytes_write (t : Terminal) (chunk : Chunk) :
    (t.write chunk).guestBytes = t.guestBytes ++ chunk.guestBytes := by
  simp [guestBytes, write]

/-- Lines that are written one after another come on top of what has been written. -/
theorem foldl_write (lines : List String) (t : Terminal) :
    lines.foldl (fun t line => t.write (.tool (line ++ "\n"))) t
      = { t with
          written := (lines.map fun line => .tool (line ++ "\n")).reverse ++ t.written } := by
  induction lines generalizing t with
  | nil => rfl
  | cons line lines ih =>
      rw [List.foldl_cons, ih]
      simp [write]

theorem guestBytes_observe (event : Event) (t : Terminal) :
    (t.observe event).guestBytes = t.guestBytes := by
  unfold observe
  split
  · rfl
  · rw [foldl_write]
    simp [guestBytes, Chunk.guestBytes, List.flatMap_map]

theorem serve_environment :
    environment.serve = Console.handler fun bytes t => t.write (.guest bytes) :=
  rfl

/-- **Without the tool's lines, a terminal is a row of bytes.** -/
theorem hom_guestBytes : environment.Hom guestBytes .console where
  serve {id guest guest' world world' outcome} h := by
    rw [serve_environment] at h
    obtain ⟨rfl, hanswered⟩ := Console.eq_of_handler h
    show Console.handler (fun bytes written => written ++ bytes) id guest' world.guestBytes = _
    rw [Console.handler_eq]
    obtain ⟨e, hanswer, rfl, rfl⟩ | ⟨bytes, hanswer, rfl, rfl⟩ := hanswered
    · rw [hanswer]
    · rw [hanswer, guestBytes_write]
      rfl
  observe event t := (guestBytes_observe event t).symm

end Terminal

/-! ### What a command says at the end -/

namespace Outcome

/-- What is said about errors when a program has this result. -/
def complaint : RunResult → String
  | .rejected e => "error: " ++ e.message ++ "\n"
  | .faulted fault => "runtime error: " ++ fault.message ++ "\n"
  | .halted _ | .unfinished => ""

/-- The outcome of a run that has this result and leaves the terminal like this.  Behind a run
that reaches its exit stand the final registers, unless a trace has reported them. -/
def ofRun (write : MapWriter) (json : Bool) : RunResult × Terminal → Outcome
  | (.halted registers, t) =>
    match finalText write json t.printer?.isSome registers with
    | .ok text => ⟨t.written.reverse ++ [.tool text], "", 0⟩
    | .error e => { failure e with output := t.written.reverse }
  | (result, t) => ⟨t.written.reverse, complaint result, result.exitCode⟩

section

variable {write : MapWriter} {json : Bool} {t : Terminal} {registers : RegisterFile}

theorem ofRun_halted {text : String}
    (h : finalText write json t.printer?.isSome registers = .ok text) :
    ofRun write json (.halted registers, t) = ⟨t.written.reverse ++ [.tool text], "", 0⟩ := by
  simp only [ofRun, h]

theorem ofRun_unwritten {e : String}
    (h : finalText write json t.printer?.isSome registers = .error e) :
    ofRun write json (.halted registers, t) = { failure e with output := t.written.reverse } := by
  simp only [ofRun, h]

end

end Outcome

/-- The result of a program in a terminal, and the terminal that it leaves. -/
def runInTerminal (options : RunOptions) (printer? : Option Trace.Printer) (patience : Nat)
    (image : List UInt8) : RunResult × Terminal :=
  runProgram options Terminal.environment patience image ⟨[], printer?⟩

/-- The result of a program that nobody watches, and the bytes that it writes. -/
def executed (options : RunOptions) (patience : Nat) (image : List UInt8) :
    RunResult × List UInt8 :=
  runProgram options .console patience image []

/-- **However a run is watched, it has the same result and writes the same bytes.** -/
theorem runInTerminal_eq (options : RunOptions) (printer? : Option Trace.Printer) (patience : Nat)
    (image : List UInt8) :
    (runInTerminal options printer? patience image).1 = (executed options patience image).1 ∧
      (runInTerminal options printer? patience image).2.guestBytes
        = (executed options patience image).2 := by
  have hview : executed options patience image
      = (runInTerminal options printer? patience image).map id Terminal.guestBytes :=
    runProgram_view Terminal.hom_guestBytes options patience image ⟨[], printer?⟩
  rw [hview]
  exact ⟨rfl, rfl⟩

/-- A command is still at work after the steps that it gives a program without a budget. -/
def Started.GoesOn (patience : Nat) : Started → Prop
  | done _ => False
  | running session =>
    (session.advance (session.engine.stepBound patience)).1 = .unfinished

namespace Session

theorem conclude_eq (write : MapWriter) (ending : Ending) (s : Session) :
    s.conclude write ending = .ofRun write s.json
      ((s.engine.conclude Terminal.environment ending).1,
        (s.engine.conclude Terminal.environment ending).2.machine.world) := by
  cases ending <;> rfl

/-- **A session that is taken to its end is one run of the program**, and it goes on for as
long as the run does. -/
theorem finish_ofExcept_start (write : MapWriter) (options : RunOptions) (json : Bool)
    (printer? : Option Trace.Printer) (patience : Nat) (image : List UInt8) :
    let s := Started.ofExcept (start options json printer? image)
    let run := runInTerminal options printer? patience image
    s.finishWith write patience = .ofRun write json run ∧
      (s.GoesOn patience ↔ run.1 = .unfinished) := by
  intro s run
  unfold s run start runInTerminal runProgram
  cases EngineConfig.ofRequest options.ramMib options.budget? with
  | error e => exact ⟨rfl, iff_of_false id (by simp)⟩
  | ok config =>
      simp only [Engine.execute]
      rcases hprepare :
        (Engine.create config ⟨[], printer?⟩).prepare Terminal.environment image with
        ⟨e | _, engine⟩
      all_goals simp only [hprepare]
      · exact ⟨rfl, iff_of_false id (by simp)⟩
      · exact ⟨conclude_eq write _ _, Engine.conclude_eq_unfinished.symm⟩

end Session

/-! ### Commands that execute a program -/

/-- The image that a command reads from the files. -/
def imageIn (tree : FileTree) (exec : ExecOptions) : Except LoadError (List UInt8) :=
  tree.found (loadImage exec.image exec.hex)

/-- What is to be executed and how, or what is wrong with it: the engine's name is read before
the image is. -/
def ExecOptions.program (exec : ExecOptions) (tree : FileTree) :
    Except String (RunOptions × List UInt8) :=
  match EngineKind.ofName exec.engine with
  | .error e => .error e.message
  | .ok engine =>
    match imageIn tree exec with
    | .error e => .error e.message
    | .ok image => .ok (⟨exec.ramMib, engine, exec.fuel?⟩, image)

/-- The result of the program that is to be executed, if there is one.  A program without a
budget is given so many steps. -/
def ExecOptions.result? (exec : ExecOptions) (tree : FileTree) (patience : Nat) :
    Option RunResult :=
  match exec.program tree with
  | .error _ => none
  | .ok (options, image) => some (executed options patience image).1

theorem ExecOptions.program_eq_ok {exec : ExecOptions} {tree : FileTree} {options : RunOptions}
    {image : List UInt8} :
    exec.program tree = .ok (options, image) ↔
      ∃ engine, EngineKind.ofName exec.engine = .ok engine ∧ imageIn tree exec = .ok image ∧
        options = ⟨exec.ramMib, engine, exec.fuel?⟩ := by
  unfold program
  cases EngineKind.ofName exec.engine with
  | error e => simp
  | ok engine =>
      cases imageIn tree exec with
      | error e => simp
      | ok image =>
          constructor
          · intro h
            obtain ⟨rfl, rfl⟩ := Prod.mk.inj (Except.ok.inj h)
            exact ⟨engine, rfl, rfl, rfl⟩
          · rintro ⟨_, ⟨⟩, ⟨⟩, rfl⟩
            rfl

theorem ExecOptions.program_eq_error {exec : ExecOptions} {tree : FileTree} :
    (∃ message, exec.program tree = .error message) ↔
      (∃ e, EngineKind.ofName exec.engine = .error e) ∨ ∃ e, imageIn tree exec = .error e := by
  unfold program
  cases EngineKind.ofName exec.engine with
  | error e => simp
  | ok engine => cases imageIn tree exec <;> simp

/-- A command that executes a program starts it, or says what is wrong, and leaves the files
alone. -/
theorem run_startProgram (exec : ExecOptions) (printer? : Option Trace.Printer)
    (tree : FileTree) :
    (startProgram exec printer? : StateM FileTree Started).run tree
      = (match exec.program tree with
        | .error message => .done (.failure message)
        | .ok (options, image) => .ofExcept (Session.start options exec.json printer? image),
        tree) := by
  unfold startProgram ExecOptions.program
  cases EngineKind.ofName exec.engine with
  | error e => rfl
  | ok engine =>
      have himage : tree.found (loadImage exec.image exec.hex) = imageIn tree exec := rfl
      simp only [(FileTree.ReadOnly.loadImage _ _).run_bind, himage]
      cases imageIn tree exec <;> rfl

end CommandLine

end RegisterMachine
