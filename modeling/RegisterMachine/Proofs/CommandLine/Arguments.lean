/-
The two commands that execute a program read their arguments alike.

A reader of command lines is no part of the program, so only what is documented of it is relied
on (`Documented`): a word that names a command hands what follows to that command, the help is
no matter of reading, and the status of an error is known.

The rest is in the declarations.  Those of the two commands differ in what their help is silent
about and in nothing else (`params_run_eq_trace`), so from every such reader both get the same
values, and they find the program to execute in them in the same way (`parse_run_trace`).
-/
import Mathlib.Data.List.Nodup
import RegisterMachine.CommandLine.Arguments

namespace RegisterMachine.CommandLine

/-! ### Readers -/

/-- What is documented of readers of command lines and relied on here. -/
structure Reader.Documented (reader : Reader) : Prop where
  /-- A word that names a command hands what follows to that command. -/
  subcommand {commands : List CommandDecl} {command : CommandDecl}
    (hnames : (commands.map CommandDecl.name).Nodup) (hmem : command ∈ commands)
    (hword : ∀ c ∈ command.name.toList, c.isAlpha) (hhelp : command.name ≠ "help")
    (args : List String) :
    reader.getMatches commands (command.name :: args)
      = (reader.readArgs command args).map (command.name, ·)
  /-- How a command is called, and which arguments its help is silent about, is no matter of
  reading its arguments. -/
  helpAside {command command' : CommandDecl} (hparams : command.params = command'.params) :
    reader.readArgs command = reader.readArgs command'
  /-- There is one status for every error, but that help is asked for is none. -/
  status_usage {e : UsageError} (h : e ≠ .helpRequested) : reader.status e = 2

theorem find?_name {commands : List CommandDecl} {command : CommandDecl}
    (hnames : (commands.map CommandDecl.name).Nodup) (hmem : command ∈ commands) :
    commands.find? (·.name = command.name) = some command := by
  have hsome : (commands.find? (·.name = command.name)).isSome := by
    rw [List.find?_isSome]
    exact ⟨command, hmem, decide_eq_true rfl⟩
  obtain ⟨found, hfound⟩ := Option.isSome_iff_exists.mp hsome
  have hname : found.name = command.name := by simpa using List.find?_some hfound
  rw [hfound, List.inj_on_of_nodup_map hnames (List.mem_of_find?_eq_some hfound) hmem hname]

/-- **The program's own reader is documented to read like this.** -/
theorem Reader.documented_standard : Reader.standard.Documented where
  subcommand {commands command} hnames hmem _ _ args := by
    show readWords commands (command.name :: args) = (readCommand command args).map _
    rw [readWords]
    simp only [find?_name hnames hmem]
    cases readCommand command args <;> rfl
  helpAside {command command'} hparams := by
    funext args
    show readCommand command args = readCommand command' args
    rw [readCommand, readCommand, hparams]
  status_usage {e} h := by
    cases e <;> first | contradiction | rfl

/-! ### Commands -/

/-- **The commands that execute a program declare the same arguments**, but for what their help
is silent about. -/
theorem params_run_eq_trace : Verb.run.declaration.params = Verb.trace.declaration.params :=
  rfl

section

variable {reader : Reader}

/-- A word that names a command is read as this command, with the values of the words behind
it. -/
theorem parse_name_cons (h : reader.Documented) (verb : Verb) (args : List String) :
    reader.parse (verb.name :: args)
      = (reader.readArgs verb.declaration args).map fun m => verb.command m := by
  have hnames : (Verb.declarations.map CommandDecl.name).Nodup := by decide
  have hmem : verb.declaration ∈ Verb.declarations := by cases verb <;> decide
  have hword : verb.name.toList.all Char.isAlpha := by cases verb <;> rfl
  have hhelp : verb.name ≠ "help" := by cases verb <;> decide
  have hname : Verb.ofName? verb.name = some verb := by cases verb <;> rfl
  have hread : reader.getMatches Verb.declarations (verb.name :: args)
      = (reader.readArgs verb.declaration args).map (verb.name, ·) :=
    h.subcommand hnames hmem (List.all_eq_true.mp hword) hhelp args
  rw [Reader.parse, hread]
  cases reader.readArgs verb.declaration args with
  | error e => rfl
  | ok m => simp [Except.map, bind, Except.bind, hname, pure, Except.pure]

/-- **Arguments are those of both commands or of neither**, and what is to be executed does not
depend on the command. -/
theorem parse_run_trace (h : reader.Documented) (args : List String) :
    (∃ e, reader.parse ("run" :: args) = .error e ∧
        reader.parse ("trace" :: args) = .error e) ∨
      ∃ exec debug verbosity color, reader.parse ("run" :: args) = .ok (.run exec debug) ∧
        reader.parse ("trace" :: args) = .ok (.trace exec verbosity color) := by
  have hrun : reader.parse ("run" :: args) = _ := parse_name_cons h .run args
  have htrace : reader.parse ("trace" :: args) = _ := parse_name_cons h .trace args
  rw [hrun, htrace, h.helpAside params_run_eq_trace]
  cases reader.readArgs Verb.trace.declaration args with
  | error e => exact Or.inl ⟨e, rfl, rfl⟩
  | ok m => exact Or.inr ⟨.ofMatches m, _, _, _, rfl, rfl⟩

end

end RegisterMachine.CommandLine
