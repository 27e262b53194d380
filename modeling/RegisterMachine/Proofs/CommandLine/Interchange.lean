/-
The two commands that execute a program are interchangeable.

They read their arguments alike (`parse_run_trace`), and what they start differs in the printer
alone, which is not seen by the run (`runInTerminal_eq`).  So the status, the errors and the
guest's bytes agree at once, also of a run that fails or goes on.  The text of the registers as
a map is made by a writer that is left open; if it makes none, both say why and fail.

What is left are the final registers, which a trace prints itself and a run without one prints
at the end.  Either way the tool's text ends with the report of the registers, and no line
before it looks like the start of a report: `Watched` says what the terminal holds until then,
and the environment keeps it.
-/
import RegisterMachine.Proofs.CommandLine.Arguments
import RegisterMachine.Proofs.CommandLine.Session
import RegisterMachine.Proofs.Machine.World
import RegisterMachine.Proofs.Trace.Lines
import RegisterMachine.Proofs.Trace.Log

namespace RegisterMachine.CommandLine

open Trace (Plain)

/-! ### The tool's text -/

/-- The text of a chunk that is the tool's. -/
def Chunk.toolText : Chunk → String
  | guest _ => ""
  | tool text => text

/-- The text that the tool has written in the course of a command. -/
def Outcome.toolText (o : Outcome) : String :=
  String.join (o.output.map Chunk.toolText)

namespace Terminal

/-- The text that the tool has written to the terminal. -/
def toolText (t : Terminal) : String :=
  String.join (t.written.reverse.map Chunk.toolText)

theorem toolText_write (t : Terminal) (chunk : Chunk) :
    (t.write chunk).toolText = t.toolText ++ chunk.toolText := by
  simp [toolText, write]

/-- What a terminal holds before the final registers are printed. -/
structure Watched (traced : Bool) (t : Terminal) : Prop where
  traced : t.printer?.isSome = traced
  palette : ∀ printer ∈ t.printer?, printer.palette.OnOneLine
  /-- The tool has written whole lines, and none that starts a report. -/
  text : ∃ lines, t.toolText = textOf lines ∧ ∀ line ∈ lines, Plain line

theorem watched_new {printer? : Option Trace.Printer}
    (h : ∀ printer ∈ printer?, printer.palette.OnOneLine) :
    Watched printer?.isSome ⟨[], printer?⟩ :=
  ⟨rfl, h, [], rfl, by simp⟩

theorem Watched.write_guest {traced : Bool} {t : Terminal} (h : Watched traced t)
    (bytes : List UInt8) : Watched traced (t.write (.guest bytes)) where
  traced := h.traced
  palette := h.palette
  text := by
    rw [toolText_write]
    exact (String.append_empty).symm ▸ h.text

theorem observe_of_printer? {t : Terminal} {printer : Trace.Printer}
    (h : t.printer? = some printer) (event : Event) :
    (t.observe event).toolText = t.toolText ++ textOf (printer.lines event) ∧
      (t.observe event).printer? = some (printer.after event) := by
  unfold observe
  rw [h]
  simp [foldl_write, toolText, textOf, Chunk.toolText, Function.comp_def]

theorem observe_of_not_traced {t : Terminal} (h : t.printer? = none) (event : Event) :
    t.observe event = t := by
  unfold observe
  rw [h]

/-- **Until the final registers are printed, no line looks like the start of a report.** -/
theorem keeps_watched (traced : Bool) : environment.Keeps (Watched traced) where
  serve {id guest guest' world world' outcome} h hworld := by
    rw [serve_environment] at h
    obtain ⟨-, ⟨_, -, -, rfl⟩ | ⟨bytes, -, -, rfl⟩⟩ := Console.eq_of_handler h
    · exact hworld
    · exact hworld.write_guest bytes
  observe {event} hevent t ht := by
    show Watched traced (t.observe event)
    cases hprinter : t.printer? with
    | none =>
        rw [observe_of_not_traced hprinter]
        exact ht
    | some printer =>
        obtain ⟨htext, hafter⟩ := observe_of_printer? hprinter event
        obtain ⟨lines, hlines, hplain⟩ := ht.text
        have hpalette : printer.palette.OnOneLine := ht.palette printer hprinter
        refine ⟨?_, ?_, lines ++ printer.lines event, ?_, ?_⟩
        · rw [← ht.traced, hafter, hprinter]
          rfl
        · intro next hnext
          rw [hafter] at hnext
          obtain rfl := Option.some.inj hnext
          rwa [printer.palette_after event]
        · rw [htext, hlines, textOf_append]
        · exact List.forall_mem_append.mpr ⟨hplain, Trace.plain_lines hpalette hevent⟩

end Terminal

/-! ### The final registers -/

/-- What a report says of a register: its name in capitals, with blanks up to five characters,
and its value in eight digits. -/
inductive ReportedAs (r : Register) (value : Word) : String → Prop
  | columns {name blanks : String} (hname : name = String.ofList (r.name.toList.map Char.toUpper))
      (hblanks : blanks = String.ofList (List.replicate (5 - name.length) ' ')) :
      ReportedAs r value ("\t" ++ name ++ blanks ++ " = " ++ Text.hex 8 value.toNat)

theorem reportedAs_reportLine (f : RegisterFile) (r : Register) :
    ReportedAs r (f.get r) (f.reportLine r) := by
  have hline : f.reportLine r = "\t" ++ String.ofList (r.name.toList.map Char.toUpper)
      ++ String.ofList (List.replicate (5 - (r.name.toList.map Char.toUpper).length) ' ')
      ++ " = " ++ Text.hex 8 (f.get r).toNat := by
    rw [← String.toList_inj]
    simp [RegisterFile.reportLine, RegisterFile.nameWidth, List.rightpad]
  rw [hline]
  exact .columns rfl (by rw [String.length_ofList])

namespace Outcome

/-- The tool's text ends with a report of the registers, which has a line for every one of them,
and there is no other report in it. -/
def ReportsOnce (o : Outcome) (registers : RegisterFile) : Prop :=
  ∃ before shown, Text.lines o.toolText.toList
      = before ++ (RegisterFile.reportHeader :: shown).map String.toList ++ [[]] ∧
    RegisterFile.reportHeader.toList ∉ before ∧
    List.Forall₂ (fun r line => ReportedAs r (registers.get r) line) Register.all shown

/-- The output ends with the registers as a map from their names to their values. -/
def EndsWithMap (o : Outcome) (write : MapWriter) (registers : RegisterFile) : Prop :=
  ∃ text, write (Register.all.map fun r => (r.name, registers.get r)) = .ok text ∧
    FileStore.textBytes (text ++ "\n") <:+ o.stdout

/-- How the final registers are reported. -/
def Reports (o : Outcome) (write : MapWriter) (json : Bool) (registers : RegisterFile) : Prop :=
  if json then o.EndsWithMap write registers else o.ReportsOnce registers

end Outcome

theorem Outcome.toolText_ofRun_halted (write : MapWriter) (registers : RegisterFile)
    (t : Terminal) :
    (ofRun write false (.halted registers, t)).toolText
      = t.toolText ++ if t.printer?.isSome then "" else registers.report := by
  simp [toolText, ofRun, finalText, Terminal.toolText, Chunk.toolText]

/-- A text of plain lines and a report of registers reports them once. -/
theorem Outcome.reportsOnce_of_toolText {o : Outcome} {lines : List String}
    {registers : RegisterFile} (hplain : ∀ line ∈ lines, Plain line)
    (h : o.toolText = textOf (lines ++ registers.reportLines)) : o.ReportsOnce registers := by
  obtain ⟨more, hreport, hmore⟩ := registers.reportLines_eq
  obtain ⟨-, rfl⟩ := List.cons.inj hreport
  refine ⟨lines.map String.toList, Register.all.map registers.reportLine, ?_, fun hmem => ?_, ?_⟩
  · rw [h, hreport, lines_textOf, List.map_append]
    refine List.forall_mem_append.mpr ⟨fun line hline => (hplain line hline).oneLine, ?_⟩
    exact List.forall_mem_cons.mpr ⟨by decide, fun line hline => (hmore line hline).1⟩
  · obtain ⟨line, hline, heq⟩ := List.mem_map.mp hmem
    exact (hplain line hline).noReport (String.toList_inj.mp heq)
  · rw [List.forall₂_map_right_iff, List.forall₂_same]
    exact fun r _ => reportedAs_reportLine registers r

section

variable {options : RunOptions} {printer? : Option Trace.Printer} {patience : Nat}
  {image : List UInt8} {registers : RegisterFile}

theorem terminal_of_halted (hpalette : ∀ printer ∈ printer?, printer.palette.OnOneLine)
    (h : (runInTerminal options printer? patience image).1 = .halted registers) :
    ∃ t : Terminal, t.Watched printer?.isSome ∧
      runInTerminal options printer? patience image
        = (.halted registers, t.observe (.halt registers)) := by
  unfold runInTerminal runProgram at h ⊢
  cases hconfig : EngineConfig.ofRequest options.ramMib options.budget? with
  | error e =>
      rw [hconfig] at h
      contradiction
  | ok config =>
      simp only [hconfig] at h ⊢
      obtain ⟨t, ht, hworld⟩ := Engine.world_of_execute_halted
        (Terminal.keeps_watched printer?.isSome) (Terminal.watched_new hpalette) h
      exact ⟨t, ht, Prod.ext h hworld⟩

/-- **A run that reaches its exit reports its registers once**, whether it is traced or not, unless
they are to be a map and there is no text of it. -/
theorem reports_of_halted {write : MapWriter} {json : Bool}
    (hpalette : ∀ printer ∈ printer?, printer.palette.OnOneLine)
    (h : (runInTerminal options printer? patience image).1 = .halted registers)
    (hcode : (Outcome.ofRun write json (runInTerminal options printer? patience image)).exitCode
      = 0) :
    (Outcome.ofRun write json (runInTerminal options printer? patience image)).Reports write json
      registers := by
  obtain ⟨t, ht, hrun⟩ := terminal_of_halted hpalette h
  rw [hrun] at hcode ⊢
  rw [Outcome.Reports]
  cases json with
  | true =>
      cases htext : write registers.members with
      | error e => simp [Outcome.ofRun, finalText, htext, Except.map, Outcome.failure] at hcode
      | ok text =>
          refine ⟨text, htext, (t.observe (.halt registers)).written.reverse.flatMap Chunk.bytes,
            ?_⟩
          simp [Outcome.stdout, Outcome.ofRun, finalText, htext, Except.map, Chunk.bytes]
  | false =>
      obtain ⟨lines, hlines, hplain⟩ := ht.text
      refine Outcome.reportsOnce_of_toolText hplain ?_
      rw [Outcome.toolText_ofRun_halted, textOf_append, ← hlines]
      cases hprinter : t.printer? with
      | none =>
          rw [Terminal.observe_of_not_traced hprinter, hprinter]
          simp [RegisterFile.report, textOf]
      | some printer =>
          obtain ⟨htext, hafter⟩ := Terminal.observe_of_printer? hprinter (.halt registers)
          rw [htext, hafter]
          simp [Trace.Printer.lines]

end

/-! ### Interchanging the commands -/

/-- Two commands on a program with this result have come to the same. -/
structure SameOutcome (write : MapWriter) (json : Bool) (result? : Option RunResult)
    (o o' : Outcome) : Prop where
  exitCode : o.exitCode = o'.exitCode
  errors : o.errors = o'.errors
  guestBytes : o.guestBytes = o'.guestBytes
  /-- After a success both report the registers with which the program has reached its exit. -/
  registers (h : o.exitCode = 0) : ∃ registers, result? = some (.halted registers) ∧
    o.Reports write json registers ∧ o'.Reports write json registers

namespace Outcome

/-- What is printed at the end is the tool's. -/
theorem guestBytes_ofRun (write : MapWriter) (json : Bool) (result : RunResult) (t : Terminal) :
    (ofRun write json (result, t)).guestBytes = t.guestBytes := by
  cases result with
  | rejected _ | faulted _ | unfinished => rfl
  | halted registers =>
      cases hfinal : finalText write json t.printer?.isSome registers with
      | error e =>
          rw [ofRun_unwritten hfinal]
          rfl
      | ok text =>
          rw [ofRun_halted hfinal, guestBytes, List.flatMap_append]
          exact List.append_nil _

theorem verdict_ofRun (write : MapWriter) (json : Bool) (result : RunResult) (t t' : Terminal) :
    (ofRun write json (result, t)).exitCode = (ofRun write json (result, t')).exitCode ∧
      (ofRun write json (result, t)).errors = (ofRun write json (result, t')).errors := by
  cases result with
  | rejected _ | faulted _ | unfinished => exact ⟨rfl, rfl⟩
  | halted registers =>
      cases json with
      | false => exact ⟨rfl, rfl⟩
      | true =>
          have hfinal : ∀ traced, finalText write true traced registers
              = (write registers.members).map (· ++ "\n") := fun _ => rfl
          cases hwrite : write registers.members with
          | error e =>
              rw [hwrite] at hfinal
              rw [ofRun_unwritten (hfinal _), ofRun_unwritten (hfinal _)]
              exact ⟨rfl, rfl⟩
          | ok text =>
              rw [hwrite] at hfinal
              rw [ofRun_halted (hfinal _), ofRun_halted (hfinal _)]
              exact ⟨rfl, rfl⟩

theorem halted_of_exitCode {write : MapWriter} {json : Bool} {result : RunResult} {t : Terminal}
    (h : (ofRun write json (result, t)).exitCode = 0) :
    ∃ registers, result = .halted registers := by
  cases result with
  | halted registers => exact ⟨registers, rfl⟩
  | rejected _ | faulted _ | unfinished => contradiction

end Outcome

theorem sameOutcome_ofRun (write : MapWriter) (json : Bool) (options : RunOptions)
    {printer? printer'? : Option Trace.Printer} (patience : Nat) (image : List UInt8)
    (hpalette : ∀ printer ∈ printer?, printer.palette.OnOneLine)
    (hpalette' : ∀ printer ∈ printer'?, printer.palette.OnOneLine) :
    SameOutcome write json (some (executed options patience image).1)
      (.ofRun write json (runInTerminal options printer? patience image))
      (.ofRun write json (runInTerminal options printer'? patience image)) := by
  obtain ⟨hresult, hbytes⟩ := runInTerminal_eq options printer? patience image
  obtain ⟨hresult', hbytes'⟩ := runInTerminal_eq options printer'? patience image
  have hpair : runInTerminal options printer'? patience image
      = ((runInTerminal options printer? patience image).1,
        (runInTerminal options printer'? patience image).2) :=
    Prod.ext (hresult'.trans hresult.symm) rfl
  obtain ⟨hcode, herrors⟩ :=
    Outcome.verdict_ofRun write json (runInTerminal options printer? patience image).1
      (runInTerminal options printer? patience image).2
      (runInTerminal options printer'? patience image).2
  rw [← hpair] at hcode herrors
  refine ⟨hcode, herrors, ?_, fun h => ?_⟩
  · rw [Outcome.guestBytes_ofRun, Outcome.guestBytes_ofRun, hbytes, hbytes']
  · obtain ⟨registers, hhalted⟩ := Outcome.halted_of_exitCode h
    have hexecuted := hresult.symm.trans hhalted
    exact ⟨registers, congrArg some hexecuted, reports_of_halted hpalette hhalted h,
      reports_of_halted hpalette' (hresult'.trans hexecuted) (hcode.symm.trans h)⟩

/-- Two commands that start a program on the same files leave these alone, and whenever one of
them has ended so has the other, with the same outcome. -/
structure Interchangeable (write : MapWriter) (exec : ExecOptions) (tree : FileTree)
    (x y : StateM FileTree Started) : Prop where
  files : (x.run tree).2 = tree ∧ (y.run tree).2 = tree
  goesOn (patience : Nat) :
    (x.run tree).1.GoesOn patience ↔ (y.run tree).1.GoesOn patience
  outcome (patience : Nat) : SameOutcome write exec.json (exec.result? tree patience)
    ((x.run tree).1.finishWith write patience) ((y.run tree).1.finishWith write patience)

/-- **Which printer a program is started with makes no difference.** -/
theorem interchangeable_startProgram (write : MapWriter) (exec : ExecOptions) (tree : FileTree)
    {printer? printer'? : Option Trace.Printer}
    (hpalette : ∀ printer ∈ printer?, printer.palette.OnOneLine)
    (hpalette' : ∀ printer ∈ printer'?, printer.palette.OnOneLine) :
    Interchangeable write exec tree (startProgram exec printer?)
      (startProgram exec printer'?) := by
  have hrun := run_startProgram exec printer? tree
  have hrun' := run_startProgram exec printer'? tree
  cases hprogram : exec.program tree with
  | error message =>
      rw [hprogram] at hrun hrun'
      refine ⟨⟨by rw [hrun], by rw [hrun']⟩, fun patience => ?_, fun patience => ?_⟩
      · rw [hrun, hrun']
      · rw [hrun, hrun']
        exact ⟨rfl, rfl, rfl, fun h => nomatch h⟩
  | ok program =>
      obtain ⟨options, image⟩ := program
      rw [hprogram] at hrun hrun'
      refine ⟨⟨by rw [hrun], by rw [hrun']⟩, fun patience => ?_, fun patience => ?_⟩
      all_goals
        rw [hrun, hrun']
        obtain ⟨hfinish, hgoesOn⟩ :=
          Session.finish_ofExcept_start write options exec.json printer? patience image
        obtain ⟨hfinish', hgoesOn'⟩ :=
          Session.finish_ofExcept_start write options exec.json printer'? patience image
      · rw [hgoesOn, hgoesOn', (runInTerminal_eq options printer? patience image).1,
          (runInTerminal_eq options printer'? patience image).1]
      · rw [hfinish, hfinish', ExecOptions.result?, hprogram]
        exact sameOutcome_ofRun write exec.json options patience image hpalette hpalette'

/-- **The two commands that execute a program are interchangeable.**

Whatever reader reads the command line, with the same arguments they either complain alike, or
ask for help alike, or have the same program to execute.  In the last case, whatever the files
hold and whether or not output goes to a terminal, they end together with the same status and
the same words about errors, the guest writes the same bytes, and after a success both report
the registers with which the program has reached its exit: as a map at the end of the output if
that is asked for, and otherwise once.  What is said about tracing and colours plays no part. -/
theorem run_trace_interchangeable {reader : Reader} (hreader : reader.Documented)
    (write : MapWriter) (args : List String) :
    (∃ e, reader.parse ("run" :: args) = .error e ∧
        reader.parse ("trace" :: args) = .error e) ∨
      ∃ exec debug verbosity color, reader.parse ("run" :: args) = .ok (.run exec debug) ∧
        reader.parse ("trace" :: args) = .ok (.trace exec verbosity color) ∧
        ∀ (terminal : Bool) (tree : FileTree), Interchangeable write exec tree
          ((Command.run exec debug).start terminal)
          ((Command.trace exec verbosity color).start terminal) := by
  rcases parse_run_trace hreader args with
    herror | ⟨exec, debug, verbosity, color, hrun, htrace⟩
  · exact Or.inl herror
  · refine Or.inr ⟨exec, debug, verbosity, color, hrun, htrace, fun terminal tree => ?_⟩
    refine interchangeable_startProgram write exec tree ?_ ?_
    · intro printer hprinter
      cases debug with
      | true =>
          obtain rfl := Option.some.inj hprinter
          exact Palette.onOneLine_ofBool false
      | false => contradiction
    · intro printer hprinter
      obtain rfl := Option.some.inj hprinter
      exact Palette.onOneLine_ofBool _

/-- Arguments of which each command has some that its own help is silent about. -/
theorem run_trace_interchangeable_verbose :
    let args := ["prog.bin", "-vv", "--debug", "--color", "never", "--json"]
    let exec : ExecOptions := ⟨"prog.bin", false, 4, "interpreter", none, true⟩
    Reader.standard.Documented ∧
      Reader.standard.parse ("run" :: args) = .ok (.run exec true) ∧
      Reader.standard.parse ("trace" :: args) = .ok (.trace exec .allChanges .never) ∧
      ∀ (terminal : Bool) (tree : FileTree), Interchangeable .pretty exec tree
        ((Command.run exec true).start terminal)
        ((Command.trace exec .allChanges .never).start terminal) := by
  intro args exec
  have hrun : Reader.standard.parse ("run" :: args) = .ok (.run exec true) := rfl
  have htrace : Reader.standard.parse ("trace" :: args)
      = .ok (.trace exec .allChanges .never) := rfl
  refine ⟨Reader.documented_standard, hrun, htrace, ?_⟩
  rcases run_trace_interchangeable Reader.documented_standard .pretty args with
    ⟨e, herror, -⟩ | ⟨exec', debug, verbosity, color, hrun', htrace', h⟩
  · exact nomatch herror.symm.trans hrun
  · obtain ⟨rfl, rfl⟩ := Command.run.inj (Except.ok.inj (hrun'.symm.trans hrun))
    obtain ⟨-, rfl, rfl⟩ := Command.trace.inj (Except.ok.inj (htrace'.symm.trans htrace))
    exact h

end RegisterMachine.CommandLine
