/-
What a trace says about a run.

A printer works from events and from the registers that it has put aside.  What it prints
for a step can be said without either: `Transition.lines` goes by the guest before the step
and the guest after it, and by how the step went.  The two agree because every instruction
and every system call is announced before it acts, so whatever registers were put aside
earlier, those put aside when a step is complete are the ones from just before it.  A step
that fails or ends the run leaves registers behind, but nothing is printed from them: the
next step to be complete has been announced in between.

Of the sink no more is asked than that it has not refused anything in the end; it has then
taken every line up to there.
-/
import RegisterMachine.Proofs.Machine.Fault
import RegisterMachine.Proofs.Machine.Run
import RegisterMachine.Proofs.Machine.Step
import RegisterMachine.Trace.Sink

namespace RegisterMachine

open Trace

/-! ### The lines of a step -/

/-- The line with which a guest's next step is announced: an instruction with its address,
its bytes as they stand in memory and its text, or a system call with its identifier.  If
neither is found, the step is not announced. -/
def Guest.announcement (p : Palette) (g : Guest) : List String :=
  let pc := g.get .pc
  if pc = syscallEntry then
    match g.memory.readWord (g.get .sp + 4) with
    | .ok id =>
      [Columns.row p pc [] (p.blue ++ "syscall" ++ p.reset ++ " " ++ Text.decimal id.toNat)]
    | .error _ => []
  else
    match g.nextInstruction? with
    | some i => [Columns.row p pc (g.memory.bytesAt pc.toNat i.size) (i.render p none)]
    | none => []

namespace Transition

/-- The registers, in order, whose values are not the same before and after a step. -/
def differing (t : Transition) : List Register :=
  Register.all.filter fun r => t.after.get r != t.before.get r

/-- Those of them whose changes are shown.  Of a step that fails or ends the run no changes
are shown. -/
def changes (v : Verbosity) (t : Transition) : List Register :=
  match t.result, v with
  | .ok .continues, .allChanges => t.differing
  | .ok .continues, .changes => t.differing.filter (· ≠ .pc)
  | _, _ => []

/-- All lines for a step. -/
def lines (v : Verbosity) (p : Palette) (t : Transition) : List String :=
  t.before.announcement p ++ (t.changes v).map (Printer.changeLine p t.after.registers)

/-- For a step that does not go on there is only the announcement. -/
theorem lines_of_ne {v : Verbosity} {p : Palette} {t : Transition}
    (h : t.result ≠ .ok .continues) : t.lines v p = t.before.announcement p := by
  have hnone : t.changes v = [] := by
    unfold changes
    split
    · contradiction
    · contradiction
    · rfl
  rw [lines, hnone, List.map_nil, List.append_nil]

end Transition

namespace Guest

variable {g : Guest} {p : Palette}

theorem announcement_of_call {id : Word} (hpc : g.get .pc = syscallEntry)
    (hid : g.memory.readWord (g.get .sp + 4) = .ok id) :
    g.announcement p = [Columns.row p (g.get .pc) []
      (p.blue ++ "syscall" ++ p.reset ++ " " ++ Text.decimal id.toNat)] := by
  unfold announcement
  rw [if_pos hpc, hid]

theorem announcement_of_instruction {window : List UInt8} {i : Instruction}
    (hpc : g.get .pc ≠ syscallEntry) (hwindow : g.memory.window (g.get .pc) = .ok window)
    (hdecode : Instr.decode window = .ok i) :
    g.announcement p
      = [Columns.row p (g.get .pc) (window.take i.size) (i.render p none)] := by
  have hnext : g.nextInstruction? = some i := by
    rw [nextInstruction?, Memory.decodedAt?, hwindow]
    simp only [hdecode]
    rfl
  unfold announcement
  rw [if_neg hpc, hnext, Memory.take_window hwindow hdecode]

theorem announcement_of_unidentified {fault : Fault} (hpc : g.get .pc = syscallEntry)
    (hid : g.memory.readWord (g.get .sp + 4) = .error fault) : g.announcement p = [] := by
  unfold announcement
  rw [if_pos hpc, hid]

theorem announcement_of_none (hpc : g.get .pc ≠ syscallEntry)
    (hnext : g.nextInstruction? = none) : g.announcement p = [] := by
  unfold announcement
  rw [if_neg hpc, hnext]

end Guest

/-! ### What a log holds -/

namespace Trace

/-- If the sink has not refused the line, it has taken it and refused none before. -/
theorem Sink.lines_push {sink : Sink} {line : String} (h : (sink.push line).refused = false) :
    sink.refused = false ∧ (sink.push line).lines.toList = sink.lines.toList ++ [line] := by
  unfold push at h ⊢
  split at h
  · rename_i hrefused
    rw [hrefused] at h
    contradiction
  · rename_i hopen
    split at h
    · contradiction
    · rename_i hroom
      rw [if_neg hopen, if_neg hroom]
      exact ⟨h, Array.toList_push⟩

theorem Sink.lines_pushAll {sink : Sink} {lines : List String}
    (h : (sink.pushAll lines).refused = false) :
    sink.refused = false ∧ (sink.pushAll lines).lines.toList = sink.lines.toList ++ lines := by
  induction lines generalizing sink with
  | nil => exact ⟨h, (List.append_nil _).symm⟩
  | cons line lines ih =>
      obtain ⟨hpushed, hrest⟩ := ih h
      obtain ⟨hopen, hfirst⟩ := lines_push hpushed
      refine ⟨hopen, hrest.trans ?_⟩
      rw [hfirst, List.append_assoc, List.singleton_append]

namespace Printer

theorem verbosity_after (printer : Printer) (event : Event) :
    (printer.after event).verbosity = printer.verbosity := by
  cases event with
  | retired _ =>
      rw [after]
      split <;> rfl
  | _ => rfl

theorem palette_after (printer : Printer) (event : Event) :
    (printer.after event).palette = printer.palette := by
  cases event with
  | retired _ =>
      rw [after]
      split <;> rfl
  | _ => rfl

/-- From the registers that were put aside, the printer finds the changes of a step. -/
theorem changeLines_of_before {printer : Printer} {t : Transition}
    (hresult : t.result = .ok .continues) (h : printer.before? = some t.before.registers) :
    printer.changeLines t.after.registers
      = (t.changes printer.verbosity).map (changeLine printer.palette t.after.registers) := by
  have hshown : t.differing.filter printer.verbosity.shows = t.changes printer.verbosity := by
    unfold Transition.changes
    rw [hresult]
    cases printer.verbosity with
    | brief => exact List.filter_eq_nil_iff.mpr fun _ _ => Bool.false_ne_true
    | changes => rfl
    | allChanges => exact List.filter_eq_self.mpr fun _ _ => rfl
  rw [changeLines, h, ← hshown]
  rfl

end Printer

/-- How a log prints, and what its sink has taken if it has not refused anything. -/
structure Log.Holds (v : Verbosity) (p : Palette) (lines : List String) (log : Log) : Prop where
  verbosity : log.printer.verbosity = v
  palette : log.printer.palette = p
  taken (h : log.sink.refused = false) : log.sink.lines.toList = lines

theorem Log.Holds.record {v : Verbosity} {p : Palette} {lines : List String} {log : Log}
    (h : log.Holds v p lines) (event : Event) :
    (log.record event).Holds v p (lines ++ log.printer.lines event) where
  verbosity := (log.printer.verbosity_after event).trans h.verbosity
  palette := (log.printer.palette_after event).trans h.palette
  taken hopen := by
    obtain ⟨hbefore, htaken⟩ := Sink.lines_pushAll hopen
    rw [← h.taken hbefore]
    exact htaken

end Trace

/-! ### Steps -/

theorem Environment.snd_of_serve {α β : Type} {serve : SyscallHandler α}
    {observe : Event → β → β} {id : Word} {guest guest' : Guest} {world world' : α × β}
    {outcome : Except SyscallError Unit}
    (h : (beside serve observe).serve id guest world = (outcome, guest', world')) :
    world'.2 = world.2 := by
  obtain ⟨-, hrest⟩ := Prod.mk.inj h
  obtain ⟨-, rfl⟩ := Prod.mk.inj hrest
  rfl

/-- The environment in which a log is kept of what happens. -/
abbrev Environment.logged {α : Type} (serve : SyscallHandler α) : Environment (α × Log) :=
  beside serve Log.record

namespace Machine

variable {α : Type} {serve : SyscallHandler α} {v : Verbosity} {p : Palette}
  {lines : List String} {m m' : Machine (α × Log)} {result : Except Fault Progress}

/-- The last action of a step that has been announced adds the changes, if it succeeds. -/
theorem holds_of_retire {world : α × Log} {outcome : Except Fault Unit × Guest} {before : Guest}
    (hretire : retire (.logged serve) world outcome = (result, m'))
    (hbefore : world.2.printer.before? = some before.registers)
    (hlog : world.2.Holds v p (lines ++ before.announcement p)) :
    m'.world.2.Holds v p (lines ++ Transition.lines v p ⟨before, result, m'.guest⟩) := by
  rcases retire_cases hretire with ⟨fault, -, rfl, rfl⟩ | ⟨-, rfl, rfl⟩
  · rw [Transition.lines_of_ne (by simp)]
    exact hlog
  · have hretired := hlog.record (.retired outcome.2.registers)
    have hchanges := Printer.changeLines_of_before
      (t := ⟨before, .ok .continues, outcome.2⟩) rfl hbefore
    rw [hlog.verbosity, hlog.palette] at hchanges
    rw [Transition.lines, ← List.append_assoc, ← hchanges]
    exact hretired

/-- **A step adds its lines to the log.** -/
theorem holds_of_step (h : m.step (.logged serve) = (result, m'))
    (hlog : m.world.2.Holds v p lines) :
    m'.world.2.Holds v p (lines ++ Transition.lines v p ⟨m.guest, result, m'.guest⟩) := by
  obtain rfl := hlog.palette
  have hcalled : ∀ {id}, m.guest.get .pc = syscallEntry →
      m.guest.memory.readWord (m.guest.get .sp + 4) = .ok id →
      (m.world.2.record (.syscall id m.guest.registers)).Holds v m.world.2.printer.palette
        (lines ++ m.guest.announcement m.world.2.printer.palette) := by
    intro id hpc hid
    rw [Guest.announcement_of_call hpc hid]
    exact hlog.record (.syscall id m.guest.registers)
  cases stepped_of_step h with
  | unidentified hpc hid =>
      rw [Transition.lines_of_ne (by simp), Guest.announcement_of_unidentified hpc hid,
        List.append_nil]
      exact hlog
  | exited hpc hid =>
      rw [Transition.lines_of_ne (by simp)]
      exact hcalled hpc hid
  | unserved hpc hid _ hserve =>
      rw [Transition.lines_of_ne (by simp)]
      dsimp only
      rw [Environment.snd_of_serve hserve]
      exact hcalled hpc hid
  | served hpc hid _ hserve hretire =>
      have hworld := Environment.snd_of_serve hserve
      refine holds_of_retire hretire ?_ ?_
      · rw [hworld]
        rfl
      · rw [hworld]
        exact hcalled hpc hid
  | unfetched hpc hwindow =>
      have hnext : m.guest.nextInstruction? = none := by
        rw [Guest.nextInstruction?, Memory.decodedAt?, hwindow]
      rw [Transition.lines_of_ne (by simp), Guest.announcement_of_none hpc hnext, List.append_nil]
      exact hlog
  | undecoded hpc hwindow hdecode =>
      have hnext : m.guest.nextInstruction? = none := by
        rw [Guest.nextInstruction?, Memory.decodedAt?, hwindow]
        simp only [hdecode]
        rfl
      rw [Transition.lines_of_ne (by simp), Guest.announcement_of_none hpc hnext, List.append_nil]
      exact hlog
  | @executed window i _ _ hpc hwindow hdecode hretire =>
      refine holds_of_retire hretire rfl ?_
      rw [Guest.announcement_of_instruction hpc hwindow hdecode]
      exact hlog.record
        (.instruction (m.guest.get .pc) (window.take i.size) i m.guest.registers)

/-! ### Runs -/

/-- **Steps add their lines to the log in order.** -/
theorem holds_of_steps {n : Nat} (h : Steps (.logged serve) n m m')
    (hlog : m.world.2.Holds v p lines) :
    m'.world.2.Holds v p
      (lines ++ (m.transitions (.logged serve) n).flatMap (Transition.lines v p)) := by
  induction h generalizing lines with
  | refl m =>
      rw [transitions, List.flatMap_nil, List.append_nil]
      exact hlog
  | @next n m mid m' hstep _ ih =>
      rw [transitions_of_continues n hstep, List.flatMap_cons, ← List.append_assoc]
      exact ih (holds_of_step hstep hlog)

theorem holds_of_returns {n : Nat} {ending : Ending}
    (h : Returns (.logged serve) n m ending m') (hlog : m.world.2.Holds v p lines) :
    m'.world.2.Holds v p
      (lines ++ (m.transitions (.logged serve) n).flatMap (Transition.lines v p)) := by
  induction h generalizing lines with
  | last hstep hend =>
      rw [transitions_of_ends 0 hstep hend, List.flatMap_singleton]
      exact holds_of_step hstep hlog
  | @next n m mid m' ending hstep _ ih =>
      rw [transitions_of_continues n hstep, List.flatMap_cons, ← List.append_assoc]
      exact ih (holds_of_step hstep hlog)

end Machine

/-- The lines before those of the first step. -/
def Trace.setupLines (config : EngineConfig) (imageLength : Nat) : List String :=
  ["Initializing VM with:", "\tprogram size " ++ Text.decimal imageLength ++ " bytes",
    "\tmemory " ++ Text.decimal config.ramMib ++ " MiB",
    "\ttype '" ++ EngineKind.interpreter.name ++ "'",
    "Initializing memory ...", "\tmemory [" ++ Text.hex 8 config.ramBytes ++ "]",
    "Initializing registers ...", "Loading program ...", "Running program ..."]

/-- The lines behind those of the last step: a run that has reached its exit reports the
registers. -/
def Trace.closingLines : RunResult → List String
  | .halted registers => registers.reportLines
  | .rejected _ | .faulted _ | .unfinished => []

namespace Engine

open Machine

variable {α : Type} {v : Verbosity} {p : Palette} {lines : List String} {e : Engine (α × Log)}

theorem holds_atStart (serve : SyscallHandler α) (image : List UInt8)
    (hlog : e.machine.world.2.Holds v p lines) :
    (e.atStart (.logged serve) image).machine.world.2.Holds v p
      (lines ++ setupLines e.config image.length) := by
  have hconfigured := hlog.record (.configure e.kind image.length e.config.ramMib)
  have hmemory := hconfigured.record (.initMemory e.config.ramBytes)
  have hregisters := hmemory.record (.initRegisters (.reset (UInt32.ofNat e.config.ramBytes)))
  have hloaded := hregisters.record (.loadProgram image.length)
  have hstarted := hloaded.record .start
  simp only [List.append_assoc] at hstarted
  rw [world_atStart]
  exact hstarted

theorem holds_of_stopped {serve : SyscallHandler α} {k : Nat} {m' : Machine (α × Log)}
    {ending : Ending} (h : Stopped (.logged serve) e k m' ending)
    (hlog : e.machine.world.2.Holds v p lines) :
    m'.world.2.Holds v p
      (lines ++ (e.machine.transitions (.logged serve) k).flatMap (Transition.lines v p)) := by
  cases h with
  | returned h => exact holds_of_returns h hlog
  | paused h | exhausted h _ _ => exact holds_of_steps h hlog

/-- **The log of a program from its first line to its last.** -/
theorem holds_of_execute (serve : SyscallHandler α) (patience : Nat) {image : List UInt8}
    (hfits : image.length ≤ e.config.ramBytes) (hlog : e.machine.world.2.Holds v p lines) :
    let outcome := e.execute (.logged serve) patience image
    outcome.2.machine.world.2.Holds v p
      (lines ++ setupLines e.config image.length
        ++ ((e.atStart (.logged serve) image).machine.transitions (.logged serve)
          outcome.2.executed).flatMap (Transition.lines v p)
        ++ closingLines outcome.1) := by
  obtain ⟨k, m', ending, hstopped, hexecute, hcounted⟩ :=
    execute_cases (.logged serve) e patience hfits
  have hrun := holds_of_stopped hstopped (holds_atStart serve image hlog)
  dsimp only
  rw [hcounted, hexecute]
  cases ending with
  | halted => exact hrun.record (.halt m'.guest.registers)
  | faulted _ | unfinished =>
      show m'.world.2.Holds v p (_ ++ [])
      rw [List.append_nil]
      exact hrun

end Engine

end RegisterMachine
