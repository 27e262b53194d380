/-
The registers are read back from a trace.

A trace that shows all changes says as much about the registers as the machine itself.
`readChange?` takes a line apart by its columns and finds a register and its new value, or
nothing if the line announces a step; `replay` puts the values that it finds into a register
file.  What a step has not changed is not in its lines, and need not be: it is as before.
So after every step that goes on, replaying gives the registers of the machine, whoever has
changed them, and by induction so it does from the first step on.
-/
import RegisterMachine.Machine.Console
import RegisterMachine.Proofs.Assembly.Operand
import RegisterMachine.Proofs.Trace.Log

namespace RegisterMachine

open Trace

/-! ### Setting several registers -/

namespace RegisterFile

/-- The file with other values in some registers. -/
def setAll (f : RegisterFile) (values : List (Register × Word)) : RegisterFile :=
  values.foldl (fun f (r, value) => f.set r value) f

theorem get_setAll (f later : RegisterFile) (rs : List Register) (s : Register) :
    (f.setAll (rs.map fun r => (r, later.get r))).get s
      = if s ∈ rs then later.get s else f.get s := by
  induction rs generalizing f with
  | nil => rfl
  | cons r rs ih =>
      show ((f.set r (later.get r)).setAll (rs.map fun r => (r, later.get r))).get s = _
      rw [ih, get_set]
      by_cases hs : s ∈ rs
      · rw [if_pos hs, if_pos (List.mem_cons_of_mem _ hs)]
      · rw [if_neg hs]
        by_cases hsr : s = r
        · rw [if_pos hsr, if_pos (by simp [hsr]), hsr]
        · rw [if_neg hsr, if_neg (by simp [hs, hsr])]

theorem setAll_of_changed (f later : RegisterFile) {rs : List Register}
    (h : ∀ s, s ∉ rs → later.get s = f.get s) :
    f.setAll (rs.map fun r => (r, later.get r)) = later := by
  apply ext_get
  intro s
  rw [get_setAll]
  split
  · rfl
  · rename_i hs
    exact (h s hs).symm

end RegisterFile

namespace Trace

/-! ### Reading a line -/

/-- The register that a line reports as changed, with its value.

Such a line is blank up to the column of the content.  There the name stands, an equals sign
between spaces, the escape code of the colour, if there is one, and the value. -/
def readChange? (p : Palette) (line : String) : Option (Register × Word) :=
  if (line.toList.take Columns.content).all (· == ' ') then do
    let (name, rest) ← Text.cutWhere? (· == ' ') (line.toList.drop Columns.content)
    let r ← Register.ofName? name
    let value ← Text.readDigits? 16 ((rest.drop ("= " ++ p.green ++ "0x").length).take 8)
    return (r, UInt32.ofNat value)
  else none

/-- The registers after the changes that lines report. -/
def replay (p : Palette) (lines : List String) (f : RegisterFile) : RegisterFile :=
  f.setAll (lines.filterMap (readChange? p))

theorem replay_append (p : Palette) (front back : List String) (f : RegisterFile) :
    replay p (front ++ back) f = replay p back (replay p front f) := by
  rw [replay, List.filterMap_append]
  exact List.foldl_append

/-- A colour is put in front; behind it there may be the code that ends it. -/
theorem toList_paint_green (p : Palette) (text : String) :
    ∃ tail, (p.paint p.green text).toList = p.green.toList ++ (text.toList ++ tail) := by
  unfold Palette.paint
  split
  · rename_i hempty
    refine ⟨[], ?_⟩
    rw [String.isEmpty_iff.mp hempty, List.append_nil]
    rfl
  · exact ⟨p.reset.toList, by rw [String.toList_append, String.toList_append, List.append_assoc]⟩

theorem toList_changeLine (p : Palette) (f : RegisterFile) (r : Register) :
    ∃ tail, (Printer.changeLine p f r).toList
      = List.replicate Columns.content ' ' ++ (r.name.toList ++ ' ' ::
          (("= " ++ p.green ++ "0x").toList ++ (Text.hexDigits 8 (f.get r).toNat ++ tail))) := by
  obtain ⟨tail, hpaint⟩ := toList_paint_green p (f.get r).addressText
  rw [Word.addressText, Assembly.toList_hex] at hpaint
  unfold Printer.changeLine
  split
  · refine ⟨tail ++ " (".toList ++ f.flags.text.toList ++ ")".toList, ?_⟩
    simp [Columns.subline, Columns.spaces, Word.addressText, hpaint]
  · refine ⟨tail, ?_⟩
    simp [Columns.subline, Columns.spaces, Word.addressText, hpaint]

/-- **The line for a change is read back.** -/
theorem readChange?_changeLine (p : Palette) (f : RegisterFile) (r : Register) :
    readChange? p (Printer.changeLine p f r) = some (r, f.get r) := by
  obtain ⟨tail, hline⟩ := toList_changeLine p f r
  have hname : ∀ c ∈ r.name.toList, (c == ' ') = false := by
    intro c hc
    rw [beq_eq_false_iff_ne]
    rintro rfl
    exact absurd ((Assembly.token_name r).2 ' ' hc) (by decide)
  have hlength : (Text.hexDigits 8 (f.get r).toNat).length = 8 :=
    Text.length_hexDigits (by decide) (f.get r).toNat_lt
  have hvalue : Text.readDigits? 16 (Text.hexDigits 8 (f.get r).toNat) = some (f.get r).toNat :=
    Text.readDigits?_toDigits (by decide) (by decide) _ _
  have hdigits : ((("= " ++ p.green ++ "0x").toList ++ (Text.hexDigits 8 (f.get r).toNat
      ++ tail)).drop ("= " ++ p.green ++ "0x").length).take 8
        = Text.hexDigits 8 (f.get r).toNat := by
    rw [List.drop_left' String.length_toList, List.take_left' hlength]
  unfold readChange?
  simp only [hline]
  rw [List.take_left' List.length_replicate, List.drop_left' List.length_replicate,
    Text.cutWhere?_append (by decide) hname]
  simp only [Option.bind_eq_bind, Option.bind_some, Register.ofName?_name, hdigits, hvalue]
  simp

/-- **A line that announces a step reports no change.**  Its third character is the first of
an address, or starts the escape code in front of it. -/
theorem readChange?_row (colored : Bool) (addr : Word) (raw : List UInt8) (text : String) :
    readChange? (.ofBool colored) (Columns.row (.ofBool colored) addr raw text) = none := by
  have hline : ∃ c rest, c ≠ ' ' ∧ (Columns.row (.ofBool colored) addr raw text).toList
      = ' ' :: ' ' :: c :: rest := by
    simp only [Columns.row, Word.addressText, String.toList_append, Assembly.toList_hex]
    cases colored with
    | false => exact ⟨'0', _, by decide, rfl⟩
    | true => exact ⟨'\x1b', _, by decide, rfl⟩
  obtain ⟨c, rest, hc, hline⟩ := hline
  have hfront : ((' ' :: ' ' :: c :: rest).take Columns.content).all (· == ' ') = false := by
    simp [Columns.content, Columns.indent, Columns.address, Columns.gap, Columns.bytes, hc]
  unfold readChange?
  simp only [hline, hfront]
  rfl

theorem filterMap_announcement (colored : Bool) (g : Guest) :
    (g.announcement (.ofBool colored)).filterMap (readChange? (.ofBool colored)) = [] := by
  unfold Guest.announcement
  dsimp only
  split
  · split
    · rw [List.filterMap_cons_none (readChange?_row _ _ _ _), List.filterMap_nil]
    · rfl
  · split
    · rw [List.filterMap_cons_none (readChange?_row _ _ _ _), List.filterMap_nil]
    · rfl

theorem replay_announcement (colored : Bool) (g : Guest) (f : RegisterFile) :
    replay (.ofBool colored) (g.announcement (.ofBool colored)) f = f := by
  rw [replay, filterMap_announcement]
  rfl

/-! ### Replaying a run -/

/-- **The lines of a step that goes on lead from the registers before it to those after it.** -/
theorem replay_lines (colored : Bool) {t : Transition} (h : t.result = .ok .continues) :
    replay (.ofBool colored) (t.lines .allChanges (.ofBool colored)) t.before.registers
      = t.after.registers := by
  have hchanges : t.changes .allChanges = t.differing := by
    unfold Transition.changes
    rw [h]
  have hread : (t.differing.map (Printer.changeLine (.ofBool colored)
      t.after.registers)).filterMap (readChange? (.ofBool colored))
        = t.differing.map fun r => (r, t.after.registers.get r) := by
    rw [List.filterMap_map, ← List.filterMap_eq_map]
    congr 1
    funext r
    exact readChange?_changeLine _ _ r
  rw [Transition.lines, replay_append, replay_announcement, replay, hchanges, hread]
  refine RegisterFile.setAll_of_changed _ _ fun s hs => ?_
  by_contra hne
  exact hs (List.mem_filter.mpr ⟨Register.mem_all s, bne_iff_ne.mpr hne⟩)

end Trace

namespace Machine

variable {ω : Type} {env : Environment ω} {m m' : Machine ω} {n : Nat}

/-- **The lines of steps lead from the registers before the first to those after the last.** -/
theorem replay_of_steps (colored : Bool) (h : Steps env n m m') :
    replay (.ofBool colored)
        ((m.transitions env n).flatMap (Transition.lines .allChanges (.ofBool colored)))
        m.guest.registers
      = m'.guest.registers := by
  induction h with
  | refl m => rfl
  | @next n m mid m' hstep _ ih =>
      rw [transitions_of_continues n hstep, List.flatMap_cons, replay_append, replay_lines _ rfl]
      exact ih

/-- So do those of a run that reaches its exit: the last step is announced and changes
nothing. -/
theorem replay_of_halted (colored : Bool) (h : Returns env n m .halted m') :
    replay (.ofBool colored)
        ((m.transitions env n).flatMap (Transition.lines .allChanges (.ofBool colored)))
        m.guest.registers
      = m'.guest.registers := by
  generalize hending : Ending.halted = ending at h
  induction h with
  | @last m m' result ending hstep hend =>
      subst hending
      obtain rfl := Ending.ofStep?_eq_halted hend
      rw [transitions_of_ends 0 hstep hend, List.flatMap_singleton,
        Transition.lines_of_ne (by simp), replay_announcement, guest_of_step_halted hstep]
  | @next n m mid m' ending hstep _ ih =>
      rw [transitions_of_continues n hstep, List.flatMap_cons, replay_append, replay_lines _ rfl]
      exact ih hending

end Machine

namespace Engine

open Machine

variable {α : Type}

/-- **A trace is a complete log of its run.**

Behind what the sink held before, and behind the lines for the preparation, stand the lines
for every step that the run has made, in order, and at the end the report of a run that has
reached its exit.  So it is also after any number of steps that go on.

If all changes are shown, then the registers are read back from these lines alone, starting
from the registers of a fresh start: after every step that goes on, and at the end of a run
that has reached its exit, where they are the registers that it reports. -/
theorem trace_is_complete (serve : SyscallHandler α) (e : Engine (α × Log)) (patience : Nat)
    {image : List UInt8} {colored : Bool} (hfits : image.length ≤ e.config.ramBytes)
    (hpalette : e.machine.world.2.printer.palette = .ofBool colored) :
    let env := Environment.logged serve
    let log := e.machine.world.2
    let front := log.sink.lines.toList ++ setupLines e.config image.length
    let start := (e.atStart env image).machine
    let shown n := (start.transitions env n).flatMap
      (Transition.lines log.printer.verbosity (.ofBool colored))
    let fresh := RegisterFile.reset (UInt32.ofNat e.config.ramBytes)
    let outcome := e.execute env patience image
    let final := outcome.2.machine.world.2.sink
    (final.refused = false →
      final.lines.toList = front ++ shown outcome.2.executed ++ closingLines outcome.1) ∧
    (∀ n m, Steps env n start m →
      (m.world.2.sink.refused = false → m.world.2.sink.lines.toList = front ++ shown n) ∧
      (log.printer.verbosity = .allChanges →
        replay (.ofBool colored) (shown n) fresh = m.guest.registers)) ∧
    (log.printer.verbosity = .allChanges → ∀ registers, outcome.1 = .halted registers →
      replay (.ofBool colored) (shown outcome.2.executed) fresh = registers) := by
  intro env log front start shown fresh outcome final
  have hlog : log.Holds log.printer.verbosity (.ofBool colored) log.sink.lines.toList :=
    ⟨rfl, hpalette, fun _ => rfl⟩
  have hstart := holds_atStart serve image hlog
  have hfresh : start.guest.registers = fresh := registers_atStart env image e
  refine ⟨?_, ?_, ?_⟩
  · exact (holds_of_execute serve patience hfits hlog).taken
  · intro n m hsteps
    refine ⟨(holds_of_steps hsteps hstart).taken, fun hall => ?_⟩
    dsimp only [shown]
    rw [hall, ← hfresh]
    exact replay_of_steps colored hsteps
  · intro hall registers hhalted
    obtain ⟨m', hreturns, rfl⟩ := returns_of_halted hfits hhalted
    dsimp only [shown]
    rw [hall, ← hfresh]
    exact replay_of_halted colored hreturns

/-- A program that writes the byte 1 and then reaches its exit. -/
def writesByte : List UInt8 :=
  [0x1f, 0, 0, 0, 0] ++ [0x07, 0, 1, 0, 0, 0] ++ [0x16, 0] ++ [0x16, 0] ++ [0x1b, 0, 0, 0, 0] ++
    [0x07, 0, 0, 0, 0, 0] ++ [0x16, 0] ++ [0x1b, 0, 0, 0, 0]

/-- An engine whose run is logged with all changes and without colours. -/
def fullyLogged : Engine (List UInt8 × Log) :=
  create .standard ([], .new .allChanges (.ofBool false) none)

/-- Serves the calls that write and collects what is written. -/
def collecting : SyscallHandler (List UInt8) :=
  Console.handler fun bytes written => written ++ bytes

theorem trace_is_complete_writesByte :
    let outcome := fullyLogged.execute (.logged collecting) 9 writesByte
    let start := (fullyLogged.atStart (.logged collecting) writesByte).machine
    let shown := (start.transitions (.logged collecting) 9).flatMap
      (Transition.lines .allChanges (.ofBool false))
    let registers := (RegisterFile.reset 0x3ffff0).set .pc 0
    writesByte.length ≤ fullyLogged.config.ramBytes ∧
      fullyLogged.machine.world.2.printer.palette = .ofBool false ∧
      outcome.1 = .halted registers ∧ outcome.2.machine.world.1 = [1] ∧
      outcome.2.machine.world.2.sink.lines.toList
        = setupLines .standard 33 ++ shown ++ registers.reportLines ∧
      replay (.ofBool false) shown (.reset 0x400000) = registers := by
  have hfits : writesByte.length ≤ fullyLogged.config.ramBytes := by decide
  have hpalette : fullyLogged.machine.world.2.printer.palette = .ofBool false := rfl
  have hcomplete := trace_is_complete collecting fullyLogged 9 hfits hpalette
  have hhalted : (fullyLogged.execute (.logged collecting) 9 writesByte).1
      = .halted ((RegisterFile.reset 0x3ffff0).set .pc 0) := by decide +kernel
  have hwritten : (fullyLogged.execute (.logged collecting) 9 writesByte).2.machine.world.1
      = [1] := by decide +kernel
  have hcounted : (fullyLogged.execute (.logged collecting) 9 writesByte).2.executed = 9 := by
    decide +kernel
  have hopen : (fullyLogged.execute (.logged collecting) 9
      writesByte).2.machine.world.2.sink.refused = false := by decide +kernel
  -- The outcome is known by now as far as it matters, and must not be computed again.
  dsimp only at hcomplete ⊢
  generalize fullyLogged.execute (.logged collecting) 9 writesByte = outcome at *
  obtain ⟨hlines, -, hreplayed⟩ := hcomplete
  have htaken := hlines hopen
  have hread := hreplayed rfl _ hhalted
  rw [hcounted] at hread
  rw [hcounted, hhalted] at htaken
  exact ⟨hfits, hpalette, hhalted, hwritten, htaken, hread⟩

end Engine

end RegisterMachine
