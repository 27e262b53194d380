/-
Colours only add escape codes.

One set of printers serves coloured and plain output, with the palette as an argument.  Each of
them joins codes of the palette to texts that are the same for both, and where a column is
filled up, its width is that of the text before any code was put around it.  So what a printer
gives for the two palettes is the same but for codes, and with it every line.

A listing is its lines.  A trace is what a log has taken after some events, and how it takes
them depends on the printer's state and on the sink, neither of which looks at colours: two
logs that differ in their palettes alone still do after every event.
-/
import RegisterMachine.Proofs.Listing.Lines
import RegisterMachine.Proofs.Palette
import RegisterMachine.Proofs.Trace.Log

namespace RegisterMachine

/-! ### Printers -/

namespace SameButCodes

variable {text coloured plain : String}

theorem blueText (h : Uncoded text) :
    SameButCodes (Palette.on.blue ++ text ++ Palette.on.reset)
      (Palette.off.blue ++ text ++ Palette.off.reset) :=
  (blue.append (refl h)).append reset

theorem greenText (h : Uncoded text) :
    SameButCodes (Palette.on.paint Palette.on.green text)
      (Palette.off.paint Palette.off.green text) := by
  have hpainted := (green.append (refl h)).append reset
  rw [Palette.off_reset, String.append_empty] at hpainted
  show SameButCodes (Palette.on.green ++ text ++ Palette.on.reset) text
  rwa [← String.empty_append (s := text)]

theorem operand (src : Operand Word) : SameButCodes (src.render .on) (src.render .off) := by
  cases src with
  | reg r => exact refl (.registerName r)
  | imm value => exact greenText (.decimal value.toNat)

theorem render (i : Instruction) {name? : Option String}
    (hname : ∀ name, name? = some name → Uncoded name) :
    SameButCodes (i.render .on name?) (i.render .off name?) := by
  have hspace : Uncoded " " := by decide
  have hcomma : Uncoded ", " := by decide
  have hopen : Uncoded " [" := by decide
  have hclose : Uncoded "], " := by decide
  have hcommaOpen : Uncoded ", [" := by decide
  have hend : Uncoded "]" := by decide
  have htarget : ∀ target : Word, Uncoded (name?.getD target.addressText) := by
    intro target
    cases name? with
    | none => exact .hex _ _
    | some name => exact hname name rfl
  cases i with
  | load _ _ | store _ _ | not _ | push _ | pop _ =>
      refine refl ?_
      simp [Instr.render, hspace, hopen, hclose, hcommaOpen, hend]
  | mov dst src | alu _ dst src | cmp dst src =>
      refine append (refl ?_) (operand src)
      simp [hspace, hcomma]
  | call target | jump _ target =>
      exact ((blueText (.mnemonic _)).append (refl hspace)).append (refl (htarget target))
  | ret => exact blueText (.mnemonic _)

/-- A column is as wide in colours as it is without. -/
theorem row (addr : Word) (raw : List UInt8) (h : SameButCodes coloured plain) :
    SameButCodes (Columns.row .on addr raw coloured) (Columns.row .off addr raw plain) := by
  have hspaces : ∀ n, SameButCodes (Columns.spaces n) (Columns.spaces n) := fun n =>
    refl (.spaces n)
  have hbytes : SameButCodes (bytesText raw) (bytesText raw) := refl (.bytesText raw)
  have haddr : SameButCodes addr.addressText addr.addressText := refl (.hex 8 _)
  -- The bytes are filled up by their own length, so the same spaces stand on both sides.
  exact (hspaces _).append dim |>.append haddr |>.append reset |>.append (hspaces _)
    |>.append dim |>.append hbytes |>.append (hspaces _) |>.append reset |>.append (hspaces _)
    |>.append h

theorem label (h : Uncoded text) :
    SameButCodes (Columns.label .on text) (Columns.label .off text) :=
  (blueText h).append (refl (by decide))

theorem header (h : Uncoded text) :
    SameButCodes ((ListingLine.header text).render .on)
      ((ListingLine.header text).render .off) := by
  have hopen : Uncoded "[" := by decide
  have hclose : Uncoded "]" := by decide
  exact ((blue.append (refl hopen)).append (refl h)).append (refl hclose) |>.append reset

theorem content (r : Row) {name? : Option String}
    (hname : ∀ name, name? = some name → Uncoded name) :
    SameButCodes (ListingLine.content .on r name?) (ListingLine.content .off r name?) := by
  unfold ListingLine.content
  split
  · exact render _ hname
  · refine refl (Uncoded.append_iff.mpr ⟨by decide, Text.not_mem_toList_join fun text htext => ?_⟩)
    obtain ⟨b, -, rfl⟩ := List.mem_map.mp htext
    exact Uncoded.byteText b

theorem sectionLine {offset : Nat} {line : ListingLine}
    (h : line ∈ Listing.sectionLines offset) :
    SameButCodes (line.render .on) (line.render .off) := by
  have hblank : SameButCodes (ListingLine.blank.render .on) (ListingLine.blank.render .off) :=
    refl (by decide)
  unfold Listing.sectionLines at h
  split at h
  · obtain rfl := List.mem_singleton.mp h
    exact header (by decide)
  · split at h
    · rcases List.mem_cons.mp h with rfl | h
      · exact hblank
      · obtain rfl := List.mem_singleton.mp h
        exact header (by decide)
    · contradiction

theorem changeLine (f : RegisterFile) (r : Register) :
    SameButCodes (Trace.Printer.changeLine .on f r) (Trace.Printer.changeLine .off f r) := by
  have hequals : Uncoded " = " := by decide
  have hopen : Uncoded " (" := by decide
  have hclose : Uncoded ")" := by decide
  have hname : Uncoded (r.name ++ " = ") := by simp [hequals]
  have hshown := (refl hname).append (greenText (.hex 8 (f.get r).toNat))
  have hindent := refl (.spaces Columns.content)
  unfold Trace.Printer.changeLine Columns.subline
  split
  · exact hindent.append (((hshown.append (refl hopen)).append (refl (.flags _))).append
      (refl hclose))
  · exact hindent.append hshown

end SameButCodes

theorem RegisterFile.uncoded_of_mem_reportLines {f : RegisterFile} {line : String}
    (h : line ∈ f.reportLines) : Uncoded line := by
  rcases List.mem_cons.mp h with rfl | h
  · decide
  · obtain ⟨r, -, rfl⟩ := List.mem_map.mp h
    have hname : ∀ r ∈ Register.all, Uncoded
        (String.ofList ((r.name.toList.map Char.toUpper).rightpad nameWidth ' ')) := by
      decide
    have htab : Uncoded "\t" := by decide
    have hequals : Uncoded " = " := by decide
    have hfront := Uncoded.append_iff.mpr ⟨htab, hname r (Register.mem_all r)⟩
    exact Uncoded.append_iff.mpr ⟨Uncoded.append_iff.mpr ⟨hfront, hequals⟩, .hex _ _⟩

/-! ### Listings -/

/-- If no name has a code in it, colours only add codes to a listing. -/
theorem Listing.sameButCodes_linesOf {labels : LabelTable}
    (hnames : ∀ addr name, labels.get? addr = some name → Uncoded name) (rows : List Row) :
    SameButCodes (text .on (linesOf labels rows)) (text .off (linesOf labels rows)) := by
  have hbreak : Uncoded "\n" := by decide
  refine .join (SameButCodes.map fun line hline => .append ?_ (.refl hbreak))
  obtain ⟨r, -, hsection | ⟨name, hname, rfl⟩ | rfl⟩ := mem_linesOf hline
  · exact .sectionLine hsection
  · exact .label (hnames _ name hname)
  · refine .row r.addr r.raw (.content r fun name hname => ?_)
    obtain ⟨target, -, hname⟩ := Option.bind_eq_some_iff.mp hname
    exact hnames target name hname

theorem Listing.uncoded_of_get?_autoLabels {rows : List Row} {addr : Word} {name : String}
    (h : (autoLabels rows).get? addr = some name) : Uncoded name := by
  have hprefix : Uncoded autoLabelPrefix := by decide
  obtain ⟨n, rfl⟩ := exists_autoName_of_get? h
  simp [autoName, hprefix]

/-! ### Traces -/

namespace Trace

/-- The same printer without colours. -/
def Printer.plain (printer : Printer) : Printer :=
  { printer with palette := .off }

theorem Printer.plain_after (printer : Printer) (event : Event) :
    printer.plain.after event = (printer.after event).plain := by
  cases event with
  | retired registers =>
      show (if printer.verbosity = .brief then _ else _) = Printer.plain (if _ then _ else _)
      split <;> rfl
  | _ => rfl

theorem Printer.sameButCodes_lines {printer : Printer} (hpalette : printer.palette = .on)
    (event : Event) :
    List.Forall₂ SameButCodes (printer.lines event) (printer.plain.lines event) := by
  obtain ⟨verbosity, palette, before?⟩ := printer
  obtain rfl : palette = .on := hpalette
  cases event with
  | configure kind imageLength ramMib =>
      have hlength : Uncoded ("\tprogram size " ++ Text.decimal imageLength ++ " bytes") := by
        have hfront : Uncoded "\tprogram size " := by decide
        have hback : Uncoded " bytes" := by decide
        simp [hfront, hback]
      have hram : Uncoded ("\tmemory " ++ Text.decimal ramMib ++ " MiB") := by
        have hfront : Uncoded "\tmemory " := by decide
        have hback : Uncoded " MiB" := by decide
        simp [hfront, hback]
      have hkind : Uncoded ("\ttype '" ++ kind.name ++ "'") := by
        cases kind
        decide
      exact .cons (.refl (by decide))
        (.cons (.refl hlength) (.cons (.refl hram) (.cons (.refl hkind) .nil)))
  | initMemory length =>
      have hmemory : Uncoded ("\tmemory [" ++ Text.hex 8 length ++ "]") := by
        have hfront : Uncoded "\tmemory [" := by decide
        have hback : Uncoded "]" := by decide
        simp [hfront, hback]
      exact .cons (.refl (by decide)) (.cons (.refl hmemory) .nil)
  | initRegisters _ | loadProgram _ | start =>
      exact .cons (.refl (by decide)) .nil
  | instruction addr raw i registers =>
      exact .cons (.row addr raw (.render i (by simp))) .nil
  | syscall id registers =>
      have hspace : Uncoded " " := by decide
      have hname : Uncoded "syscall" := by decide
      have hcall := SameButCodes.blueText hname
      refine .cons (.row registers.pc [] ?_) .nil
      exact (hcall.append (.refl hspace)).append (.refl (.decimal id.toNat))
  | retired registers =>
      cases before? with
      | none => exact .nil
      | some before => exact SameButCodes.map fun r _ => .changeLine registers r
  | halt registers =>
      exact SameButCodes.map_self fun _ => RegisterFile.uncoded_of_mem_reportLines

/-- Two sinks have taken the same but for codes. -/
structure Sink.Alike (coloured plain : Sink) : Prop where
  capacity : coloured.capacity? = plain.capacity?
  lines : List.Forall₂ SameButCodes coloured.lines.toList plain.lines.toList
  refused : coloured.refused = plain.refused

namespace Sink.Alike

variable {coloured plain : Sink}

theorem isFull (h : Alike coloured plain) : coloured.isFull = plain.isFull := by
  have hsize : coloured.lines.size = plain.lines.size := h.lines.length_eq
  rw [Sink.isFull, Sink.isFull, h.capacity, hsize]

theorem push (h : Alike coloured plain) {line line' : String} (hline : SameButCodes line line') :
    Alike (coloured.push line) (plain.push line') := by
  unfold Sink.push
  rw [h.refused, h.isFull]
  by_cases hrefused : plain.refused = true
  · rw [if_pos hrefused, if_pos hrefused]
    exact h
  · rw [if_neg hrefused, if_neg hrefused]
    by_cases hfull : plain.isFull = true
    · rw [if_pos hfull, if_pos hfull]
      exact { h with refused := rfl }
    · rw [if_neg hfull, if_neg hfull]
      refine ⟨h.capacity, ?_, rfl⟩
      rw [Array.toList_push, Array.toList_push]
      exact List.rel_append h.lines (.cons hline .nil)

theorem pushAll (h : Alike coloured plain) {lines lines' : List String}
    (hlines : List.Forall₂ SameButCodes lines lines') :
    Alike (coloured.pushAll lines) (plain.pushAll lines') := by
  induction hlines generalizing coloured plain with
  | nil => exact h
  | cons hline _ ih => exact ih (h.push hline)

theorem text (h : Alike coloured plain) : SameButCodes coloured.text plain.text := by
  refine .join ?_
  rw [List.forall₂_map_left_iff, List.forall₂_map_right_iff]
  exact h.lines.imp fun _ _ hline => hline.append (.refl (by decide))

end Sink.Alike

/-- Two logs differ in their palettes alone. -/
structure Log.Alike (coloured plain : Log) : Prop where
  palette : coloured.printer.palette = .on
  printer : plain.printer = coloured.printer.plain
  sink : coloured.sink.Alike plain.sink

namespace Log.Alike

variable {coloured plain : Log}

theorem new (verbosity : Verbosity) (capacity? : Option Nat) :
    Alike (.new verbosity .on capacity?) (.new verbosity .off capacity?) :=
  ⟨rfl, rfl, rfl, .nil, rfl⟩

theorem record (h : Alike coloured plain) (event : Event) :
    Alike (coloured.record event) (plain.record event) where
  palette := by
    rw [Log.record, Printer.palette_after, h.palette]
  printer := by
    rw [Log.record, Log.record, h.printer, Printer.plain_after]
  sink := by
    rw [Log.record, Log.record, h.printer]
    exact h.sink.pushAll (Printer.sameButCodes_lines h.palette event)

theorem recordAll (h : Alike coloured plain) (events : List Event) :
    Alike (coloured.recordAll events) (plain.recordAll events) := by
  induction events generalizing coloured plain with
  | nil => exact h
  | cons event events ih => exact ih (h.record event)

end Log.Alike

end Trace

open Trace Listing

/-- **Colours only add escape codes.**  Without the four codes, a coloured listing is the plain
one, for every image, with names made up for it or taken from a table, unless a name in the
table has the escape character in it.  And whatever events a log is told, in colours it takes
the text that it takes without, but for the codes. -/
theorem colours_only_add_codes :
    (∀ image, withoutCodes (Listing.text .on (withAutoLabels image))
      = Listing.text .off (withAutoLabels image)) ∧
    (∀ (labels : LabelTable) (image : List UInt8),
      (∀ addr name, labels.get? addr = some name → '\x1b' ∉ name.toList) →
      withoutCodes (Listing.text .on (withLabels labels image))
        = Listing.text .off (withLabels labels image)) ∧
    ∀ (verbosity : Verbosity) (capacity? : Option Nat) (events : List Event),
      withoutCodes ((Log.new verbosity .on capacity?).recordAll events).sink.text
        = ((Log.new verbosity .off capacity?).recordAll events).sink.text := by
  refine ⟨fun image => ?_, fun labels image hnames => ?_, fun verbosity capacity? events => ?_⟩
  · exact (sameButCodes_linesOf (fun _ _ => uncoded_of_get?_autoLabels) _).withoutCodes_eq
  · exact (sameButCodes_linesOf hnames _).withoutCodes_eq
  · exact ((Log.Alike.new verbosity capacity?).recordAll events).sink.text.withoutCodes_eq

/-- A subroutine `f` that calls itself, at the entry point. -/
theorem colours_only_add_codes_to_call :
    let labels : LabelTable := WordMap.empty.insert 5 "f"
    let image : List UInt8 := [0x1f, 5, 0, 0, 0, 0x1b, 5, 0, 0, 0]
    (∀ addr name, labels.get? addr = some name → '\x1b' ∉ name.toList) ∧
      withoutCodes (Listing.text .on (withLabels labels image))
        = Listing.text .off (withLabels labels image) := by
  intro labels image
  have hnames : ∀ addr name, labels.get? addr = some name → '\x1b' ∉ name.toList := by
    intro addr name hname
    rw [WordMap.get?_insert] at hname
    by_cases haddr : addr = 5
    · rw [if_pos haddr] at hname
      obtain rfl := Option.some.inj hname
      decide
    · rw [if_neg haddr] at hname
      contradiction
  exact ⟨hnames, colours_only_add_codes.2.1 labels image hnames⟩

end RegisterMachine
