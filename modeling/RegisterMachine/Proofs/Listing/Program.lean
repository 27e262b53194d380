/-
The listing of an assembled program is its source again.

An image of a source without directives is a stream of instructions behind the slot: every
statement takes just the bytes of one encoding, and the next starts where they end
(`LaidOut.stream`).  So the sweep, which knows nothing of statements, cuts the image where
the source did, and what it finds in each piece is the instruction of the statement.

What the listing writes around the rows comes from the label table alone.  The table has the
first name that the source defines at an address; the listing writes that name above the row
there and in every row that goes there, and otherwise writes no name at all.
-/
import RegisterMachine.Proofs.Assembly.Labels
import RegisterMachine.Proofs.Assembly.Layout
import RegisterMachine.Proofs.Listing.Stream
import RegisterMachine.Proofs.Listing.Text

namespace RegisterMachine

open Assembly

/-! ### Sources without directives -/

namespace Assembly

/-- No line holds a directive. -/
def WithoutDirectives (lines : List (Line × Nat)) : Prop :=
  ∀ entry ∈ lines, ∀ d v, entry.1.statement? ≠ some (.directive d v)

/-- The first name that the lines define at an address. -/
def firstName? (defs : Definitions) (lines : List (Line × Nat)) (addr : Word) : Option String :=
  (lines.flatMap (·.1.labels)).find? fun name => defs.address? name = some addr

end Assembly

/-- The row shows what a statement makes: the instruction with its labels replaced by their
addresses, and the bytes that encode it. -/
inductive Row.Shows (defs : Definitions) : Row → Statement → Prop
  | instr {op : Operation} {args : List Argument} {written : Instr Value} {i : Instruction}
      {offset : Nat} (hshape : Assembly.instr? op args = some written)
      (hlabels : written.mapExcept (Value.resolve defs) = .ok i) :
      Shows defs ⟨offset, i.encode, some i⟩ (.instr op args)

/-- **A source without directives is a stream of instructions**, one for each statement, at the
address of its item. -/
theorem Assembly.LaidOut.stream {defs : Definitions} {image : List UInt8} {offset : Nat}
    {lines : List (Line × Nat)} {items : List Placed} (h : LaidOut defs image offset lines items)
    (hplain : WithoutDirectives lines) :
    ∃ is : List Instruction, image.drop offset = is.flatMap Instr.encode ∧
      List.Forall₂ (Row.Shows defs) (Row.ofStream offset is)
        (lines.filterMap (·.1.statement?)) ∧
      (Row.ofStream offset is).map Row.offset = items.map (·.addr.toNat) := by
  induction h with
  | done => exact ⟨[], by simp, .nil, rfl⟩
  | bare _ hnone _ ih =>
      obtain ⟨is, hbytes, hshows, haddrs⟩ := ih fun entry he => hplain entry (by simp [he])
      refine ⟨is, hbytes, ?_, haddrs⟩
      simpa only [List.filterMap_cons, hnone] using hshows
  | statement _ hsome hplace hoccupies _ ih =>
      obtain ⟨is, hbytes, hshows, haddrs⟩ := ih fun entry he => hplain entry (by simp [he])
      cases hoccupies with
      | @instr op args written i hshape hlabels hprefix _ =>
          have hdrop := List.prefix_iff_eq_append.mp hprefix
          rw [List.drop_drop, Instr.length_encode, hbytes] at hdrop
          refine ⟨i :: is, ?_, ?_, ?_⟩
          · rw [List.flatMap_cons, hdrop]
          · rw [Row.ofStream_cons]
            simp only [List.filterMap_cons, hsome]
            exact .cons (.instr hshape hlabels) hshows
          · rw [Row.ofStream_cons, List.map_cons, List.map_cons, haddrs, hplace.2]
      | word _ _ | byte _ _ _ | org _ _ _ => exact absurd hsome (hplain _ List.mem_cons_self _ _)

theorem Row.sweep_slotBytes_append (is : List Instruction) :
    sweep (slotBytes ++ is.flatMap Instr.encode)
      = ⟨0, slotBytes, some (.jump .always 0)⟩ :: ofStream slotSize is := by
  have hslot : sweepFrom 0 slotBytes = [⟨0, slotBytes, some (.jump .always 0)⟩] :=
    sweepFrom_stream 0 [.jump .always 0]
  have hlength : slotBytes.length = slotSize := by decide
  rw [sweep, List.take_left' hlength, List.drop_left' hlength, hslot, sweepFrom_stream]
  rfl

/-! ### The listing of a program -/

/-- What the listing of a program has to do with its source. -/
structure Listing.ShowsSource (a : Assembled) (lines : List (Line × Nat)) (layout : Layout)
    (code : List Row) (listing : List ListingLine) : Prop where
  /-- The rows are that of the slot and those of the code. -/
  rows : listing.filterMap ListingLine.row?
    = ⟨0, slotBytes, some (.jump .always 0)⟩ :: code
  /-- The rows of the code show the statements of the source, in order. -/
  statements : List.Forall₂ (Row.Shows layout.defs) code (lines.filterMap (·.1.statement?))
  /-- They stand where the first pass placed the statements. -/
  placed : code.map Row.addr = layout.items.map Placed.addr
  /-- An address is the number of bytes in front of it. -/
  offsets : ∀ row ∈ code, row.addr.toNat = row.offset
  /-- The table names an address after the first label in the source that has it. -/
  table : ∀ addr, a.labels.get? addr = firstName? layout.defs lines addr
  /-- The name of a row's address stands right above the row. -/
  above : ∀ row ∈ listing.filterMap ListingLine.row?, ∀ name, a.labels.get? row.addr = some name →
    ∃ targetName?, [.label name, .row row targetName?] <:+: listing
  /-- No other names are defined. -/
  labels : listing.filterMap ListingLine.label?
    = (listing.filterMap ListingLine.row?).filterMap fun row => a.labels.get? row.addr
  /-- The operand of a call or jump is the first name of its target, if it has any, and else
  its address. -/
  operands : ∀ row targetName? i target, .row row targetName? ∈ listing → row.instr? = some i →
    i.branchTarget? = some target →
    (ListingLine.row row targetName?).render .off = Columns.row .off row.addr row.raw
      (i.operation.mnemonic ++ " " ++
        (firstName? layout.defs lines target).getD target.addressText)
  /-- The text of the listing consists of these lines. -/
  printed : Printed listing

/-- **Disassembling an assembled program gives its source again.**

Of a program without directives, whatever its statements and labels, the listing has the row of
the slot and then one row for every statement, in order, at the address that the first pass
gave it and with the bytes of its instruction.  The names that it defines are the first ones
at the addresses of its rows, each on the line above its row, and these names are what calls
and jumps show. -/
theorem Listing.withLabels_assembled {source : String} {a : Assembled}
    {lines : List (Line × Nat)} (h : assembleProgram source = .ok a)
    (hlines : parseLines source = .ok lines) (hplain : WithoutDirectives lines)
    (hlength : a.bytes.length < 2 ^ 32) :
    ∃ layout code, Layout.ofLines [] 5 lines = .ok layout ∧
      ShowsSource a lines layout code (withLabels a.labels a.bytes) := by
  obtain ⟨lines', layout, pieces, hlines', hfollows⟩ := followsLayout_of_assembleBehind h hlength
  obtain rfl := Except.ok.inj (hlines'.symm.trans hlines)
  obtain ⟨is, hstream, hshows, haddrs⟩ := hfollows.laidOut.stream hplain
  have himage : a.bytes = slotBytes ++ is.flatMap Instr.encode := by
    rw [← hstream, hfollows.bytes, List.drop_left]
  have hsweep : Row.sweep a.bytes
      = ⟨0, slotBytes, some (.jump .always 0)⟩ :: Row.ofStream slotSize is := by
    rw [himage, Row.sweep_slotBytes_append]
  refine ⟨layout, Row.ofStream slotSize is, hfollows.placed, ?_⟩
  have hrows : (withLabels a.labels a.bytes).filterMap ListingLine.row? = Row.sweep a.bytes :=
    filterMap_row?_linesOf _ _
  have haddr : ∀ row ∈ Row.ofStream slotSize is, row.addr.toNat = row.offset := by
    intro row hrow
    have hmem : row ∈ Row.sweep a.bytes := hsweep ▸ List.mem_cons_of_mem _ hrow
    have hbound := ((Row.tiles_sweep a.bytes).offset_bounds row hmem).2
    exact Row.toNat_addr (Nat.lt_trans hbound hlength)
  have hnames : ∀ addr name, a.labels.get? addr = some name → OneLine name := by
    intro addr name hname
    exact (nameable_of_mem_labels h (WordMap.mem_entries_iff.mpr hname)).1.newline_not_mem
  refine ⟨?_, hshows, ?_, haddr, hfollows.table, ?_, ?_, ?_, printed_withLabels hnames⟩
  · rw [hrows, hsweep]
  · have hwords := congrArg (List.map UInt32.ofNat) haddrs
    simp only [List.map_map, Function.comp_def, UInt32.ofNat_toNat] at hwords
    exact hwords
  · intro row hrow name hname
    rw [hrows] at hrow
    exact ⟨_, label_above_row hrow hname⟩
  · rw [hrows]
    exact filterMap_label?_linesOf _ _
  · intro row targetName? i target hmem hinstr htarget
    obtain ⟨-, rfl⟩ := targetName_of_mem_linesOf hmem
    have hname : row.branchTarget?.bind a.labels.get? = firstName? layout.defs lines' target := by
      rw [Row.branchTarget?, hinstr, Option.bind_some, htarget, Option.bind_some]
      exact hfollows.table target
    rw [ListingLine.render, ListingLine.content, hinstr, hname]
    exact congrArg _ (Instr.render_branch htarget _)

/-- A program that goes forwards and backwards, to a label that is not the first at its address,
to a number where no label is, and to a label behind the last instruction. -/
theorem Listing.withLabels_assembled_branches :
    let source := "top: here: call end\njmpz here\njmp 0x10\nend: mov r1, 7\njmp last\nlast:"
    let a : Assembled :=
      ⟨[0x1f, 0, 0, 0, 0, 0x1b, 20, 0, 0, 0, 0x21, 5, 0, 0, 0, 0x1f, 16, 0, 0, 0,
          0x07, 0x10, 7, 0, 0, 0, 0x1f, 31, 0, 0, 0],
        [(5, "top"), (20, "end"), (31, "last")], by decide⟩
    assembleProgram source = .ok a ∧ a.bytes.length < 2 ^ 32 ∧
      text .off (withLabels a.labels a.bytes) = textOf
        ["[trampoline]",
          "  0x00000000  1f 00 00 00 00     jmp 0x00000000",
          "",
          "[code]",
          "top:",
          "  0x00000005  1b 14 00 00 00     call end",
          "  0x0000000a  21 05 00 00 00     jmpz top",
          "  0x0000000f  1f 10 00 00 00     jmp 0x00000010",
          "end:",
          "  0x00000014  07 10 07 00 00 00  mov r1, 7",
          "  0x0000001a  1f 1f 00 00 00     jmp last"] ∧
      ∃ lines layout code, parseLines source = .ok lines ∧ WithoutDirectives lines ∧
        ShowsSource a lines layout code (withLabels a.labels a.bytes) := by
  intro source a
  have h : assembleProgram source = .ok a := by decide +kernel
  have hlines : parseLines source
      = .ok [(⟨["top", "here"], some (.instr .call [.value (.label "end")])⟩, 1),
        (⟨[], some (.instr (.jump .zero) [.value (.label "here")])⟩, 2),
        (⟨[], some (.instr (.jump .always) [.value (.number 0x10)])⟩, 3),
        (⟨["end"], some (.instr .mov [.reg (.general 1), .value (.number 7)])⟩, 4),
        (⟨[], some (.instr (.jump .always) [.value (.label "last")])⟩, 5),
        (⟨["last"], none⟩, 6)] := by decide +kernel
  obtain ⟨layout, code, -, hshows⟩ :=
    withLabels_assembled h hlines (by simp [WithoutDirectives]) (by decide)
  exact ⟨h, by decide, by decide +kernel, _, layout, code, hlines, by simp [WithoutDirectives],
    hshows⟩

end RegisterMachine
