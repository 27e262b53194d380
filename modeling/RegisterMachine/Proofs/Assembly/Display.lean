/-
Displayed instructions assemble to their encodings.

The text of an instruction is what a listing without labels shows in the content column of its
row, so a list of instructions, one on a line, is the source of such a listing.  What remains
is that lines with line breaks between them only are found again, where a listing has a line
break behind each; an empty list is one empty line.

There are no labels, so nothing depends on the addresses, and the list may be longer than the
address space.
-/
import RegisterMachine.Proofs.Listing.Reassembly
import RegisterMachine.Proofs.Listing.Stream

namespace RegisterMachine.Assembly

open Listing (ownLines definitions)

/-- The line that an instruction's text is read as. -/
def Line.ofInstruction (i : Instruction) : Line :=
  ⟨[], some (.instr i.operation (i.arguments none))⟩

theorem parse_text (i : Instruction) : Line.parse i.text.toList = .ok (.ofInstruction i) :=
  Instr.parse_render (by simp)

theorem newline_not_mem_text (i : Instruction) : '\n' ∉ i.text.toList :=
  OneLine.render Palette.onOneLine_off i (by simp)

/-- A text without any lines is one blank line. -/
def blankIfNone (is : List Instruction) : List Line :=
  if is = [] then [.blank] else []

/-- **Displayed instructions are read one by one.** -/
theorem parseLines_texts (is : List Instruction) :
    parseLines ("\n".intercalate (is.map Instr.text))
      = .ok ((is.map Line.ofInstruction ++ blankIfNone is).zipIdx 1) := by
  refine parseLines_eq_ok.mpr ⟨_, ?_, rfl⟩
  cases is with
  | nil => exact congrArg (fun outcome => [outcome]) Line.parse_nil
  | cons i is =>
      have hlines : Text.lines ("\n".intercalate ((i :: is).map Instr.text)).toList
          = ((i :: is).map Instr.text).map String.toList := by
        rw [String.toList_intercalate]
        refine Text.lines_intercalate (by simp) fun piece hpiece => ?_
        obtain ⟨text, htext, rfl⟩ := List.mem_map.mp hpiece
        obtain ⟨j, -, rfl⟩ := List.mem_map.mp htext
        exact newline_not_mem_text j
      have hblank : blankIfNone (i :: is) = [] := rfl
      rw [ReadsAs, hlines, hblank, List.append_nil]
      simp only [List.map_map, Function.comp_def, parse_text]

/-! ### The listing without labels -/

theorem asRead_ownLines_ofStream (start : Nat) (is : List Instruction) :
    ((Row.ofStream start is).flatMap (ownLines .empty)).map ListingLine.asRead
      = is.map Line.ofInstruction := by
  induction is generalizing start with
  | nil => rfl
  | cons i is ih =>
      have htarget : i.branchTarget?.bind (WordMap.empty : LabelTable).get? = none := by
        cases i.branchTarget? <;> rfl
      have hrow : ownLines .empty ⟨start, i.encode, some i⟩
          = [.row ⟨start, i.encode, some i⟩ none] :=
        congrArg (fun targetName? => [ListingLine.row _ targetName?]) htarget
      rw [Row.ofStream_cons, List.flatMap_cons, List.map_append, ih, hrow]
      rfl

theorem standardBytes_ofStream (start : Nat) (is : List Instruction) :
    (Row.ofStream start is).flatMap Row.standardBytes = is.flatMap Instr.encode := by
  induction is generalizing start with
  | nil => rfl
  | cons i is ih =>
      rw [Row.ofStream_cons, List.flatMap_cons, List.flatMap_cons, ih]
      rfl

theorem names_empty (rows : List Row) : Listing.Names .empty rows where
  start _ _ h := nomatch h
  inj _ _ _ h := nomatch h
  nameable _ _ h := nomatch h

theorem definitions_empty (rows : List Row) : definitions .empty rows = [] :=
  List.filterMap_eq_nil_iff.mpr fun _ _ => rfl

/-- **Displayed instructions assemble to their encodings.**  Whatever the instructions, their
texts, one on a line, are accepted and give the bytes of all of them in order, and no labels. -/
theorem assemble_texts (is : List Instruction) :
    assemble ("\n".intercalate (is.map Instr.text)) = .ok ⟨is.flatMap Instr.encode, .empty⟩ := by
  have hlines := parseLines_texts is
  rw [← asRead_ownLines_ofStream 0] at hlines
  have htrailing : ∀ line ∈ blankIfNone is, line = .blank := by
    unfold blankIfNone
    split <;> simp
  have htiles := Row.tiles_sweepFrom 0 (is.flatMap Instr.encode)
  rw [Row.sweepFrom_stream] at htiles
  have hdistinct : (definitions .empty (Row.ofStream 0 is)).Distinct := by
    rw [definitions_empty]
    exact List.nodup_nil
  rw [Listing.assemble_code hlines htrailing htiles (names_empty _) hdistinct,
    standardBytes_ofStream]

end RegisterMachine.Assembly
