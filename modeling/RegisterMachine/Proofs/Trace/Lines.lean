/-
What the lines of a trace look like.

A printer is given lines one at a time and ends each with a line break, so its output is cut
into the same lines again only if none of them has a break of its own.  None has: a line is
made of names, of digits and of escape codes, and `OneLine` is closed under joining.

The report at the end of a run starts with a line of its own, `Registers:`.  All lines before
it start differently, most of them with a space, so a reader finds the report by that line.
-/
import RegisterMachine.Proofs.Assembly.Operand
import RegisterMachine.Proofs.HexText
import RegisterMachine.Trace.Printer

namespace RegisterMachine

/-! ### Characters that are not printed -/

theorem Columns.not_mem_spaces {c : Char} (h : c ≠ ' ') (n : Nat) : c ∉ (spaces n).toList := by
  intro hmem
  rw [spaces, String.toList_ofList] at hmem
  exact h (List.eq_of_mem_replicate hmem)

theorem Flags.not_mem_text {c : Char} (f : Flags)
    (h : ∀ text ∈ "-" :: " " :: Flag.all.map Flag.name, c ∉ text.toList) : c ∉ f.text.toList := by
  unfold text
  split
  · exact h "-" (by simp)
  · refine Text.not_mem_toList_intercalate (h " " (by simp)) fun name hname => ?_
    obtain ⟨flag, hflag, rfl⟩ := List.mem_map.mp hname
    refine h flag.name ?_
    cases flag <;> decide

/-! ### Texts without a line break -/

/-- The text has no line break in it. -/
def OneLine (text : String) : Prop :=
  '\n' ∉ text.toList

instance (text : String) : Decidable (OneLine text) :=
  inferInstanceAs (Decidable ('\n' ∉ text.toList))

namespace OneLine

@[simp] theorem append_iff {front back : String} :
    OneLine (front ++ back) ↔ OneLine front ∧ OneLine back := by
  simp [OneLine]

theorem append {front back : String} (hfront : OneLine front) (hback : OneLine back) :
    OneLine (front ++ back) :=
  append_iff.mpr ⟨hfront, hback⟩

theorem join {pieces : List String} (hpieces : ∀ piece ∈ pieces, OneLine piece) :
    OneLine (String.join pieces) :=
  Text.not_mem_toList_join hpieces

@[simp] theorem decimal (n : Nat) : OneLine (Text.decimal n) :=
  (Assembly.token_decimal n).newline_not_mem

@[simp] theorem hex (width n : Nat) : OneLine (Text.hex width n) :=
  (Assembly.token_hex width n).newline_not_mem

@[simp] theorem mnemonic (op : Operation) : OneLine op.mnemonic :=
  (Assembly.token_mnemonic op).newline_not_mem

@[simp] theorem registerName (r : Register) : OneLine r.name :=
  (Assembly.token_name r).newline_not_mem

@[simp] theorem spaces (n : Nat) : OneLine (Columns.spaces n) :=
  Columns.not_mem_spaces (by decide) n

@[simp] theorem bytesText (bytes : List UInt8) : OneLine (bytesText bytes) :=
  newline_not_mem_bytesText bytes

@[simp] theorem flags (f : Flags) : OneLine f.text :=
  f.not_mem_text (by decide)

end OneLine

/-! ### Texts of lines -/

/-- Lines as text; every line ends in a line break. -/
def textOf (lines : List String) : String :=
  String.join (lines.map (· ++ "\n"))

theorem textOf_append (front back : List String) :
    textOf (front ++ back) = textOf front ++ textOf back := by
  simp [textOf, String.join_append]

theorem lines_textOf {lines : List String} (h : ∀ line ∈ lines, OneLine line) :
    Text.lines (textOf lines).toList = lines.map String.toList ++ [[]] := by
  rw [textOf, Text.toList_join_lines lines fun line => line]
  refine Text.lines_flatMap fun piece hpiece => ?_
  obtain ⟨line, hline, rfl⟩ := List.mem_map.mp hpiece
  exact h line hline

/-! ### Lines of a trace -/

/-- The codes of the palette have no line breaks in them. -/
structure Palette.OnOneLine (p : Palette) : Prop where
  blue : OneLine p.blue
  green : OneLine p.green
  dim : OneLine p.dim
  reset : OneLine p.reset

theorem Palette.onOneLine_ofBool (colored : Bool) : (ofBool colored).OnOneLine := by
  cases colored <;> exact ⟨by decide, by decide, by decide, by decide⟩

theorem Palette.onOneLine_off : off.OnOneLine :=
  onOneLine_ofBool false

namespace OneLine

variable {p : Palette}

theorem paint (hp : p.OnOneLine) {color text : String} (hcolor : OneLine color)
    (htext : OneLine text) : OneLine (p.paint color text) := by
  unfold Palette.paint
  split
  · exact htext
  · exact (hcolor.append htext).append hp.reset

theorem render (hp : p.OnOneLine) (i : Instruction) {targetName? : Option String}
    (hname : ∀ name, targetName? = some name → OneLine name) :
    OneLine (i.render p targetName?) := by
  have hspace : OneLine " " := by decide
  have hcomma : OneLine ", " := by decide
  have hopen : OneLine " [" := by decide
  have hclose : OneLine "], " := by decide
  have hcommaOpen : OneLine ", [" := by decide
  have hend : OneLine "]" := by decide
  have hoperand : ∀ src : Operand Word, OneLine (src.render p) := by
    intro src
    cases src with
    | reg r => exact registerName r
    | imm value => exact paint hp hp.green (decimal _)
  have htarget : ∀ target : Word, OneLine (targetName?.getD target.addressText) := by
    intro target
    cases targetName? with
    | none => exact hex _ _
    | some name => exact hname name rfl
  cases i <;>
    simp [Instr.render, hp.blue, hp.reset, hspace, hcomma, hopen, hclose, hcommaOpen, hend,
      hoperand, htarget]

theorem row (hp : p.OnOneLine) (addr : Word) (raw : List UInt8) {text : String}
    (htext : OneLine text) : OneLine (Columns.row p addr raw text) := by
  simp [Columns.row, Word.addressText, hp.dim, hp.reset, htext]

theorem changeLine (hp : p.OnOneLine) (f : RegisterFile) (r : Register) :
    OneLine (Trace.Printer.changeLine p f r) := by
  have hequals : OneLine " = " := by decide
  have hopen : OneLine " (" := by decide
  have hclose : OneLine ")" := by decide
  have hvalue : OneLine (p.paint p.green (f.get r).addressText) :=
    paint hp hp.green (hex _ _)
  unfold Trace.Printer.changeLine Columns.subline
  split <;> simp [hequals, hopen, hclose, hvalue]

end OneLine

namespace RegisterFile

/-- The line with which a report of registers starts. -/
def reportHeader : String := "Registers:"

/-- The lines of a report are on one line each, and only the first is its header. -/
theorem reportLines_eq (f : RegisterFile) :
    ∃ lines, f.reportLines = reportHeader :: lines ∧
      ∀ line ∈ lines, OneLine line ∧ line ≠ reportHeader := by
  refine ⟨_, rfl, fun line hline => ?_⟩
  obtain ⟨r, -, rfl⟩ := List.mem_map.mp hline
  have hname : ∀ r ∈ Register.all, OneLine
      (String.ofList ((r.name.toList.map Char.toUpper).rightpad nameWidth ' ')) := by
    decide
  have htab : OneLine "\t" := by decide
  have hequals : OneLine " = " := by decide
  refine ⟨?_, fun heq => ?_⟩
  · exact ((htab.append (hname r (Register.mem_all r))).append hequals).append (OneLine.hex _ _)
  · have hhead := congrArg (fun line : String => line.toList.head?) heq
    simp [reportLine, reportHeader] at hhead

end RegisterFile

namespace Trace

/-- A line of a trace that is not one of its report. -/
structure Plain (line : String) : Prop where
  oneLine : OneLine line
  /-- It does not start a report. -/
  noReport : line ≠ RegisterFile.reportHeader

instance (line : String) : Decidable (Plain line) :=
  decidable_of_iff (OneLine line ∧ line ≠ RegisterFile.reportHeader)
    ⟨fun h => ⟨h.1, h.2⟩, fun h => ⟨h.1, h.2⟩⟩

theorem Plain.of_head? {line : String} {c : Char} (hline : OneLine line)
    (hhead : line.toList.head? = some c) (hc : c ≠ 'R') : Plain line where
  oneLine := hline
  noReport := by
    rintro rfl
    exact hc (Option.some.inj hhead).symm

theorem plain_row {p : Palette} (hp : p.OnOneLine) (addr : Word) (raw : List UInt8)
    {text : String} (htext : OneLine text) : Plain (Columns.row p addr raw text) := by
  refine .of_head? (c := ' ') (OneLine.row hp addr raw htext) ?_ (by decide)
  simp [Columns.row, Columns.spaces, Columns.indent]

theorem plain_changeLine {p : Palette} (hp : p.OnOneLine) (f : RegisterFile) (r : Register) :
    Plain (Printer.changeLine p f r) := by
  refine .of_head? (c := ' ') (OneLine.changeLine hp f r) ?_ (by decide)
  have hspaces : (Columns.spaces Columns.content).toList.head? = some ' ' := by decide
  have hfront : ∀ text, (Columns.subline text).toList.head? = some ' ' := by
    intro text
    rw [Columns.subline, String.toList_append, List.head?_append, hspaces]
    rfl
  unfold Printer.changeLine
  split <;> exact hfront _

/-- **Every line of a trace is on one line, and before the report none looks like its
start.** -/
theorem plain_lines {printer : Printer} (hp : printer.palette.OnOneLine) {event : Event}
    (hevent : ∀ registers, event ≠ .halt registers) :
    ∀ line ∈ printer.lines event, Plain line := by
  have htabbed : ∀ {text}, OneLine text → text.toList.head? = some '\t' → Plain text :=
    fun hline hhead => .of_head? hline hhead (by decide)
  intro line hline
  cases event with
  | configure kind imageLength ramMib =>
      simp only [Printer.lines, List.mem_cons, List.not_mem_nil, or_false] at hline
      rcases hline with rfl | rfl | rfl | rfl
      · decide
      · exact htabbed (.append (.append (by decide) (.decimal _)) (by decide)) (by simp)
      · exact htabbed (.append (.append (by decide) (.decimal _)) (by decide)) (by simp)
      · cases kind
        decide
  | initMemory length =>
      simp only [Printer.lines, List.mem_cons, List.not_mem_nil, or_false] at hline
      rcases hline with rfl | rfl
      · decide
      · exact htabbed (.append (.append (by decide) (.hex _ _)) (by decide)) (by simp)
  | initRegisters _ | loadProgram _ | start =>
      obtain rfl := List.mem_singleton.mp hline
      decide
  | instruction addr raw i registers =>
      obtain rfl := List.mem_singleton.mp hline
      exact plain_row hp addr raw (OneLine.render hp i (by simp))
  | syscall id registers =>
      obtain rfl := List.mem_singleton.mp hline
      refine plain_row hp _ _ (.append (.append ?_ (by decide)) (.decimal _))
      exact .append (.append hp.blue (by decide)) hp.reset
  | retired registers =>
      have hchange : line ∈ printer.changeLines registers := hline
      unfold Printer.changeLines at hchange
      split at hchange
      · contradiction
      · obtain ⟨r, -, rfl⟩ := List.mem_map.mp hchange
        exact plain_changeLine hp registers r
  | halt registers => exact absurd rfl (hevent registers)

end Trace

end RegisterMachine
