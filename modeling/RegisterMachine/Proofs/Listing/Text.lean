/-
What a listing prints.

Every line of a listing is printed as one line of text, as long as no name has a line break in
it.  What that line of text is, `PrintsAs` says in full, colours included: a header stands in
brackets, a name stands before a colon, and a row shows its address, its bytes and what they
mean, each in a column of its own.

So the lines of the text are those of the listing (`printed_linesOf`), and what is known of where
rows and names stand in a listing is known of its text.  Headers are told from all other lines
by their text alone (`printsAs_header_iff`).
-/
import RegisterMachine.Proofs.Listing.Lines
import RegisterMachine.Proofs.Trace.Lines

namespace RegisterMachine

/-! ### The text of a line -/

/-- What the bytes of a row mean: an instruction, which may show a name for its target, or a
byte that is given as such. -/
inductive Row.Means (p : Palette) (targetName? : Option String) : Row → String → Prop
  | instr {offset : Nat} {raw : List UInt8} {i : Instruction} :
      Means p targetName? ⟨offset, raw, some i⟩ (i.render p targetName?)
  | byte {offset : Nat} {b : UInt8} :
      Means p targetName? ⟨offset, [b], none⟩ (".byte " ++ Text.hex 2 b.toNat)

/-- A row is printed in columns: its address, its bytes with blanks up to seventeen characters,
and what they mean. -/
inductive Row.PrintsAs (p : Palette) (targetName? : Option String) (row : Row) : String → Prop
  | columns {shown blanks meaning : String} (hshown : shown = bytesText row.raw)
      (hblanks : blanks = String.ofList (List.replicate (17 - shown.length) ' '))
      (hmeaning : row.Means p targetName? meaning) :
      PrintsAs p targetName? row
        ("  " ++ p.dim ++ row.addr.addressText ++ p.reset ++ "  " ++
          p.dim ++ shown ++ blanks ++ p.reset ++ "  " ++ meaning)

theorem Row.PrintsAs.head? {p : Palette} {targetName? : Option String} {row : Row} {line : String}
    (h : row.PrintsAs p targetName? line) : line.toList.head? = some ' ' := by
  cases h with
  | columns _ _ _ => simp

namespace ListingLine

/-- What is printed for a line of a listing. -/
inductive PrintsAs (p : Palette) : ListingLine → String → Prop
  | blank : PrintsAs p .blank ""
  | header {name : String} : PrintsAs p (.header name) (p.blue ++ "[" ++ name ++ "]" ++ p.reset)
  | label {name : String} : PrintsAs p (.label name) (p.blue ++ name ++ p.reset ++ ":")
  | row {row : Row} {targetName? : Option String} {line : String}
      (h : row.PrintsAs p targetName? line) : PrintsAs p (.row row targetName?) line

variable {p : Palette}

theorem means_content {r : Row} (h : r.Sound) (targetName? : Option String) :
    r.Means p targetName? (content p r targetName?) := by
  cases h with
  | instr _ _ => exact .instr
  | @byte offset b =>
      have hcontent :
          content p ⟨offset, [b], none⟩ targetName? = ".byte " ++ Text.hex 2 b.toNat := by
        rw [← String.toList_inj]
        simp [content, byteText, Text.hex]
      rw [hcontent]
      exact .byte

/-- **The text of a line is what is to be printed for it.** -/
theorem printsAs_render {line : ListingLine} (h : ∀ r ∈ line.row?, r.Sound) :
    line.PrintsAs p (line.render p) := by
  cases line with
  | blank => exact .blank
  | header name => exact .header
  | label name => exact .label
  | row r targetName? => exact .row (.columns rfl rfl (means_content (h r rfl) targetName?))

/-- **A header is told from all other lines by its text.** -/
theorem printsAs_header_iff {colored : Bool} {line : ListingLine} {text name : String}
    (h : line.PrintsAs (.ofBool colored) text) :
    text = (Palette.ofBool colored).blue ++ "[" ++ name ++ "]" ++ (Palette.ofBool colored).reset ↔
      line = .header name := by
  cases h with
  | blank =>
      refine iff_of_false (fun heq => ?_) (by simp)
      have hlist := congrArg String.toList heq
      simp at hlist
  | @header name' =>
      refine ⟨fun heq => ?_, fun heq => by rw [ListingLine.header.inj heq]⟩
      have hlist := congrArg String.toList heq
      simp only [String.toList_append, List.append_assoc, List.append_cancel_left_eq] at hlist
      rw [← List.append_assoc, ← List.append_assoc, List.append_cancel_right_eq,
        List.append_cancel_right_eq] at hlist
      rw [String.toList_inj.mp hlist]
  | @label name' =>
      -- A name ends in a colon, a header in a bracket or in the code that ends a colour.
      refine iff_of_false (fun heq => ?_) (by simp)
      have hlast := congrArg (fun text => text.toList.reverse.head?) heq
      cases colored <;> simp [Palette.ofBool, Palette.on] at hlast
  | row h =>
      -- A row starts with a blank, a header with a bracket or with the code of a colour.
      refine iff_of_false (fun heq => ?_) (by simp)
      have hhead := h.head?
      rw [heq] at hhead
      cases colored <;> simp [Palette.ofBool, Palette.on] at hhead

end ListingLine

/-- What a row shows for a call or a jump: the name of its target, or else the address. -/
theorem Instr.render_transfer {i : Instruction} {target : Word}
    (h : i.branchTarget? = some target) (p : Palette) (name? : Option String) :
    i.render p name?
      = p.blue ++ i.operation.mnemonic ++ p.reset ++ " " ++ name?.getD target.addressText := by
  cases i with
  | call _ | jump _ _ =>
      obtain rfl := Option.some.inj h
      rfl
  | _ => contradiction

theorem Instr.render_branch {i : Instruction} {target : Word} (h : i.branchTarget? = some target)
    (name? : Option String) :
    i.render .off name? = i.operation.mnemonic ++ " " ++ name?.getD target.addressText := by
  rw [render_transfer h, Palette.off_blue, Palette.off_reset, String.empty_append,
    String.append_empty]

namespace OneLine

variable {p : Palette}

theorem content (hp : p.OnOneLine) (r : Row) {targetName? : Option String}
    (hname : ∀ name, targetName? = some name → OneLine name) :
    OneLine (ListingLine.content p r targetName?) := by
  unfold ListingLine.content
  split
  · exact render hp _ hname
  · refine append (by decide) (join fun text htext => ?_)
    obtain ⟨b, -, rfl⟩ := List.mem_map.mp htext
    exact newline_not_mem_byteText b

theorem label (hp : p.OnOneLine) {name : String} (hname : OneLine name) :
    OneLine (Columns.label p name) := by
  have hcolon : OneLine ":" := by decide
  simp [Columns.label, hp.blue, hp.reset, hcolon, hname]

theorem header (hp : p.OnOneLine) {name : String} (hname : OneLine name) :
    OneLine ((ListingLine.header name).render p) := by
  have hopen : OneLine "[" := by decide
  have hclose : OneLine "]" := by decide
  simp [ListingLine.render, hp.blue, hp.reset, hopen, hclose, hname]

theorem sectionLines (hp : p.OnOneLine) {offset : Nat} {line : ListingLine}
    (h : line ∈ Listing.sectionLines offset) : OneLine (line.render p) := by
  unfold Listing.sectionLines at h
  split at h
  · obtain rfl := List.mem_singleton.mp h
    exact header hp (by decide)
  · split at h
    · rcases List.mem_cons.mp h with rfl | h
      · exact (by decide : OneLine "")
      · obtain rfl := List.mem_singleton.mp h
        exact header hp (by decide)
    · contradiction

end OneLine

namespace Listing

/-- The text consists of these lines: each ends in a line break and has no other. -/
structure TextLines (t : String) (lines : List String) : Prop where
  eq_textOf : t = textOf lines
  oneLine : ∀ line ∈ lines, OneLine line

/-- A text consists of its lines in one way only. -/
theorem TextLines.unique {t : String} {lines lines' : List String} (h : TextLines t lines)
    (h' : TextLines t lines') : lines = lines' := by
  have hcut := lines_textOf h.oneLine
  rw [← h.eq_textOf, h'.eq_textOf, lines_textOf h'.oneLine, List.append_cancel_right_eq] at hcut
  exact (List.map_inj_right fun _ _ => String.toList_inj.mp).mp hcut.symm

/-- The listing is printed line by line, whether it is coloured or not: its text consists of the
texts of its lines, and each of these is what is to be printed for the line. -/
def Printed (listing : List ListingLine) : Prop :=
  ∀ colored, TextLines (text (.ofBool colored) listing)
      (listing.map (ListingLine.render (.ofBool colored))) ∧
    ∀ line ∈ listing, line.PrintsAs (.ofBool colored) (line.render (.ofBool colored))

/-- **A listing is printed line by line**, as long as no name has a line break in it. -/
theorem printed_linesOf {labels : LabelTable} {rows : List Row} (hsound : ∀ r ∈ rows, r.Sound)
    (hnames : ∀ addr name, labels.get? addr = some name → OneLine name) :
    Printed (linesOf labels rows) := by
  intro colored
  have hp := Palette.onOneLine_ofBool colored
  refine ⟨⟨?_, ?_⟩, ?_⟩
  · rw [text, textOf, List.map_map]
    rfl
  · intro piece hpiece
    obtain ⟨line, hline, rfl⟩ := List.mem_map.mp hpiece
    obtain ⟨r, -, hsection | ⟨name, hname, rfl⟩ | rfl⟩ := mem_linesOf hline
    · exact OneLine.sectionLines hp hsection
    · exact OneLine.label hp (hnames _ name hname)
    · refine OneLine.row hp r.addr r.raw (OneLine.content hp r fun name hname => ?_)
      obtain ⟨target, -, hname⟩ := Option.bind_eq_some_iff.mp hname
      exact hnames target name hname
  · intro line hline
    refine ListingLine.printsAs_render fun r hr => hsound r ?_
    rw [← filterMap_row?_linesOf labels rows]
    exact List.mem_filterMap.mpr ⟨line, hline, hr⟩

theorem printed_withLabels {labels : LabelTable} {image : List UInt8}
    (hnames : ∀ addr name, labels.get? addr = some name → OneLine name) :
    Printed (withLabels labels image) :=
  printed_linesOf (Row.tiles_sweep image).sound hnames

theorem printed_withAutoLabels {image : List UInt8} (h : image.length < UInt32.size) :
    Printed (withAutoLabels image) := by
  have hnames := names_autoLabels ((Row.tiles_sweep image).nodup_addr h)
  exact printed_withLabels fun addr name hname =>
    (hnames.nameable addr name hname).1.newline_not_mem

end Listing

end RegisterMachine
