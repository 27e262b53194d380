/-
The source in a listing.

Without its headers and without the columns in front of the content, a listing is
assembly source.  `source` takes that out of the text of a listing and looks at nothing
but characters: a blank line and a line that starts with a bracket are dropped, a line
that starts with a space loses its first thirty-three characters, and other lines, which
define labels, stay.

That it finds what the listing was made of rests on the width of the columns: an address
takes ten characters and the bytes of a row, of which there are at most six, seventeen.
-/
import RegisterMachine.Proofs.Assembly.Instruction
import RegisterMachine.Proofs.HexText
import RegisterMachine.Proofs.Listing.Labels
import RegisterMachine.Proofs.Listing.Text

namespace RegisterMachine

open Assembly

/-! ### The columns in front of the content -/

namespace Columns

/-- The columns in front of the content of a row. -/
def lead (addr : Word) (raw : List UInt8) : List Char :=
  List.replicate indent ' ' ++ addr.addressText.toList ++ List.replicate gap ' ' ++
    (bytesText raw).toList ++ List.replicate (bytes - (bytesText raw).length) ' ' ++
    List.replicate gap ' '

theorem toList_row (addr : Word) (raw : List UInt8) (text : String) :
    (row .off addr raw text).toList = lead addr raw ++ text.toList := by
  simp [row, lead, spaces]

theorem length_addressText (addr : Word) : addr.addressText.length = address := by
  rw [Word.addressText, ← String.length_toList, toList_hex, List.length_cons, List.length_cons,
    Text.length_hexDigits (by decide) addr.toNat_lt]
  rfl

/-- Two digits for every byte and a space between any two. -/
theorem length_bytesText (b : UInt8) (raw : List UInt8) :
    (bytesText (b :: raw)).length = 2 + 3 * raw.length := by
  rw [← String.length_toList, toList_bytesText]
  induction raw generalizing b with
  | nil =>
      rw [List.map_singleton, List.intercalate_singleton]
      exact length_byteText b
  | cons next raw ih =>
      have hrest := ih next
      rw [List.map_cons] at hrest
      rw [List.map_cons, List.map_cons, List.intercalate_cons_cons, List.length_append,
        List.length_append, hrest, length_byteText, List.length_singleton, List.length_cons]
      omega

/-- **The content of a row starts at its column.** -/
theorem length_lead (addr : Word) {raw : List UInt8} (h : raw.length ≤ 6) :
    (lead addr raw).length = content := by
  have hfits : (bytesText raw).length ≤ bytes := by
    unfold bytes
    cases raw with
    | nil => simp [bytesText]
    | cons b raw =>
        rw [List.length_cons] at h
        rw [length_bytesText]
        omega
  simp only [lead, List.length_append, List.length_replicate, String.length_toList,
    length_addressText, content]
  omega

end Columns

/-! ### What a row says -/

theorem Word.toNat_ofByte (b : UInt8) : (UInt32.ofNat b.toNat).toNat = b.toNat :=
  UInt32.toNat_ofNat_of_lt' (Nat.lt_trans b.toNat_lt (by decide))

/-- The row's content as an assembler reads it. -/
def Row.statement (row : Row) (targetName? : Option String) : Statement :=
  match row.instr? with
  | some i => .instr i.operation (i.arguments targetName?)
  | none => .directive .byte (.number (UInt32.ofNat (row.raw.headD 0).toNat))

namespace ListingLine

theorem toList_content_byte (offset : Nat) (b : UInt8) (targetName? : Option String) :
    (content .off ⟨offset, [b], none⟩ targetName?).toList
      = written ['.', 'b', 'y', 't', 'e'] [(Text.hex 2 b.toNat).toList] := by
  rw [toList_hex]
  simp [content, byteText, written]

variable {r : Row} {targetName? : Option String}

/-- **The content of a row is read back.** -/
theorem parse_content (hrow : r.Sound)
    (hname : ∀ name, targetName? = some name → Nameable name) :
    Line.parse (content .off r targetName?).toList
      = .ok ⟨[], some (r.statement targetName?)⟩ := by
  cases hrow with
  | @instr offset raw i _ _ =>
      exact Instr.parse_render hname
  | @byte offset b =>
      have hname : Directive.ofName? ['b', 'y', 't', 'e'] = some .byte := by decide
      have hvalue : Value.parse (Text.hex 2 b.toNat).toList
          = .ok (.number (UInt32.ofNat b.toNat)) := by
        have hread := Value.parse_hex 2 (UInt32.ofNat b.toNat)
        rwa [Word.toNat_ofByte] at hread
      rw [toList_content_byte, Line.parse_written (by decide) (by simpa using token_hex 2 b.toNat),
        Statement.parse_directive (writtenAs_written _ _) (by decide) (token_hex 2 b.toNat).phrase
          hname hvalue]
      rfl

/-! ### What a line says -/

/-- Whether the line is part of the source: it is no blank line and no header. -/
def isCode : ListingLine → Bool
  | label _ | row .. => true
  | _ => false

/-- What the line says. -/
def code : ListingLine → List Char
  | label name => name.toList ++ [':']
  | row r targetName? => (content .off r targetName?).toList
  | _ => []

/-- The line as an assembler reads it. -/
def asRead : ListingLine → Line
  | label name => ⟨[name], none⟩
  | row r targetName? => ⟨[], some (r.statement targetName?)⟩
  | _ => Line.blank

/-- A line that can be told apart from others and read back. -/
def Readable : ListingLine → Prop
  | blank => True
  | header name => '\n' ∉ name.toList
  | label name => Nameable name
  | row r targetName? => r.Sound ∧ ∀ name, targetName? = some name → Nameable name

theorem toList_render_label (name : String) :
    ((label name).render .off).toList = name.toList ++ [':'] := by
  simp [render, Columns.label]

theorem toList_render_header (name : String) :
    ((header name).render .off).toList = '[' :: (name.toList ++ [']']) := by
  simp [render]

variable {line : ListingLine}

theorem oneLine_content (h : (row r targetName?).Readable) :
    OneLine (content .off r targetName?) :=
  OneLine.content Palette.onOneLine_off r fun name hname =>
    (h.2 name hname).1.newline_not_mem

theorem newline_not_mem_code (h : line.Readable) : '\n' ∉ line.code := by
  cases line with
  | label name =>
      have := h.1.newline_not_mem
      simp [code, this]
  | row r targetName? => exact oneLine_content h
  | blank | header => simp [code]

theorem newline_not_mem_render (h : line.Readable) : '\n' ∉ (line.render .off).toList := by
  have hp := Palette.onOneLine_off
  cases line with
  | blank => simp [render]
  | header name => exact OneLine.header hp h
  | label name => exact OneLine.label hp h.1.newline_not_mem
  | row r targetName? => exact OneLine.row hp r.addr r.raw (oneLine_content h)

/-- **What a line says is read back.** -/
theorem parse_code (h : line.Readable) : Line.parse line.code = .ok line.asRead := by
  cases line with
  | label name =>
      have hread := Line.parse_label h.2
      rwa [String.ofList_toList] at hread
  | row r targetName? => exact parse_content h.1 h.2
  | blank | header => exact Line.parse_nil

end ListingLine

namespace Listing

/-- What a line of a listing contributes to the source, by its first character: nothing
if it is blank or a header, and what stands behind the columns if it is a row. -/
def sourceLine? : List Char → Option (List Char)
  | [] => none
  | c :: rest =>
    if c = '[' then none
    else if c = ' ' then some ((c :: rest).drop Columns.content)
    else some (c :: rest)

/-- The source in the text of a listing. -/
def source (text : String) : String :=
  String.ofList (((Text.lines text.toList).filterMap sourceLine?).flatMap (· ++ ['\n']))

theorem sourceLine?_render {line : ListingLine} (h : line.Readable) :
    sourceLine? (line.render .off).toList = if line.isCode then some line.code else none := by
  cases line with
  | blank => rfl
  | header name =>
      rw [ListingLine.toList_render_header]
      rfl
  | label name =>
      obtain ⟨c, rest, hname⟩ := List.exists_cons_of_ne_nil h.1.1
      have hlabel := h.2
      rw [hname, isLabelName, isName, Bool.and_eq_true, Bool.and_eq_true] at hlabel
      have hbracket : c ≠ '[' := by
        rintro rfl
        exact absurd hlabel.1.1 (by decide)
      have hspace : c ≠ ' ' := by
        rintro rfl
        exact absurd hlabel.1.1 (by decide)
      show _ = some (name.toList ++ [':'])
      rw [ListingLine.toList_render_label, hname, List.cons_append, sourceLine?, if_neg hbracket,
        if_neg hspace]
  | row r targetName? =>
      have hdrop : (Columns.lead r.addr r.raw
          ++ (ListingLine.content .off r targetName?).toList).drop Columns.content
            = (ListingLine.content .off r targetName?).toList :=
        List.drop_left' (Columns.length_lead r.addr h.1.length_raw_le)
      rw [ListingLine.render, Columns.toList_row]
      exact congrArg some hdrop

example : sourceLine? "  0x00000005  16 37              push r3".toList
    = some "push r3".toList := by
  decide

theorem toList_text (listing : List ListingLine) :
    (text .off listing).toList
      = (listing.map fun line => (line.render .off).toList).flatMap (· ++ ['\n']) :=
  Text.toList_join_lines listing (ListingLine.render .off)

/-- **The source in a listing is what its lines say.** -/
theorem source_text {listing : List ListingLine} (h : ∀ line ∈ listing, line.Readable) :
    source (text .off listing)
      = String.ofList (((listing.filter ListingLine.isCode).map ListingLine.code).flatMap
          (· ++ ['\n'])) := by
  have hlines : Text.lines (text .off listing).toList
      = (listing.map fun line => (line.render .off).toList) ++ [[]] := by
    rw [toList_text]
    refine Text.lines_flatMap fun piece hpiece => ?_
    obtain ⟨line, hline, rfl⟩ := List.mem_map.mp hpiece
    exact ListingLine.newline_not_mem_render (h line hline)
  have hcode : (listing.map fun line => (line.render .off).toList).filterMap sourceLine?
      = (listing.filter ListingLine.isCode).map ListingLine.code := by
    rw [List.filterMap_map, ← List.filterMap_eq_map, List.filterMap_filter]
    exact List.filterMap_congr fun line hline => sourceLine?_render (h line hline)
  have hlast : [[]].filterMap sourceLine? = [] := rfl
  rw [source, hlines, List.filterMap_append, hcode, hlast, List.append_nil]

/-- **The source in a listing is read line by line.** -/
theorem parseLines_source_text {listing : List ListingLine} (h : ∀ line ∈ listing, line.Readable) :
    parseLines (source (text .off listing))
      = .ok (((listing.filter ListingLine.isCode).map ListingLine.asRead
          ++ [Line.blank]).zipIdx 1) := by
  rw [source_text h]
  refine parseLines_flatMap (fun line hline => ?_) fun line hline => ?_
  · exact ListingLine.newline_not_mem_code (h line (List.mem_filter.mp hline).1)
  · exact ListingLine.parse_code (h line (List.mem_filter.mp hline).1)

end Listing

end RegisterMachine
