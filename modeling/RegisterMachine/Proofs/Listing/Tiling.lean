/-
What a disassembly makes of an image.

The rows of an image are cut from it one behind the other.  That they lie side by side is what
`Tiles` says; what stands in a row is what the decoder makes of the rest of its section, which
ends at the entry point for the rows of the slot.  `Disassembly` is both together, said without
the sweep.

The text of a listing keeps the rows, one behind the other.  The lines of a row are the header of
its section, if it starts one, its name, if it has one, and a line of its own (`LinesOfRow`).  So
each of the two headers is there once if its section has any bytes.  A name of the entry point
stands above the row there, which is below the header of the code: the header is not always on
the line right above that row (`name_below_code_header`).
-/
import RegisterMachine.Proofs.Listing.Text

namespace RegisterMachine

/-! ### Rows -/

namespace Row

/-- The rows that an image is cut into. -/
structure Disassembly (image : List UInt8) (rows : List Row) : Prop where
  /-- There are finitely many, each with a byte of the image at least. -/
  count : rows.length ≤ image.length
  /-- The address of a row is the number of bytes in the rows before it. -/
  addr : ∀ before row after, rows = before ++ row :: after →
    row.addr.toNat = row.offset ∧ row.offset = (before.flatMap raw).length
  /-- The bytes of all rows are the image. -/
  bytes : rows.flatMap raw = image
  /-- A row has as many bytes as an instruction can have. -/
  size : ∀ row ∈ rows, 1 ≤ row.raw.length ∧ row.raw.length ≤ 6
  /-- No row lies on both sides of the entry point. -/
  withinSection : ∀ row ∈ rows, row.offset + row.raw.length ≤ slotSize ∨ slotSize ≤ row.offset
  /-- A row with an instruction has what is decoded from the rest of its section, and its
  bytes. -/
  decoded : ∀ row ∈ rows, ∀ i, row.instr? = some i →
    Instr.decode (sectionFrom image row.offset) = .ok i ∧ row.raw.length = i.size
  /-- A row without one is a single byte, and nothing is decoded from the rest of its section. -/
  undecoded : ∀ row ∈ rows, row.instr? = none →
    row.raw.length = 1 ∧ ∃ cause, Instr.decode (sectionFrom image row.offset) = .error cause

variable {image : List UInt8}

theorem withinSection_of_mem_sweep {row : Row} (h : row ∈ sweep image) :
    row.offset + row.raw.length ≤ slotSize ∨ slotSize ≤ row.offset := by
  rcases List.mem_append.mp h with hslot | hcode
  · have hend := (tiles_sweepFrom 0 (image.take slotSize)).offset_add_length_le hslot
    rw [List.length_take] at hend
    exact Or.inl (by omega)
  · exact Or.inr ((tiles_sweepFrom slotSize (image.drop slotSize)).offset_bounds row hcode).1

/-- **A sweep disassembles an image.** -/
theorem disassembly_sweep (h : image.length < UInt32.size) : Disassembly image (sweep image) where
  count := by
    have hle := (tiles_sweep image).length_le
    rwa [raw_sweep] at hle
  addr before row after hrows := by
    have htiles := tiles_sweep image
    rw [hrows] at htiles
    have hend := (htiles.offset_bounds row (by simp)).2
    have hoffset := htiles.offset_eq
    rw [Nat.zero_add] at hoffset
    exact ⟨toNat_addr (Nat.lt_trans hend h), hoffset⟩
  bytes := raw_sweep image
  size row hrow := by
    have hsound := (tiles_sweep image).sound row hrow
    exact ⟨hsound.length_raw_pos, hsound.length_raw_le⟩
  withinSection _ hrow := withinSection_of_mem_sweep hrow
  decoded row hrow i hi := by
    obtain ⟨hdecode, hraw⟩ := (fronts_sectionFrom hrow).decoded hi
    refine ⟨hdecode, ?_⟩
    rw [hraw, List.length_take_of_le (Instr.decode_eq_ok hdecode).1]
  undecoded row hrow hnone := by
    obtain ⟨cause, hdecode, hraw⟩ := (fronts_sectionFrom hrow).undecoded hnone
    have hpos := ((tiles_sweep image).sound row hrow).length_raw_pos
    have hle := List.length_take_le 1 (sectionFrom image row.offset)
    rw [← hraw] at hle
    exact ⟨by omega, cause, hdecode⟩

end Row

/-! ### Lists that are printed piece by piece -/

section

variable {α β : Type} {R : α → β → Prop}

theorem exists_append_of_forall₂ {xs xs' : List α} {ys : List β}
    (h : List.Forall₂ R (xs ++ xs') ys) :
    ∃ zs zs', ys = zs ++ zs' ∧ List.Forall₂ R xs zs ∧ List.Forall₂ R xs' zs' := by
  have hfront : List.Forall₂ (flip R) (ys.take xs.length) xs :=
    List.forall₂_take_append ys xs xs' h.flip
  have hback : List.Forall₂ (flip R) (ys.drop xs.length) xs' :=
    List.forall₂_drop_append ys xs xs' h.flip
  exact ⟨_, _, (List.take_append_drop _ ys).symm, hfront.flip, hback.flip⟩

theorem exists_parts_of_forall₂_flatMap {γ : Type} {f : γ → List α} {cs : List γ} {ys : List β}
    (h : List.Forall₂ R (cs.flatMap f) ys) :
    ∃ parts, ys = parts.flatten ∧ List.Forall₂ (fun c => List.Forall₂ R (f c)) cs parts := by
  induction cs generalizing ys with
  | nil =>
      cases h with
      | nil => exact ⟨[], rfl, .nil⟩
  | cons c cs ih =>
      rw [List.flatMap_cons] at h
      obtain ⟨part, rest, rfl, hpart, hrest⟩ := exists_append_of_forall₂ h
      obtain ⟨parts, rfl, hparts⟩ := ih hrest
      exact ⟨part :: parts, rfl, .cons hpart hparts⟩

/-- What only one thing is printed as stands among what is printed as often as that thing. -/
theorem count_of_forall₂ [DecidableEq α] [DecidableEq β] {xs : List α} {ys : List β} {a : α} {b : β}
    (h : List.Forall₂ R xs ys) (hiff : ∀ {x y}, R x y → (y = b ↔ x = a)) :
    ys.count b = xs.count a := by
  induction h with
  | nil => rfl
  | @cons x y xs ys hxy _ ih =>
      rw [List.count_cons, List.count_cons, ih]
      by_cases hx : x = a
      · simp [hx, (hiff hxy).mpr hx]
      · simp [hx, mt (hiff hxy).mp hx]

end

/-! ### The lines of a row -/

namespace Listing

/-- The text of a header. -/
def headerText (p : Palette) (name : String) : String :=
  p.blue ++ "[" ++ name ++ "]" ++ p.reset

/-- What is printed above the row with which a section starts. -/
inductive OpensSection (p : Palette) : Nat → List String → Prop
  | slot : OpensSection p 0 [headerText p "trampoline"]
  | code : OpensSection p slotSize ["", headerText p "code"]
  | inside {offset : Nat} (hslot : offset ≠ 0) (hcode : offset ≠ slotSize) :
      OpensSection p offset []

/-- The lines above a row that have the name of its address, if that has one. -/
def nameLines (p : Palette) (name? : Option String) : List String :=
  (name?.map fun name => p.blue ++ name ++ p.reset ++ ":").toList

/-- What is printed for a row: the header of its section if it starts one, the name of its
address if it has one, and a line of its own. -/
inductive LinesOfRow (p : Palette) (labels : LabelTable) (row : Row) : List String → Prop
  | intro {opening : List String} {line : String} (hopening : OpensSection p row.offset opening)
      (hline : row.PrintsAs p (row.branchTarget?.bind labels.get?) line) :
      LinesOfRow p labels row (opening ++ (nameLines p (labels.get? row.addr) ++ [line]))

section

variable {p : Palette} {labels : LabelTable} {row : Row}

theorem opensSection_of_printed {offset : Nat} {opening : List String}
    (h : List.Forall₂ (ListingLine.PrintsAs p) (sectionLines offset) opening) :
    OpensSection p offset opening := by
  unfold sectionLines at h
  split at h
  · next hzero =>
      obtain ⟨_, _, hheader, hnil, rfl⟩ := List.forall₂_cons_left_iff.mp h
      cases hheader
      cases hnil
      exact hzero ▸ .slot
  · next hslot =>
      split at h
      · next hcode =>
          obtain ⟨_, _, hblank, hrest, rfl⟩ := List.forall₂_cons_left_iff.mp h
          obtain ⟨_, _, hheader, hnil, rfl⟩ := List.forall₂_cons_left_iff.mp hrest
          cases hblank
          cases hheader
          cases hnil
          exact hcode ▸ .code
      · next hcode =>
          cases h
          exact .inside hslot hcode

theorem ownLines_of_printed {own : List String}
    (h : List.Forall₂ (ListingLine.PrintsAs p) (ownLines labels row) own) :
    ∃ line, row.PrintsAs p (row.branchTarget?.bind labels.get?) line ∧
      own = nameLines p (labels.get? row.addr) ++ [line] := by
  obtain ⟨names, rows, rfl, hnames, hrows⟩ := exists_append_of_forall₂ h
  obtain ⟨line, _, hrow, hnil, rfl⟩ := List.forall₂_cons_left_iff.mp hrows
  cases hnil
  cases hrow with
  | row hline =>
      refine ⟨line, hline, congrArg (· ++ [line]) ?_⟩
      cases hname : labels.get? row.addr with
      | none =>
          rw [hname] at hnames
          cases hnames
          rfl
      | some name =>
          rw [hname] at hnames
          obtain ⟨_, _, hlabel, hnil, rfl⟩ := List.forall₂_cons_left_iff.mp hnames
          cases hlabel
          cases hnil
          rfl

/-- **Every row is printed with what belongs above it.** -/
theorem linesOfRow_of_printed {part : List String}
    (h : List.Forall₂ (ListingLine.PrintsAs p) (rowLines labels row) part) :
    LinesOfRow p labels row part := by
  rw [rowLines_eq] at h
  obtain ⟨opening, own, rfl, hopening, hown⟩ := exists_append_of_forall₂ h
  obtain ⟨line, hline, rfl⟩ := ownLines_of_printed hown
  exact .intro (opensSection_of_printed hopening) hline

end

/-! ### Listings -/

variable {labels : LabelTable} {image : List UInt8}

/-- What the lines of a text show of the rows of an image, with names from a table. -/
structure PrintsRows (p : Palette) (labels : LabelTable) (image : List UInt8)
    (lines : List String) : Prop where
  /-- They are the lines of the rows, one row after another; just one of the lines of a row is
  the row's own. -/
  rows : ∃ parts, lines = parts.flatten ∧
    List.Forall₂ (LinesOfRow p labels) (Row.sweep image) parts
  /-- The header of the slot is there once if there are any bytes, and else not at all. -/
  slotHeader : lines.count (headerText p "trampoline") = if image = [] then 0 else 1
  /-- The header of the code is there once if there are bytes behind the slot, and else not
  at all. -/
  codeHeader : lines.count (headerText p "code") = if image.length ≤ slotSize then 0 else 1
  /-- It stands right before the lines of the row at the entry point, which are the name of its
  address, if that has one, and the row's own. -/
  entry : slotSize < image.length → ∃ row ∈ Row.sweep image, row.offset = slotSize ∧
    ∃ line, row.PrintsAs p (row.branchTarget?.bind labels.get?) line ∧
      headerText p "code" :: (nameLines p (labels.get? row.addr) ++ [line]) <:+: lines

/-- The text of the listing shows the rows of the image, whether it is coloured or not. -/
def ShowsRows (labels : LabelTable) (image : List UInt8) (listing : List ListingLine) : Prop :=
  ∀ colored, ∃ lines, TextLines (text (.ofBool colored) listing) lines ∧
    PrintsRows (.ofBool colored) labels image lines

theorem header_not_mem_ownLines {name : String} {rows : List Row} :
    .header name ∉ rows.flatMap (ownLines labels) := by
  intro hmem
  obtain ⟨row, -, hmem⟩ := List.mem_flatMap.mp hmem
  simp [ownLines] at hmem

theorem take_slotSize_eq_nil_iff : image.take slotSize = [] ↔ image = [] := by
  simp [slotSize]

/-- The row at the entry point is the first of the code, and its lines follow the header. -/
theorem header_above_ownLines (labels : LabelTable) (h : slotSize < image.length) :
    ∃ row ∈ Row.sweep image, row.offset = slotSize ∧
      .header "code" :: ownLines labels row <:+: withLabels labels image := by
  have hcode : image.drop slotSize ≠ [] := by
    rw [ne_eq, List.drop_eq_nil_iff]
    omega
  obtain ⟨row, rows, hrows, hoffset⟩ := Row.exists_cons_sweepFrom slotSize hcode
  refine ⟨row, ?_, hoffset, ?_⟩
  · rw [Row.sweep, hrows]
    exact List.mem_append_right _ List.mem_cons_self
  · have hopens : .header "code" :: ownLines labels row
        <:+: [.blank, .header "code"] ++ (ownLines labels row ++ rows.flatMap (ownLines labels)) :=
      ⟨[.blank], rows.flatMap (ownLines labels), by simp⟩
    rw [withLabels, linesOf_sweep, hrows, if_neg hcode, List.flatMap_cons]
    exact (hopens.trans (List.suffix_append _ _).isInfix).trans (List.suffix_append _ _).isInfix

theorem count_header (name : String) :
    (withLabels labels image).count (.header name)
      = (if image = [] then 0 else if "trampoline" = name then 1 else 0)
        + (if image.length ≤ slotSize then 0 else if "code" = name then 1 else 0) := by
  have hnone : ∀ rows : List Row, (rows.flatMap (ownLines labels)).count (.header name) = 0 :=
    fun _ => List.count_eq_zero.mpr header_not_mem_ownLines
  rw [withLabels, linesOf_sweep]
  simp only [List.count_append, hnone, take_slotSize_eq_nil_iff, List.drop_eq_nil_iff,
    Nat.zero_add, Nat.add_zero]
  refine congrArg₂ (· + ·) ?_ ?_
  · split
    · rfl
    · simp [List.count_cons]
  · split
    · rfl
    · simp [List.count_cons]

theorem printed_header_above_row {p : Palette} {lines : List String}
    (hprints : List.Forall₂ (ListingLine.PrintsAs p) (withLabels labels image) lines)
    (h : slotSize < image.length) :
    ∃ row ∈ Row.sweep image, row.offset = slotSize ∧
      ∃ line, row.PrintsAs p (row.branchTarget?.bind labels.get?) line ∧
        headerText p "code" :: (nameLines p (labels.get? row.addr) ++ [line]) <:+: lines := by
  obtain ⟨row, hrow, hoffset, before, after, hinfix⟩ := header_above_ownLines labels h
  rw [← hinfix, List.append_assoc] at hprints
  obtain ⟨front, _, rfl, -, hrest⟩ := exists_append_of_forall₂ hprints
  obtain ⟨middle, back, rfl, hmiddle, -⟩ := exists_append_of_forall₂ hrest
  obtain ⟨_, own, hheader, hown, rfl⟩ := List.forall₂_cons_left_iff.mp hmiddle
  cases hheader
  obtain ⟨line, hline, rfl⟩ := ownLines_of_printed hown
  exact ⟨row, hrow, hoffset, line, hline, front, back, by simp [headerText]⟩

/-- **A listing that is printed line by line shows the rows of its image.** -/
theorem showsRows_of_printed (h : Printed (withLabels labels image)) :
    ShowsRows labels image (withLabels labels image) := by
  intro colored
  obtain ⟨htext, hlines⟩ := h colored
  have hprints : List.Forall₂ (ListingLine.PrintsAs (.ofBool colored)) (withLabels labels image)
      ((withLabels labels image).map (ListingLine.render (.ofBool colored))) := by
    rw [List.forall₂_map_right_iff, List.forall₂_same]
    exact hlines
  have hcount : ∀ name, ((withLabels labels image).map
        (ListingLine.render (.ofBool colored))).count (headerText (.ofBool colored) name)
      = (withLabels labels image).count (.header name) :=
    fun _ => count_of_forall₂ hprints ListingLine.printsAs_header_iff
  refine ⟨_, htext, ?_, ?_, ?_, printed_header_above_row hprints⟩
  · obtain ⟨parts, hflatten, hparts⟩ := exists_parts_of_forall₂_flatMap hprints
    exact ⟨parts, hflatten, hparts.imp fun _ _ => linesOfRow_of_printed⟩
  · simp [hcount, count_header]
  · simp [hcount, count_header]

/-- **The rows of a disassembly tile the image**, and the text of the listing shows them all.

A sweep cuts every image into rows, none of which lies on both sides of the entry point.  Each
has what the decoder makes of the rest of its section, or else is a single byte from which it
makes nothing.  The text of the listing, whatever table its names are from, has a line for every
row and a header for each section that has bytes. -/
theorem rows_tile_image {image : List UInt8} (h : image.length < 2 ^ 32) :
    Row.Disassembly image (Row.sweep image) ∧
      (∀ labels : LabelTable, (∀ addr name, labels.get? addr = some name → OneLine name) →
        ShowsRows labels image (withLabels labels image)) ∧
      ShowsRows (autoLabels (Row.sweep image)) image (withAutoLabels image) :=
  ⟨Row.disassembly_sweep h, fun _ hnames => showsRows_of_printed (printed_withLabels hnames),
    showsRows_of_printed (printed_withAutoLabels h)⟩

/-- An image whose slot ends in the front of a jump, which would reach into the code, and whose
code ends in the front of another instruction. -/
theorem rows_tile_image_cutOff :
    let image : List UInt8 := [0xff, 0x1f, 5, 0, 0, 0x1d, 0x07, 0x10]
    image.length < 2 ^ 32 ∧
      Row.sweep image
        = [⟨0, [0xff], none⟩, ⟨1, [0x1f], none⟩, ⟨2, [5], none⟩, ⟨3, [0], none⟩, ⟨4, [0], none⟩,
          ⟨5, [0x1d], some .ret⟩, ⟨6, [0x07], none⟩, ⟨7, [0x10], none⟩] ∧
      TextLines (text .off (withAutoLabels image))
        ["[trampoline]",
          "  0x00000000  ff                 .byte 0xff",
          "  0x00000001  1f                 .byte 0x1f",
          "  0x00000002  05                 .byte 0x05",
          "  0x00000003  00                 .byte 0x00",
          "  0x00000004  00                 .byte 0x00",
          "",
          "[code]",
          "  0x00000005  1d                 ret",
          "  0x00000006  07                 .byte 0x07",
          "  0x00000007  10                 .byte 0x10"] ∧
      Row.Disassembly image (Row.sweep image) ∧
      ShowsRows (autoLabels (Row.sweep image)) image (withAutoLabels image) := by
  intro image
  obtain ⟨hrows, -, hshows⟩ := rows_tile_image (show image.length < 2 ^ 32 by decide)
  exact ⟨by decide, by decide +kernel, ⟨by decide +kernel, by decide⟩, hrows, hshows⟩

/-- The entry point of this image has a name, since the slot goes there.  So the header of the
code is on the line above the name, and not on the line right above the row. -/
theorem name_below_code_header :
    let image : List UInt8 := [0x1f, 5, 0, 0, 0, 0x1d]
    slotSize < image.length ∧
      TextLines (text .off (withAutoLabels image))
        ["[trampoline]",
          "  0x00000000  1f 05 00 00 00     jmp .l1",
          "",
          "[code]",
          ".l1:",
          "  0x00000005  1d                 ret"] ∧
      ∀ lines, TextLines (text .off (withAutoLabels image)) lines →
        ¬∃ row ∈ Row.sweep image, row.offset = slotSize ∧
          ∃ targetName? line, row.PrintsAs .off targetName? line ∧
            ["[code]", line] <:+: lines := by
  intro image
  have htext : TextLines (text .off (withAutoLabels image))
      ["[trampoline]", "  0x00000000  1f 05 00 00 00     jmp .l1", "", "[code]", ".l1:",
        "  0x00000005  1d                 ret"] := ⟨by decide +kernel, by decide⟩
  refine ⟨by decide, htext, fun lines hlines => ?_⟩
  rintro ⟨row, -, -, targetName?, line, hline, hinfix⟩
  obtain rfl := hlines.unique htext
  have hname : line = ".l1:" := by simpa [List.infix_cons_iff] using hinfix
  have hhead := hline.head?
  rw [hname] at hhead
  exact absurd hhead (by decide)

end Listing

end RegisterMachine
