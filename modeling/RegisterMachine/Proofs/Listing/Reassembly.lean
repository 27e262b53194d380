/-
A listing assembles to the image it was made of.

Every row of a listing becomes one statement that takes as many bytes as the row, so the
first pass gives a statement the address of its row.  A name that is shown stands above
the row it names, so it gets the address it was shown for, and the second pass puts the
standard bytes of every row where the row was.  What changes are the bits that the
decoder ignores, and since the listing does not show them, listing the new image gives
the same source again.
-/
import RegisterMachine.Proofs.Assembly.Layout
import RegisterMachine.Proofs.Listing.Source

namespace RegisterMachine.Listing

open Assembly

variable {labels : LabelTable} {rows : List Row}

/-! ### The lines of a listing -/

/-- The lines that say something are the rows' own: the label, if there is one, and the row. -/
theorem filter_isCode_linesOf (labels : LabelTable) (rows : List Row) :
    (linesOf labels rows).filter ListingLine.isCode = rows.flatMap (ownLines labels) := by
  have hsection : ∀ offset, (sectionLines offset).filter ListingLine.isCode = [] := by
    intro offset
    unfold sectionLines
    split
    · rfl
    · split <;> rfl
  have hrow : ∀ row, (rowLines labels row).filter ListingLine.isCode = ownLines labels row := by
    intro row
    rw [rowLines_eq, List.filter_append, hsection, ownLines]
    cases labels.get? row.addr <;> rfl
  rw [linesOf, List.filter_flatMap]
  simp only [hrow]

theorem readable_linesOf (hsound : ∀ row ∈ rows, row.Sound) (hnames : Names labels rows) :
    ∀ line ∈ linesOf labels rows, line.Readable := by
  intro line hline
  obtain ⟨row, hrow, hline⟩ := List.mem_flatMap.mp hline
  rw [rowLines, List.mem_append, List.mem_append] at hline
  rcases hline with (hline | hline) | hline
  · unfold sectionLines at hline
    split at hline
    · obtain rfl := List.mem_singleton.mp hline
      show '\n' ∉ "trampoline".toList
      decide
    · split at hline
      · rcases List.mem_cons.mp hline with rfl | hline
        · trivial
        · obtain rfl := List.mem_singleton.mp hline
          show '\n' ∉ "code".toList
          decide
      · contradiction
  · obtain ⟨name, hname, rfl⟩ := Option.map_eq_some_iff.mp (Option.mem_toList.mp hline)
    exact hnames.nameable _ name hname
  · obtain rfl := List.mem_singleton.mp hline
    refine ⟨hsound row hrow, fun name hname => ?_⟩
    obtain ⟨target, -, hname⟩ := Option.bind_eq_some_iff.mp hname
    exact hnames.nameable target name hname

/-! ### One row in both passes -/

/-- The labels that the listing of rows defines. -/
def definitions (labels : LabelTable) (rows : List Row) : Definitions :=
  rows.filterMap fun row => (labels.get? row.addr).map (·, row.addr)

/-- Definitions that give the names of a table the addresses they stand for. -/
def Agrees (defs : Definitions) (labels : LabelTable) : Prop :=
  ∀ addr name, labels.get? addr = some name → defs.address? name = some addr

/-- A row's statement takes as many bytes as the row, and turns into its standard bytes. -/
theorem place_statement {row : Row} (hrow : row.Sound) (defs : Definitions) (addr : Word) :
    ∃ item, (row.statement (row.branchTarget?.bind labels.get?)).place defs addr
        = .ok (item, addr + UInt32.ofNat row.raw.length) ∧
      ∀ all, Agrees all labels → item.resolve all = .ok (.bytes row.standardBytes) := by
  cases hrow with
  | @instr offset raw i hlength _ =>
      let targetName? := i.branchTarget?.bind labels.get?
      refine ⟨.instr (i.asRead targetName?), ?_, fun all hagrees => ?_⟩
      · show Statement.place defs addr (.instr i.operation (i.arguments targetName?)) = _
        rw [Statement.place, Instr.instr?_arguments]
        simp only [Instr.size_asRead, hlength]
      · refine map_eq_ok.mpr ⟨i, Instr.mapExcept_asRead fun name hname target htarget => ?_, rfl⟩
        obtain ⟨target', htarget', hname⟩ := Option.bind_eq_some_iff.mp hname
        obtain rfl := Option.some.inj (htarget.symm.trans htarget')
        exact hagrees target name hname
  | @byte offset b =>
      refine ⟨.byte (.number (UInt32.ofNat b.toNat)), rfl, fun all _ => ?_⟩
      have hlow : Word.lowByte (UInt32.ofNat b.toNat) = b := by
        rw [Word.lowByte, Word.toNat_ofByte, UInt8.ofNat_toNat]
      have hsmall : (UInt32.ofNat b.toNat).toNat < 0x100 := by
        rw [Word.toNat_ofByte]
        exact b.toNat_lt
      show (if (UInt32.ofNat b.toNat).toNat < 0x100
        then Except.ok (Piece.bytes [Word.lowByte (UInt32.ofNat b.toNat)]) else _) = _
      rw [if_pos hsmall, hlow]
      rfl

/-- Lines that the first pass places between two offsets and the second turns into the
standard bytes of rows. -/
def Yield (labels : LabelTable) (defs : Definitions) (start : Nat) (lines : List (Line × Nat))
    (rows : List Row) (after : Definitions) (stop : Nat) : Prop :=
  ∃ items, Layout.ofLines defs (UInt32.ofNat start) lines = .ok ⟨after, items, UInt32.ofNat stop⟩ ∧
    ∀ all, Agrees all labels →
      items.mapM (fun placed => onLine placed.line (placed.item.resolve all))
        = .ok (rows.map fun row => .bytes row.standardBytes)

namespace Yield

variable {defs after : Definitions} {lines : List (Line × Nat)} {start stop : Nat}

theorem label {name : String} {k : Nat} (hnew : defs.address? name = none)
    (h : Yield labels (defs ++ [(name, UInt32.ofNat start)]) start lines rows after stop) :
    Yield labels defs start (((ListingLine.label name).asRead, k) :: lines) rows after stop := by
  obtain ⟨items, hfirst, hsecond⟩ := h
  exact ⟨items, (Layout.ofLines_label hnew).trans hfirst, hsecond⟩

/-- **One row, both passes.** -/
theorem row {row : Row} {k : Nat} (hrow : row.Sound)
    (h : Yield labels defs (row.offset + row.raw.length) lines rows after stop) :
    Yield labels defs row.offset
      (((ListingLine.row row (row.branchTarget?.bind labels.get?)).asRead, k) :: lines)
      (row :: rows) after stop := by
  obtain ⟨items, hfirst, hsecond⟩ := h
  obtain ⟨item, hplace, hresolve⟩ := place_statement hrow defs (UInt32.ofNat row.offset)
  rw [← UInt32.ofNat_add] at hplace
  refine ⟨⟨k, UInt32.ofNat row.offset, item⟩ :: items, Layout.ofLines_statement hplace hfirst, ?_⟩
  intro all hagrees
  have hpiece : onLine k (item.resolve all) = .ok (.bytes row.standardBytes) :=
    onLine_eq_ok.mpr (hresolve all hagrees)
  exact mapM_cons_eq_ok.mpr ⟨_, _, hpiece, hsecond all hagrees, rfl⟩

end Yield

/-! ### All rows -/

theorem ofLines_blanks {trailing : List Line} (h : ∀ line ∈ trailing, line = Line.blank)
    (defs : Definitions) (addr : Word) (k : Nat) :
    Layout.ofLines defs addr (trailing.zipIdx k) = .ok ⟨defs, [], addr⟩ := by
  induction trailing generalizing k with
  | nil => rfl
  | cons line trailing ih =>
      obtain rfl := h line List.mem_cons_self
      exact ih (fun line hline => h line (List.mem_cons_of_mem _ hline)) (k + 1)

/-- **All rows, both passes.**  The listing of rows that lie between two offsets defines their
labels and yields their standard bytes, whatever blank lines stand behind it. -/
theorem yield_code {start stop k : Nat} {defs : Definitions} {trailing : List Line}
    (htrailing : ∀ line ∈ trailing, line = Line.blank) (h : Row.Tiles start rows stop)
    (hdistinct : (defs ++ definitions labels rows).Distinct) :
    Yield labels defs start
      (((rows.flatMap (ownLines labels)).map ListingLine.asRead ++ trailing).zipIdx k)
      rows (defs ++ definitions labels rows) stop := by
  induction h generalizing defs k with
  | nil =>
      refine ⟨[], ?_, fun _ _ => rfl⟩
      show Layout.ofLines defs _ (trailing.zipIdx k) = _
      rw [ofLines_blanks htrailing, definitions, List.filterMap_nil, List.append_nil]
  | @cons row rows stop hrow hrest ih =>
      cases hlabel : labels.get? row.addr with
      | none =>
          have hcode : ownLines labels row = [.row row (row.branchTarget?.bind labels.get?)] := by
            rw [ownLines, hlabel]
            rfl
          have hdefs : definitions labels (row :: rows) = definitions labels rows := by
            rw [definitions, List.filterMap_cons, hlabel]
            rfl
          rw [hdefs] at hdistinct ⊢
          rw [List.flatMap_cons, hcode]
          exact (ih hdistinct).row hrow
      | some name =>
          have hcode : ownLines labels row
              = [.label name, .row row (row.branchTarget?.bind labels.get?)] := by
            rw [ownLines, hlabel]
            rfl
          have hdefs : defs ++ definitions labels (row :: rows)
              = (defs ++ [(name, row.addr)]) ++ definitions labels rows := by
            rw [definitions, List.filterMap_cons, hlabel, List.append_assoc]
            rfl
          rw [hdefs] at hdistinct ⊢
          rw [List.flatMap_cons, hcode]
          exact ((ih hdistinct).row hrow).label (Definitions.address?_of_distinct hdistinct)

theorem emitAll_standardBytes (offset : Nat) (rows : List Row) :
    Piece.emitAll offset (rows.map fun row => .bytes row.standardBytes)
      = rows.flatMap Row.standardBytes := by
  induction rows generalizing offset with
  | nil => rfl
  | cons row rows ih =>
      rw [List.map_cons, Piece.emitAll, ih, List.flatMap_cons]
      rfl

/-! ### The labels -/

theorem map_fst_definitions (labels : LabelTable) (rows : List Row) :
    (definitions labels rows).map Prod.fst = (rows.map Row.addr).filterMap labels.get? := by
  have hfst : ∀ row : Row, ((labels.get? row.addr).map (·, row.addr)).map Prod.fst
      = labels.get? row.addr := by
    intro row
    cases labels.get? row.addr <;> rfl
  rw [definitions, List.map_filterMap, List.filterMap_map]
  simp only [hfst]
  rfl

theorem distinct_definitions (hnames : Names labels rows) (hnodup : (rows.map Row.addr).Nodup) :
    (definitions labels rows).Distinct := by
  rw [Definitions.Distinct, map_fst_definitions]
  exact hnodup.filterMap hnames.inj

theorem mem_definitions (hnames : Names labels rows) {addr : Word} {name : String} :
    (name, addr) ∈ definitions labels rows ↔ labels.get? addr = some name := by
  rw [definitions, List.mem_filterMap]
  constructor
  · rintro ⟨row, -, hrow⟩
    obtain ⟨name', hname, heq⟩ := Option.map_eq_some_iff.mp hrow
    obtain ⟨rfl, rfl⟩ := Prod.mk.inj heq
    exact hname
  · intro h
    obtain ⟨row, hrow, rfl⟩ := List.mem_map.mp (hnames.start addr name h)
    exact ⟨row, hrow, by rw [h]; rfl⟩

theorem agrees_definitions (hnames : Names labels rows)
    (hdistinct : (definitions labels rows).Distinct) : Agrees (definitions labels rows) labels :=
  fun _ _ h => Definitions.address?_of_mem hdistinct ((mem_definitions hnames).mpr h)

theorem labelTable_definitions {items : List Placed} {stop : Word} (hnames : Names labels rows) :
    Layout.labelTable ⟨definitions labels rows, items, stop⟩ = labels := by
  refine WordMap.ext_get? fun addr => ?_
  rw [Layout.get?_labelTable]
  cases hget : labels.get? addr with
  | none =>
      have hnone : (definitions labels rows).find? (fun entry => entry.2 = addr) = none := by
        rw [List.find?_eq_none]
        rintro ⟨name, addr'⟩ hmem heq
        obtain rfl : addr' = addr := by simpa using heq
        rw [(mem_definitions hnames).mp hmem] at hget
        contradiction
      rw [hnone]
      rfl
  | some name =>
      have hsome : ((definitions labels rows).find? fun entry => entry.2 = addr).isSome = true := by
        rw [List.find?_isSome]
        exact ⟨(name, addr), (mem_definitions hnames).mpr hget, by simp⟩
      obtain ⟨⟨name', addr'⟩, hfind⟩ := Option.isSome_iff_exists.mp hsome
      obtain rfl : addr' = addr := by simpa using List.find?_some hfind
      have hget' := (mem_definitions hnames).mp (List.mem_of_find?_eq_some hfind)
      rw [hfind, ← hget, hget']
      rfl

/-! ### The image -/

/-- **A source that reads as a listing assembles to the standard bytes of the rows**, whatever
blank lines stand behind it. -/
theorem assemble_code {input : String} {stop : Nat} {trailing : List Line}
    (hlines : parseLines input
      = .ok (((rows.flatMap (ownLines labels)).map ListingLine.asRead ++ trailing).zipIdx 1))
    (htrailing : ∀ line ∈ trailing, line = Line.blank) (htiles : Row.Tiles 0 rows stop)
    (hnames : Names labels rows) (hdistinct : (definitions labels rows).Distinct) :
    assemble input = .ok ⟨rows.flatMap Row.standardBytes, labels⟩ := by
  have hall : Definitions.Distinct ([] ++ definitions labels rows) := hdistinct
  obtain ⟨items, hfirst, hsecond⟩ := yield_code (k := 1) htrailing htiles hall
  have hpieces := hsecond _ (agrees_definitions hnames hdistinct)
  refine assembleBehind_eq_ok.mpr ⟨_, _, _, hlines, hfirst, hpieces, ?_⟩
  rw [emitAll_standardBytes, List.nil_append, List.nil_append, labelTable_definitions hnames]

/-- **A listing assembles to the standard bytes of its rows.**  Its names may be made up or
given, as long as they can be defined. -/
theorem assemble_source {stop : Nat} (htiles : Row.Tiles 0 rows stop) (hnames : Names labels rows)
    (hnodup : (rows.map Row.addr).Nodup) :
    assemble (source (text .off (linesOf labels rows)))
      = .ok ⟨rows.flatMap Row.standardBytes, labels⟩ := by
  have hlines := parseLines_source_text (readable_linesOf htiles.sound hnames)
  rw [filter_isCode_linesOf] at hlines
  exact assemble_code hlines (List.forall_mem_singleton.mpr rfl) htiles hnames
    (distinct_definitions hnames hnodup)

theorem map_code_standard (labels : LabelTable) (rows : List Row) :
    ((rows.map Row.standard).flatMap (ownLines labels)).map ListingLine.code
      = (rows.flatMap (ownLines labels)).map ListingLine.code := by
  have hcontent : ∀ (row : Row) targetName?,
      ListingLine.content .off row.standard targetName?
        = ListingLine.content .off row targetName? := by
    intro row targetName?
    cases h : row.instr? <;> simp [ListingLine.content, Row.standard, Row.standardBytes, h]
  have hrow : ∀ row : Row, (ownLines labels row.standard).map ListingLine.code
      = (ownLines labels row).map ListingLine.code := by
    intro row
    rw [ownLines, ownLines, List.map_append, List.map_append]
    refine congrArg₂ _ rfl ?_
    show [(ListingLine.content .off row.standard _).toList] = [_]
    rw [hcontent]
    rfl
  rw [List.flatMap_map, List.map_flatMap, List.map_flatMap]
  simp only [hrow]

/-- An image and what its listing assembles to. -/
structure Reassembled (image : List UInt8) (a : Assembled) : Prop where
  /-- The rows of the old image are instructions and single bytes, one after another. -/
  rows : Row.Tiles 0 (Row.sweep image) image.length
  /-- The new image holds, row by row, the encoding of the instruction or the byte that starts
  none. -/
  bytes : a.bytes = (Row.sweep image).flatMap Row.standardBytes
  length : a.bytes.length = image.length
  /-- Every byte has its ignored bits. -/
  mask : ((Row.sweep image).flatMap Row.ignoredBits).length = image.length
  /-- The new image is the old one but for the ignored bits. -/
  bits : setBits ((Row.sweep image).flatMap Row.ignoredBits) a.bytes
    = setBits ((Row.sweep image).flatMap Row.ignoredBits) image
  /-- Its labels are the names that were made up. -/
  labels : a.labels = autoLabels (Row.sweep image)
  /-- Its listing says the same. -/
  listing : source (text .off (withAutoLabels a.bytes)) = source (text .off (withAutoLabels image))

theorem source_withAutoLabels {image : List UInt8} (h : image.length < UInt32.size) :
    source (text .off (withAutoLabels image))
      = String.ofList ((((Row.sweep image).flatMap (ownLines (autoLabels (Row.sweep image)))).map
          ListingLine.code).flatMap (· ++ ['\n'])) := by
  have htiles := Row.tiles_sweep image
  rw [withAutoLabels, source_text
    (readable_linesOf htiles.sound (names_autoLabels (htiles.nodup_addr h))), filter_isCode_linesOf]

/-- **Disassembling and assembling again.** -/
theorem reassembled_of_length {image : List UInt8} (h : image.length < UInt32.size) :
    ∃ a, assemble (source (text .off (withAutoLabels image))) = .ok a ∧ Reassembled image a := by
  have htiles := Row.tiles_sweep image
  have hnodup := htiles.nodup_addr h
  have hlength : ((Row.sweep image).flatMap Row.standardBytes).length = image.length := by
    rw [Row.length_flatMap_standardBytes htiles.sound, Row.raw_sweep]
  refine ⟨⟨(Row.sweep image).flatMap Row.standardBytes, autoLabels (Row.sweep image)⟩,
    assemble_source htiles (names_autoLabels hnodup) hnodup, htiles, rfl, hlength, ?_, ?_, rfl, ?_⟩
  · rw [Row.length_flatMap_ignoredBits htiles.sound, Row.raw_sweep]
  · have hbits := Row.setBits_flatMap_standardBytes htiles.sound
    rwa [Row.raw_sweep] at hbits
  · rw [source_withAutoLabels h, source_withAutoLabels (hlength ▸ h), Row.sweep_standardBytes,
      autoLabels_map_standard, map_code_standard]

/-- An image whose slot jumps with the selector clear and whose code starts with a register
that has ignored bits set, followed by a byte that starts no instruction and by the front
of an instruction that is cut off. -/
theorem reassembled_damaged_image :
    [30, 5, 0, 0, 0, 22, 0x37, 0xff, 7, 0x10].length < UInt32.size ∧
      ∃ a, assemble (source (text .off
          (withAutoLabels [30, 5, 0, 0, 0, 22, 0x37, 0xff, 7, 0x10]))) = .ok a ∧
        Reassembled [30, 5, 0, 0, 0, 22, 0x37, 0xff, 7, 0x10] a :=
  ⟨by decide, reassembled_of_length (by decide)⟩

end RegisterMachine.Listing
