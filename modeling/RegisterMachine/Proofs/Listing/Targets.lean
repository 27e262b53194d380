/-
The names that a listing makes up are exact.

Of the rows of an image those are named that hold an instruction to which some row calls or
jumps (`namedRows`).  Where a name is printed is then a matter of the table alone: above its row
and in every row that goes there.  A target inside an instruction, at a byte that starts none or
outside the image is the address of no such row, so it is printed as a number.

Rows come in the order of their addresses and are named along the way, so the names come in the
order of their numbers.
-/
import Mathlib.Data.List.Nodup
import RegisterMachine.Proofs.Listing.Text

namespace RegisterMachine.Listing

variable {rows : List Row} {row : Row}

/-! ### The rows that are named -/

/-- The rows with an instruction to which some row calls or jumps. -/
def namedRows (rows : List Row) : List Row :=
  rows.filter fun row => row.instr?.isSome && (rows.filterMap Row.branchTarget?).contains row.addr

theorem branchedTo_eq_map (rows : List Row) : branchedTo rows = (namedRows rows).map Row.addr :=
  rfl

theorem mem_namedRows :
    row ∈ namedRows rows ↔
      row ∈ rows ∧ row.instr?.isSome ∧ ∃ other ∈ rows, other.branchTarget? = some row.addr := by
  simp [namedRows, List.mem_filterMap]

theorem exists_get?_autoLabels_iff (hnodup : (rows.map Row.addr).Nodup) {a : Word} :
    (∃ name, (autoLabels rows).get? a = some name) ↔ ∃ row ∈ namedRows rows, row.addr = a := by
  rw [← List.mem_map, ← branchedTo_eq_map]
  simp only [get?_autoLabels_eq_some_iff hnodup, List.mem_iff_getElem?]
  constructor
  · rintro ⟨_, k, hk, -⟩
    exact ⟨k, hk⟩
  · rintro ⟨k, hk⟩
    exact ⟨_, k, hk, rfl⟩

/-- No two rows have one address, so the name of an address is that of its row. -/
theorem exists_get?_addr_iff (hnodup : (rows.map Row.addr).Nodup) (hrow : row ∈ rows) :
    (∃ name, (autoLabels rows).get? row.addr = some name) ↔ row ∈ namedRows rows := by
  rw [exists_get?_autoLabels_iff hnodup]
  refine ⟨?_, fun hnamed => ⟨row, hnamed, rfl⟩⟩
  rintro ⟨same, hsame, haddr⟩
  exact List.inj_on_of_nodup_map hnodup (mem_namedRows.mp hsame).1 hrow haddr ▸ hsame

theorem get?_addr_of_getElem? (hnodup : (rows.map Row.addr).Nodup) {k : Nat}
    (h : (namedRows rows)[k]? = some row) :
    (autoLabels rows).get? row.addr = some (autoName (k + 1)) := by
  refine (get?_autoLabels_eq_some_iff hnodup).mpr ⟨k, ?_, rfl⟩
  rw [branchedTo_eq_map, List.getElem?_map, h]
  rfl

/-- **The names of the rows are all the numbered ones**, in order. -/
theorem filterMap_get?_autoLabels (hnodup : (rows.map Row.addr).Nodup) :
    (rows.filterMap fun row => (autoLabels rows).get? row.addr)
      = (List.range' 1 (namedRows rows).length).map autoName := by
  have hnamed : (rows.filterMap fun row => (autoLabels rows).get? row.addr)
      = (branchedTo rows).filterMap (autoLabels rows).get? := by
    rw [branchedTo_eq_map, List.filterMap_map, namedRows, List.filterMap_filter]
    refine List.filterMap_congr fun row hrow => ?_
    split
    · rfl
    · next hnot =>
        refine Option.eq_none_iff_forall_ne_some.mpr fun name hname => hnot ?_
        have hmem := (exists_get?_addr_iff hnodup hrow).mp ⟨name, hname⟩
        exact (List.mem_filter.mp hmem).2
  rw [hnamed, autoLabels_eq_number, filterMap_get?_number (nodup_branchedTo hnodup),
    branchedTo_eq_map, List.length_map]

/-! ### Where a listing prints them -/

/-- What a call or a jump prints for its target. -/
structure ShowsTarget (image : List UInt8) (listing : List ListingLine) (row : Row)
    (i : Instruction) (target : Word) (targetName? : Option String) : Prop where
  /-- It is a name exactly if an instruction was decoded at the target. -/
  named_iff : targetName?.isSome ↔
    ∃ other ∈ Row.sweep image, other.addr = target ∧ other.instr?.isSome
  /-- It is the name above the row of that instruction. -/
  above : ∀ other ∈ Row.sweep image, other.addr = target → other.instr?.isSome →
    ∃ name otherName?, targetName? = some name ∧
      [.label name, .row other otherName?] <:+: listing
  /-- Without a name, it is the address. -/
  shown : ∀ p, (ListingLine.row row targetName?).render p
    = Columns.row p row.addr row.raw
        (p.blue ++ i.operation.mnemonic ++ p.reset ++ " " ++ targetName?.getD target.addressText)

/-- The names of a listing are those of the targets of its calls and jumps. -/
structure NamesTargets (image : List UInt8) (listing : List ListingLine) : Prop where
  /-- The listing shows the rows of the image. -/
  rows : listing.filterMap ListingLine.row? = Row.sweep image
  /-- A row has a name above it exactly if it has an instruction and some row calls or jumps
  there. -/
  above_iff : ∀ row ∈ Row.sweep image,
    (∃ name targetName?, [.label name, .row row targetName?] <:+: listing) ↔
      row.instr?.isSome ∧ ∃ other ∈ Row.sweep image, other.branchTarget? = some row.addr
  /-- A name stands nowhere else. -/
  labelAbove : ∀ name, .label name ∈ listing →
    ∃ row ∈ Row.sweep image, ∃ targetName?, [.label name, .row row targetName?] <:+: listing
  /-- The names are `.l1`, `.l2` and so on, in the order of the addresses of their rows. -/
  numbered : ∃ named : List Row, named.Pairwise (fun row other => row.addr < other.addr) ∧
    listing.filterMap ListingLine.label?
      = (List.range' 1 named.length).map (fun n => ".l" ++ Text.decimal n) ∧
    ∀ k row, named[k]? = some row →
      ∃ targetName?, [.label (".l" ++ Text.decimal (k + 1)), .row row targetName?] <:+: listing
  /-- Calls and jumps print the names of their targets. -/
  operands : ∀ row i target targetName?, .row row targetName? ∈ listing → row.instr? = some i →
    i.branchTarget? = some target → ShowsTarget image listing row i target targetName?

variable {image : List UInt8}

theorem exists_label_above_iff (hnodup : (rows.map Row.addr).Nodup) (hrow : row ∈ rows) :
    (∃ name targetName?,
        [.label name, .row row targetName?] <:+: linesOf (autoLabels rows) rows) ↔
      row ∈ namedRows rows := by
  rw [← exists_get?_addr_iff hnodup hrow]
  constructor
  · rintro ⟨name, _, habove⟩
    exact ⟨name, (label_above_row_iff.mp habove).2.1⟩
  · rintro ⟨name, hname⟩
    exact ⟨name, _, label_above_row hrow hname⟩

theorem showsTarget_withAutoLabels (hnodup : ((Row.sweep image).map Row.addr).Nodup)
    {i : Instruction} {target : Word} {targetName? : Option String}
    (hmem : .row row targetName? ∈ withAutoLabels image) (hinstr : row.instr? = some i)
    (htarget : i.branchTarget? = some target) :
    ShowsTarget image (withAutoLabels image) row i target targetName? := by
  obtain ⟨hrow, hname⟩ := targetName_of_mem_linesOf hmem
  have hgoes : row.branchTarget? = some target := by
    rw [Row.branchTarget?, hinstr, Option.bind_some, htarget]
  rw [hgoes, Option.bind_some] at hname
  subst hname
  have hnamed : ∀ other ∈ Row.sweep image, other.addr = target → other.instr?.isSome →
      other ∈ namedRows (Row.sweep image) :=
    fun other hother haddr hsome => mem_namedRows.mpr ⟨hother, hsome, row, hrow, haddr ▸ hgoes⟩
  refine ⟨?_, fun other hother haddr hsome => ?_, fun p => ?_⟩
  · rw [Option.isSome_iff_exists, exists_get?_autoLabels_iff hnodup]
    constructor
    · rintro ⟨other, hother, haddr⟩
      obtain ⟨hother, hsome, -⟩ := mem_namedRows.mp hother
      exact ⟨other, hother, haddr, hsome⟩
    · rintro ⟨other, hother, haddr, hsome⟩
      exact ⟨other, hnamed other hother haddr hsome, haddr⟩
  · obtain ⟨name, hname⟩ :=
      (exists_get?_addr_iff hnodup hother).mpr (hnamed other hother haddr hsome)
    exact ⟨name, _, haddr ▸ hname, label_above_row hother hname⟩
  · rw [ListingLine.render, ListingLine.content, hinstr]
    exact congrArg _ (Instr.render_transfer htarget p _)

/-- **The names that a listing makes up are exact.**

Just the rows with an instruction that some row calls or jumps to have a name above them, the
names are numbered without gaps in the order of the addresses, and what calls and jumps print is
the name above the row that they go to, or else the address.  The listing is printed line by
line. -/
theorem names_branch_targets {image : List UInt8} (h : image.length < 2 ^ 32) :
    NamesTargets image (withAutoLabels image) ∧ Printed (withAutoLabels image) := by
  have htiles := Row.tiles_sweep image
  have hnodup := htiles.nodup_addr h
  refine ⟨⟨filterMap_row?_linesOf _ _, fun row hrow => ?_, fun name hname => ?_,
    ⟨namedRows (Row.sweep image), ?_, ?_, fun k row hk => ?_⟩, ?_⟩, printed_withAutoLabels h⟩
  · exact (exists_label_above_iff hnodup hrow).trans
      (mem_namedRows.trans (and_iff_right hrow))
  · obtain ⟨row, hrow, hget⟩ := exists_row_of_label_mem hname
    exact ⟨row, hrow, _, label_above_row hrow hget⟩
  · exact (htiles.ascending_addr h).sublist List.filter_sublist
  · exact (filterMap_label?_linesOf _ _).trans (filterMap_get?_autoLabels hnodup)
  · have hrow := (mem_namedRows.mp (List.mem_of_getElem? hk)).1
    exact ⟨_, label_above_row hrow (get?_addr_of_getElem? hnodup hk)⟩
  · intro row i target targetName? hmem hinstr htarget
    exact showsTarget_withAutoLabels hnodup hmem hinstr htarget

/-- An image with a call of the instruction behind the next, and with jumps to the entry point,
into an instruction and to a byte that starts none. -/
theorem names_branch_targets_scattered :
    let image : List UInt8 := [0x1f, 5, 0, 0, 0, 0x1b, 15, 0, 0, 0, 0x21, 6, 0, 0, 0, 0x1d, 0xff,
      0x1f, 16, 0, 0, 0]
    image.length < 2 ^ 32 ∧
      withAutoLabels image
        = [.header "trampoline",
          .row ⟨0, [0x1f, 5, 0, 0, 0], some (.jump .always 5)⟩ (some ".l1"),
          .blank, .header "code", .label ".l1",
          .row ⟨5, [0x1b, 15, 0, 0, 0], some (.call 15)⟩ (some ".l2"),
          .row ⟨10, [0x21, 6, 0, 0, 0], some (.jump .zero 6)⟩ none, .label ".l2",
          .row ⟨15, [0x1d], some .ret⟩ none, .row ⟨16, [0xff], none⟩ none,
          .row ⟨17, [0x1f, 16, 0, 0, 0], some (.jump .always 16)⟩ none] ∧
      NamesTargets image (withAutoLabels image) ∧ Printed (withAutoLabels image) :=
  ⟨by decide, by decide +kernel, names_branch_targets (by decide)⟩

end RegisterMachine.Listing
