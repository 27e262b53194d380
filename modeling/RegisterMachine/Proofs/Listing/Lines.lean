/-
The lines of a listing.

A listing has for every row the lines that open its section, if it starts one, and then its own:
the name of its address, if it has one, and the row.  So the rows and the names are read off from
the lines in order, a name stands right above the row it names and nowhere else
(`label_above_row_iff`), and the lines of a section are those that open it and the rows' own
lines behind them (`linesOf_sweep`).

None of this depends on how a line is printed.
-/
import RegisterMachine.Proofs.Listing.Labels

namespace RegisterMachine

/-! ### Rows and names -/

namespace ListingLine

/-- The row that the line shows. -/
def row? : ListingLine → Option Row
  | row r _ => some r
  | _ => none

/-- The name that the line defines. -/
def label? : ListingLine → Option String
  | label name => some name
  | _ => none

end ListingLine

namespace Listing

variable {labels : LabelTable} {rows : List Row} {r : Row}

theorem row?_label?_of_mem_sectionLines {offset : Nat} {line : ListingLine}
    (h : line ∈ sectionLines offset) : line.row? = none ∧ line.label? = none := by
  unfold sectionLines at h
  split at h
  · simp_all [ListingLine.row?, ListingLine.label?]
  · split at h
    · rcases List.mem_cons.mp h with rfl | h
      · exact ⟨rfl, rfl⟩
      · obtain rfl := List.mem_singleton.mp h
        exact ⟨rfl, rfl⟩
    · contradiction

/-- The lines for a row but for those that open its section. -/
def ownLines (labels : LabelTable) (r : Row) : List ListingLine :=
  ((labels.get? r.addr).map .label).toList ++ [.row r (r.branchTarget?.bind labels.get?)]

theorem rowLines_eq (labels : LabelTable) (r : Row) :
    rowLines labels r = sectionLines r.offset ++ ownLines labels r :=
  List.append_assoc _ _ _

/-- What is taken from the lines of a listing, if nothing is from those that open a section. -/
theorem filterMap_linesOf {β : Type} {f : ListingLine → Option β}
    (hsection : ∀ {offset : Nat}, ∀ line ∈ sectionLines offset, f line = none)
    (labels : LabelTable) (rows : List Row) :
    (linesOf labels rows).filterMap f = rows.flatMap fun r => (ownLines labels r).filterMap f := by
  rw [linesOf, List.filterMap_flatMap]
  refine congrArg List.flatten (List.map_congr_left fun r _ => ?_)
  rw [rowLines_eq, List.filterMap_append, List.filterMap_eq_nil_iff.mpr hsection, List.nil_append]

theorem filterMap_row?_linesOf (labels : LabelTable) (rows : List Row) :
    (linesOf labels rows).filterMap ListingLine.row? = rows := by
  have hrow : ∀ r, (ownLines labels r).filterMap ListingLine.row? = [r] := by
    intro r
    rw [ownLines]
    cases labels.get? r.addr <;> rfl
  rw [filterMap_linesOf fun _ h => (row?_label?_of_mem_sectionLines h).1]
  simp only [hrow]
  exact List.flatMap_singleton' rows

theorem filterMap_label?_linesOf (labels : LabelTable) (rows : List Row) :
    (linesOf labels rows).filterMap ListingLine.label?
      = rows.filterMap fun r => labels.get? r.addr := by
  have hlabel : ∀ r, (ownLines labels r).filterMap ListingLine.label?
      = (labels.get? r.addr).toList := by
    intro r
    rw [ownLines]
    cases labels.get? r.addr <;> rfl
  rw [filterMap_linesOf fun _ h => (row?_label?_of_mem_sectionLines h).2,
    List.filterMap_eq_flatMap_toList]
  simp only [hlabel]

theorem mem_linesOf {line : ListingLine} (h : line ∈ linesOf labels rows) :
    ∃ r ∈ rows, line ∈ sectionLines r.offset ∨
      (∃ name, labels.get? r.addr = some name ∧ line = .label name) ∨
      line = .row r (r.branchTarget?.bind labels.get?) := by
  obtain ⟨r, hr, h⟩ := List.mem_flatMap.mp h
  refine ⟨r, hr, ?_⟩
  rw [rowLines_eq] at h
  rcases List.mem_append.mp h with h | h
  · exact Or.inl h
  · rcases List.mem_append.mp h with h | h
    · obtain ⟨name, hname, hline⟩ := Option.map_eq_some_iff.mp (Option.mem_toList.mp h)
      exact Or.inr (Or.inl ⟨name, hname, hline.symm⟩)
    · exact Or.inr (Or.inr (List.mem_singleton.mp h))

theorem targetName_of_mem_linesOf {targetName? : Option String}
    (h : .row r targetName? ∈ linesOf labels rows) :
    r ∈ rows ∧ targetName? = r.branchTarget?.bind labels.get? := by
  obtain ⟨s, hs, h | ⟨name, -, h⟩ | h⟩ := mem_linesOf h
  · exact nomatch (row?_label?_of_mem_sectionLines h).1
  · contradiction
  · obtain ⟨rfl, rfl⟩ := ListingLine.row.inj h
    exact ⟨hs, rfl⟩

theorem label_above_row {name : String} (hr : r ∈ rows) (hname : labels.get? r.addr = some name) :
    [.label name, .row r (r.branchTarget?.bind labels.get?)] <:+: linesOf labels rows := by
  have hown : ownLines labels r = [.label name, .row r (r.branchTarget?.bind labels.get?)] := by
    rw [ownLines, hname]
    rfl
  have hsuffix : ownLines labels r <:+ rowLines labels r := by
    rw [rowLines_eq]
    exact List.suffix_append _ _
  rw [hown] at hsuffix
  exact hsuffix.isInfix.trans (List.infix_of_mem_flatten (List.mem_map_of_mem hr))

/-- What opens a section is no name. -/
theorem infix_sectionLines_append {name : String} {targetName? : Option String} (offset : Nat)
    (lines : List ListingLine) :
    [.label name, .row r targetName?] <:+: sectionLines offset ++ lines ↔
      [.label name, .row r targetName?] <:+: lines := by
  unfold sectionLines
  split
  · simp [List.infix_cons_iff]
  · split <;> simp [List.infix_cons_iff]

/-- **A name stands right above a row exactly if it is the name of the row's address.** -/
theorem label_above_row_iff {name : String} {targetName? : Option String} :
    [.label name, .row r targetName?] <:+: linesOf labels rows ↔
      r ∈ rows ∧ labels.get? r.addr = some name ∧
        targetName? = r.branchTarget?.bind labels.get? := by
  refine ⟨fun h => ?_, ?_⟩
  · induction rows with
    | nil => simp [linesOf] at h
    | cons row rows ih =>
        have hrest : [.label name, .row r targetName?] <:+: linesOf labels rows →
            r ∈ row :: rows ∧ labels.get? r.addr = some name ∧
              targetName? = r.branchTarget?.bind labels.get? :=
          fun h => (ih h).imp_left (List.mem_cons_of_mem _)
        rw [linesOf, List.flatMap_cons, rowLines_eq, List.append_assoc,
          infix_sectionLines_append, ownLines] at h
        cases hlabel : labels.get? row.addr with
        | none =>
            simp only [hlabel, Option.map_none, Option.toList_none, List.nil_append,
              List.singleton_append, List.infix_cons_iff, List.cons_prefix_cons, reduceCtorEq,
              false_and, false_or] at h
            exact hrest h
        | some above =>
            simp only [hlabel, Option.map_some, Option.toList_some, List.cons_append,
               List.nil_append, List.infix_cons_iff, List.cons_prefix_cons,
              reduceCtorEq, false_and, false_or, ListingLine.label.injEq,
              ListingLine.row.injEq, List.nil_prefix, and_true] at h
            rcases h with ⟨rfl, rfl, rfl⟩ | h
            · exact ⟨List.mem_cons_self, hlabel, rfl⟩
            · exact hrest h
  · rintro ⟨hr, hname, rfl⟩
    exact label_above_row hr hname

/-- A name stands nowhere but above a row. -/
theorem exists_row_of_label_mem {name : String} (h : .label name ∈ linesOf labels rows) :
    ∃ r ∈ rows, labels.get? r.addr = some name := by
  obtain ⟨r, hr, h | ⟨above, habove, h⟩ | h⟩ := mem_linesOf h
  · exact nomatch (row?_label?_of_mem_sectionLines h).2
  · obtain rfl := ListingLine.label.inj h
    exact ⟨r, hr, habove⟩
  · contradiction

/-! ### Sections -/

/-- The lines of a section: those that open it, if there is any row, and the rows' own. -/
theorem linesOf_sweepFrom {start : Nat} {bytes : List UInt8}
    (hone : ∀ k, start < k → k < start + bytes.length → sectionLines k = []) :
    linesOf labels (Row.sweepFrom start bytes)
      = (if bytes = [] then [] else sectionLines start)
        ++ (Row.sweepFrom start bytes).flatMap (ownLines labels) := by
  by_cases hbytes : bytes = []
  · rw [hbytes, if_pos rfl, Row.sweepFrom]
    rfl
  · obtain ⟨row, rows, hrows, hoffset⟩ := Row.exists_cons_sweepFrom start hbytes
    have htiles := Row.tiles_sweepFrom start bytes
    rw [hrows] at htiles ⊢
    have hlater := (List.pairwise_cons.mp htiles.ascending).1
    have hlines : rows.flatMap (rowLines labels) = rows.flatMap (ownLines labels) := by
      refine congrArg List.flatten (List.map_congr_left fun r hr => ?_)
      have hend := (htiles.offset_bounds r (List.mem_cons_of_mem _ hr)).2
      rw [rowLines_eq, hone r.offset (hoffset ▸ hlater r hr) hend, List.nil_append]
    rw [if_neg hbytes, linesOf, List.flatMap_cons, rowLines_eq, hoffset, hlines,
      List.flatMap_cons, List.append_assoc]

/-- **The lines of a listing, section by section.** -/
theorem linesOf_sweep (labels : LabelTable) (image : List UInt8) :
    linesOf labels (Row.sweep image)
      = (if image.take slotSize = [] then [] else [.header "trampoline"])
        ++ ((Row.sweepFrom 0 (image.take slotSize)).flatMap (ownLines labels)
        ++ ((if image.drop slotSize = [] then [] else [.blank, .header "code"])
        ++ (Row.sweepFrom slotSize (image.drop slotSize)).flatMap (ownLines labels))) := by
  have hslot : ∀ k, 0 < k → k < 0 + (image.take slotSize).length → sectionLines k = [] := by
    intro k hpos hlt
    rw [List.length_take] at hlt
    rw [sectionLines, if_neg (by omega), if_neg (by omega)]
  have hcode : ∀ k, slotSize < k → k < slotSize + (image.drop slotSize).length →
      sectionLines k = [] := by
    intro k hgt _
    rw [sectionLines, if_neg (by omega), if_neg (by omega)]
  rw [Row.sweep, linesOf, List.flatMap_append, ← List.append_assoc]
  exact congrArg₂ _ (linesOf_sweepFrom hslot) (linesOf_sweepFrom hcode)

end Listing

end RegisterMachine
