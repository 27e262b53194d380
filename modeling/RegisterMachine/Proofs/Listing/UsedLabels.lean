/-
Which labels of a table a listing uses.

A row looks into the table twice: for the name of its own address, which becomes the line above
it, and for the name of the address that it calls or jumps to.  The two are independent of each
other.  A label at an address where no row starts is therefore never defined by the listing, but
a call or a jump that goes there is shown with its name, as is one that goes to the end of the
image.  All other labels are ignored.
-/
import RegisterMachine.Proofs.Listing.Lines
import RegisterMachine.Proofs.WordMap

namespace RegisterMachine

/-- The line without what it shows for the target of its row. -/
def ListingLine.withoutTarget : ListingLine → ListingLine
  | row r _ => row r none
  | line => line

namespace Listing

/-- The addresses at which the rows of an image start. -/
def rowAddresses (image : List UInt8) : List Word :=
  (Row.sweep image).map Row.addr

/-- The addresses that the rows of an image call or jump to. -/
def targetAddresses (image : List UInt8) : List Word :=
  (Row.sweep image).filterMap Row.branchTarget?

variable {labels labels' : LabelTable} {rows : List Row} {image : List UInt8}

/-! ### What a row looks up -/

theorem map_withoutTarget_linesOf (h : ∀ r ∈ rows, labels.get? r.addr = labels'.get? r.addr) :
    (linesOf labels rows).map ListingLine.withoutTarget
      = (linesOf labels' rows).map ListingLine.withoutTarget := by
  rw [linesOf, linesOf, List.map_flatMap, List.map_flatMap]
  refine congrArg List.flatten (List.map_congr_left fun r hr => ?_)
  simp only [rowLines, List.map_append, h r hr]
  rfl

theorem linesOf_congr (haddr : ∀ r ∈ rows, labels.get? r.addr = labels'.get? r.addr)
    (htarget : ∀ r ∈ rows, ∀ target, r.branchTarget? = some target →
      labels.get? target = labels'.get? target) :
    linesOf labels rows = linesOf labels' rows := by
  refine congrArg List.flatten (List.map_congr_left fun r hr => ?_)
  have hname : r.branchTarget?.bind labels.get? = r.branchTarget?.bind labels'.get? := by
    cases htransfer : r.branchTarget? with
    | none => rfl
    | some target => exact htarget r hr target htransfer
  rw [rowLines, rowLines, haddr r hr, hname]

theorem mem_rowAddresses {r : Row} (h : r ∈ Row.sweep image) : r.addr ∈ rowAddresses image :=
  List.mem_map_of_mem h

theorem mem_targetAddresses {r : Row} {target : Word} (h : r ∈ Row.sweep image)
    (htarget : r.branchTarget? = some target) : target ∈ targetAddresses image :=
  List.mem_filterMap.mpr ⟨r, h, htarget⟩

/-- A table may be restricted to addresses among which are those of the rows and those of the
labels that are called or jumped to. -/
theorem withLabels_restrict {keys : List Word} (hrows : rowAddresses image ⊆ keys)
    (htargets : ∀ target ∈ targetAddresses image, ∀ name, labels.get? target = some name →
      target ∈ keys) :
    withLabels (labels.restrict keys) image = withLabels labels image := by
  refine linesOf_congr (fun r hr => ?_) (fun r hr target htarget => ?_)
  · exact labels.get?_restrict_of_mem (hrows (mem_rowAddresses hr))
  · by_cases hkey : target ∈ keys
    · exact labels.get?_restrict_of_mem hkey
    · rw [labels.get?_restrict, if_neg hkey]
      refine (Option.eq_none_iff_forall_ne_some.mpr fun name hname => hkey ?_).symm
      exact htargets target (mem_targetAddresses hr htarget) name hname

/-! ### The labels that are used -/

/-- Which labels of a table the listing of an image uses. -/
structure UsesLabels (labels : LabelTable) (image : List UInt8) : Prop where
  /-- A label where no row starts and to which no row goes is ignored. -/
  ignored : withLabels labels image
    = withLabels (labels.restrict (rowAddresses image ++ targetAddresses image)) image
  /-- A label where no row starts changes nothing but what calls and jumps show. -/
  rowsAlone : (withLabels labels image).map ListingLine.withoutTarget
    = (withLabels (labels.restrict (rowAddresses image)) image).map ListingLine.withoutTarget
  /-- If calls and jumps go to no such label, these are all ignored. -/
  rowsOnly : (∀ target ∈ targetAddresses image, ∀ name, labels.get? target = some name →
      target ∈ rowAddresses image) →
    withLabels labels image = withLabels (labels.restrict (rowAddresses image)) image
  /-- No label is defined but those at which a row starts. -/
  defined : ∀ name, .label name ∈ withLabels labels image →
    ∃ addr ∈ rowAddresses image, labels.get? addr = some name
  /-- The name that is shown for a target at which a row starts is defined right above that
  row. -/
  shown : ∀ row name target, .row row (some name) ∈ withLabels labels image →
    row.branchTarget? = some target → ∀ other ∈ Row.sweep image, other.addr = target →
      ∃ otherName?, [.label name, .row other otherName?] <:+: withLabels labels image

/-- **The labels that a listing uses.**  A listing defines the labels at which a row starts and
shows the names of the labels that calls and jumps go to, and it ignores all others. -/
theorem uses_labels (labels : LabelTable) (image : List UInt8) : UsesLabels labels image where
  ignored := by
    refine (withLabels_restrict (List.subset_append_left _ _) fun target htarget _ _ => ?_).symm
    exact List.mem_append_right _ htarget
  rowsAlone := by
    refine map_withoutTarget_linesOf fun r hr => ?_
    exact (labels.get?_restrict_of_mem (mem_rowAddresses hr)).symm
  rowsOnly := fun h => (withLabels_restrict (fun _ => id) h).symm
  defined := by
    intro name hname
    obtain ⟨r, hr, hget⟩ := exists_row_of_label_mem hname
    exact ⟨r.addr, mem_rowAddresses hr, hget⟩
  shown := by
    intro row name target hrow htarget other hother haddr
    obtain ⟨-, hname⟩ := targetName_of_mem_linesOf hrow
    rw [htarget, Option.bind_some, ← haddr] at hname
    exact ⟨_, label_above_row hother hname.symm⟩

/-- A jump to itself at the entry point, with a label there and one inside of the jump. -/
theorem uses_labels_loop :
    let image : List UInt8 := [0x1f, 5, 0, 0, 0, 0x1f, 5, 0, 0, 0]
    let labels : LabelTable := WordMap.insert (.insert .empty 5 "loop") 7 "inside"
    let loop : Row := ⟨5, [0x1f, 5, 0, 0, 0], some (.jump .always 5)⟩
    rowAddresses image = [0, 5] ∧ targetAddresses image = [5, 5] ∧
      withLabels labels image = withLabels (labels.restrict (rowAddresses image)) image ∧
      loop ∈ Row.sweep image ∧ .row loop (some "loop") ∈ withLabels labels image ∧
      ∃ name?, [.label "loop", .row loop name?] <:+: withLabels labels image := by
  intro image labels loop
  have hrows : rowAddresses image = [0, 5] := by decide +kernel
  have htargets : targetAddresses image = [5, 5] := by decide +kernel
  have hloop : loop ∈ Row.sweep image := by decide +kernel
  have hshown : .row loop (some "loop") ∈ withLabels labels image := by decide +kernel
  refine ⟨hrows, htargets, (uses_labels labels image).rowsOnly fun target htarget _ _ => ?_,
    hloop, hshown, (uses_labels labels image).shown loop "loop" 5 hshown rfl loop hloop rfl⟩
  rw [htargets] at htarget
  obtain rfl : target = 5 := by simpa using htarget
  rw [hrows]
  exact List.mem_cons_of_mem _ List.mem_cons_self

/-- A jump to the end of the image, where a label stands and no row.  The jump is shown with the
name, which the listing does not define. -/
theorem label_beside_rows_is_shown :
    let image : List UInt8 := [0x1f, 0, 0, 0, 0, 0x1f, 10, 0, 0, 0]
    let labels : LabelTable := .insert .empty 10 "last"
    image.length < 2 ^ 32 ∧
      text .off (withLabels labels image)
        = "[trampoline]\n  0x00000000  1f 00 00 00 00     jmp 0x00000000\n"
          ++ "\n[code]\n  0x00000005  1f 0a 00 00 00     jmp last\n" ∧
      text .off (withLabels (labels.restrict (rowAddresses image)) image)
        = "[trampoline]\n  0x00000000  1f 00 00 00 00     jmp 0x00000000\n"
          ++ "\n[code]\n  0x00000005  1f 0a 00 00 00     jmp 0x0000000a\n" ∧
      (withLabels labels image).filterMap ListingLine.label? = [] := by
  decide +kernel

end Listing

end RegisterMachine
