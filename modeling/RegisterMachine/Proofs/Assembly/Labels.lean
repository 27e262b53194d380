/-
The names in a label table are names that a source can define.

A label is what stands before a colon, and reading a line takes nothing there that is not fit
to name one.  The two passes only hand these names on, so every name in the table of an
assembled source is one of them, and writing and reading the table loses none.
-/
import RegisterMachine.Proofs.Assembly.Layout
import RegisterMachine.Proofs.Assembly.Reading
import RegisterMachine.Proofs.LabelTable
import RegisterMachine.Proofs.WordMap

namespace RegisterMachine.Assembly

namespace Line

theorem isLabelName_of_splitLabels {text rest : List Char} {names : List String}
    (h : splitLabels text = .ok (names, rest)) :
    ∀ name ∈ names, isLabelName name.toList = true := by
  fun_induction splitLabels text generalizing names rest with
  | case1 | case2 =>
      obtain ⟨rfl, -⟩ := Prod.mk.inj (Except.ok.inj h)
      exact fun _ hname => absurd hname List.not_mem_nil
  | case3 text head tail hcut name hword hlabel =>
      rename_i ih
      obtain ⟨⟨names', rest'⟩, hrest, h⟩ := bind_eq_ok.mp h
      obtain ⟨rfl, -⟩ := Prod.mk.inj (Except.ok.inj h)
      refine List.forall_mem_cons.mpr ⟨?_, ih hrest⟩
      rwa [String.toList_ofList]
  | case4 => exact nomatch h

theorem isLabelName_of_parse {text : List Char} {line : Line} (h : Line.parse text = .ok line) :
    ∀ name ∈ line.labels, isLabelName name.toList = true := by
  obtain ⟨⟨names, rest⟩, hsplit, h⟩ := bind_eq_ok.mp h
  have hlabels : line.labels = names := by
    dsimp only at h
    split at h
    · exact (congrArg Line.labels (Except.ok.inj h)).symm
    · obtain ⟨statement, -, h⟩ := bind_eq_ok.mp h
      exact (congrArg Line.labels (Except.ok.inj h)).symm
  rw [hlabels]
  exact isLabelName_of_splitLabels hsplit

end Line

theorem isLabelName_of_parseLines {source : String} {lines : List (Line × Nat)}
    (h : parseLines source = .ok lines) :
    ∀ name ∈ lines.flatMap (·.1.labels), isLabelName name.toList = true := by
  obtain ⟨said, hreads, rfl⟩ := parseLines_eq_ok.mp h
  intro name hname
  obtain ⟨⟨line, n⟩, hline, hname⟩ := List.mem_flatMap.mp hname
  have hsaid : Except.ok line ∈ (Text.lines source.toList).map Line.parse := by
    rw [hreads]
    exact List.mem_map_of_mem (List.fst_mem_of_mem_zipIdx hline)
  obtain ⟨text, -, hparse⟩ := List.mem_map.mp hsaid
  exact Line.isLabelName_of_parse hparse name hname

/-- **Every name in an assembled table is one that a source can define.** -/
theorem nameable_of_mem_labels {opening : List UInt8} {source : String} {a : Assembled}
    (h : assembleBehind opening source = .ok a) {entry : Word × String}
    (hentry : entry ∈ a.labels.entries) : Nameable entry.2 := by
  obtain ⟨lines, layout, pieces, hlines, hfirst, -, rfl⟩ := assembleBehind_eq_ok.mp h
  obtain ⟨-, hnames, -⟩ := Layout.defs_of_ofLines hfirst
  have hget := WordMap.mem_entries_iff.mp hentry
  rw [Layout.get?_labelTable] at hget
  obtain ⟨definition, hfind, hname⟩ := Option.map_eq_some_iff.mp hget
  have hmem : entry.2 ∈ layout.defs.map Prod.fst :=
    hname ▸ List.mem_map_of_mem (List.mem_of_find?_eq_some hfind)
  rw [hnames] at hmem
  exact nameable_iff.mpr (isLabelName_of_parseLines hlines _ hmem)

theorem Nameable.cleanName {name : String} (h : Nameable name) : LabelTable.CleanName name where
  nonempty := h.1.1
  ends := h.1.solidEnds
  newline_not_mem := h.1.newline_not_mem

/-- **The table of an assembled source is read back from what is written for it.** -/
theorem parse_format_labels {opening : List UInt8} {source : String} {a : Assembled}
    (h : assembleBehind opening source = .ok a) :
    LabelTable.parse (LabelTable.format a.labels) = .ok a.labels :=
  LabelTable.parse_format fun _ hentry => (nameable_of_mem_labels h hentry).cleanName

end RegisterMachine.Assembly
