/-
A label table is read back from its text.

A line shows a name as it is, so a name can be read back if nothing of it is lost at the ends
of its line: `CleanName` says what that takes.  The lines of a table come in ascending order
of their addresses.  Reading therefore puts every entry behind those that are already there,
and in the end has the entries it started from.
-/
import RegisterMachine.Proofs.Except
import RegisterMachine.Proofs.LabelLine
import RegisterMachine.Proofs.WordMap

namespace RegisterMachine

namespace LabelTable

/-- A name that can be read back from its line. -/
structure CleanName (name : String) : Prop where
  nonempty : name.toList ≠ []
  /-- Blanks at the ends of a line are not read. -/
  ends : Text.SolidEnds name.toList
  /-- The name ends where its line does. -/
  newline_not_mem : '\n' ∉ name.toList

/-- The line of an entry, without the line break. -/
def entryLine (entry : Word × String) : List Char :=
  Text.hexDigits 8 entry.1.toNat ++ (separator.toList ++ entry.2.toList)

theorem toList_format (table : LabelTable) :
    (format table).toList = (table.entries.map entryLine).flatMap (· ++ ['\n']) := by
  have hentry : ∀ entry, (formatEntry entry).toList = entryLine entry ++ ['\n'] := by
    intro entry
    simp [formatEntry, entryLine]
  rw [format, String.toList_join, List.flatMap_map, List.flatMap_map]
  simp only [hentry]

theorem newline_not_mem_entryLine {entry : Word × String} (h : CleanName entry.2) :
    '\n' ∉ entryLine entry := by
  have hdigits : '\n' ∉ Text.hexDigits 8 entry.1.toNat := Text.not_mem_hexDigits (by decide)
  have hseparator : '\n' ∉ separator.toList := by decide
  simp only [entryLine, List.mem_append, hdigits, hseparator, h.newline_not_mem, or_self,
    not_false_iff]

/-- **The line of an entry says this entry.** -/
theorem says_entryLine {entry : Word × String} (h : CleanName entry.2) :
    Says (entryLine entry) entry.1 entry.2 := by
  have hsaid := Says.intro Text.blanks_nil (Or.inl (Text.numeral_hexDigits 8 entry.1.toNat))
    blanks_separator (List.infix_refl _) h.nonempty h.ends Text.blanks_nil
  rwa [List.nil_append, List.append_nil] at hsaid

/-- Lines are read one after another, and the empty line at the end says nothing. -/
theorem foldlM_addLine {entries : List (Word × String)} (h : ∀ entry ∈ entries, CleanName entry.2)
    (table : LabelTable) (n : Nat) :
    ((entries.map entryLine ++ [[]]).zipIdx n).foldlM addLine table
      = .ok (entries.foldl (fun table entry => table.insert entry.1 entry.2) table) := by
  induction entries generalizing table n with
  | nil => rfl
  | cons entry rest ih =>
      rw [List.map_cons, List.cons_append, List.zipIdx_cons, List.foldlM_cons, List.foldl_cons,
        addLine_of_said (says_entryLine (h entry List.mem_cons_self))]
      exact ih (fun e he => h e (List.mem_cons_of_mem _ he)) _ (n + 1)

/-- **A table of clean names is read back from what is written for it.** -/
theorem parse_format {table : LabelTable} (h : ∀ entry ∈ table.entries, CleanName entry.2) :
    parse (format table) = .ok table := by
  have hlines : Text.lines (format table).toList = table.entries.map entryLine ++ [[]] := by
    rw [toList_format]
    refine Text.lines_flatMap fun piece hpiece => ?_
    obtain ⟨entry, hentry, rfl⟩ := List.mem_map.mp hpiece
    exact newline_not_mem_entryLine (h entry hentry)
  rw [parse, hlines, foldlM_addLine h, WordMap.foldl_insert_entries]

end LabelTable

end RegisterMachine
