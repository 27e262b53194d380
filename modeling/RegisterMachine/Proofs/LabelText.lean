/-
What the text of a label table says.

Of the lines that speak of one address the last one counts, and reading a text gives exactly
the table of what is said last (`parse_eq_ok`).  Reading line by line keeps to this: `Holds`
is what the table has after any number of lines.

A name that a line says has no blank at its ends and no line break.  This is also what it
takes to survive being written, so a table is read back from its text exactly if it could
have been read from any text at all.
-/
import RegisterMachine.Proofs.Assembly.Labels

namespace RegisterMachine.LabelTable

open Text (Blanks)

/-! ### What the lines of a text say -/

variable {lines : List (List Char)} {line : List Char} {table table' : LabelTable} {n : Nat}

/-- Of all lines that say something of the address, the last says the name. -/
def LastSaid (lines : List (List Char)) (addr : Word) (name : String) : Prop :=
  ∃ before line after, lines = before ++ line :: after ∧ Says line addr name ∧
    ∀ later ∈ after, ∀ other, ¬Says later addr other

/-- The table has the names that the lines say last. -/
def Holds (table : LabelTable) (lines : List (List Char)) : Prop :=
  ∀ addr name, (addr, name) ∈ table.entries ↔ LastSaid lines addr name

/-- What one more line says counts, and what was said before unless this is of the same
address. -/
theorem lastSaid_append_singleton {addr : Word} {name : String} :
    LastSaid (lines ++ [line]) addr name ↔
      Says line addr name ∨ LastSaid lines addr name ∧ ∀ other, ¬Says line addr other := by
  constructor
  · rintro ⟨before, said, after, hlines, hsaid, hlast⟩
    rcases List.eq_nil_or_concat after with rfl | ⟨after, final, rfl⟩
    · obtain ⟨-, rfl⟩ := List.append_singleton_inj.mp hlines
      exact Or.inl hsaid
    · rw [List.concat_eq_append, ← List.cons_append, ← List.append_assoc] at hlines
      obtain ⟨rfl, rfl⟩ := List.append_singleton_inj.mp hlines
      rw [List.concat_eq_append, List.forall_mem_append] at hlast
      exact Or.inr ⟨⟨before, said, after, rfl, hsaid, hlast.1⟩, hlast.2 line (by simp)⟩
  · rintro (hsaid | ⟨⟨before, said, after, rfl, hsaid, hlast⟩, hline⟩)
    · exact ⟨lines, line, [], rfl, hsaid, fun _ hlater => absurd hlater List.not_mem_nil⟩
    · refine ⟨before, said, after ++ [line], by simp, hsaid, ?_⟩
      exact List.forall_mem_append.mpr ⟨hlast, List.forall_mem_singleton.mpr hline⟩

/-- **After a line the table has what is said last with this line too.** -/
theorem Holds.addLine (hholds : Holds table lines) (h : addLine table (line, n) = .ok table') :
    Holds table' (lines ++ [line]) := by
  intro addr name
  rw [lastSaid_append_singleton]
  rcases readable_of_addLine h with hblank | ⟨addr', name', hsaid⟩
  · rw [addLine_of_blanks hblank] at h
    obtain rfl := Except.ok.inj h
    have hsilent : ∀ other, ¬Says line addr other := fun _ hsaid => hsaid.not_blanks hblank
    rw [hholds addr name, or_iff_right (hsilent name), and_iff_left hsilent]
  · rw [addLine_of_said hsaid] at h
    obtain rfl := Except.ok.inj h
    rw [WordMap.mem_entries_iff, WordMap.get?_insert]
    by_cases haddr : addr = addr'
    · subst haddr
      rw [if_pos rfl, Option.some_inj]
      constructor
      · rintro rfl
        exact Or.inl hsaid
      · rintro (hname | ⟨-, hsilent⟩)
        · exact (hsaid.unique hname).2
        · exact absurd hsaid (hsilent name')
    · have hsilent : ∀ other, ¬Says line addr other := fun _ hother =>
        haddr (hother.unique hsaid).1
      rw [if_neg haddr, ← WordMap.mem_entries_iff, hholds addr name, or_iff_right (hsilent name),
        and_iff_left hsilent]

theorem holds_empty : Holds .empty [] := by
  intro addr name
  simp [LastSaid, WordMap.empty]

/-- What the lines say last is the whole of a table. -/
theorem Holds.unique (h : Holds table lines) (h' : Holds table' lines) : table = table' :=
  WordMap.ext_get? fun addr => Option.ext fun name => by
    rw [← WordMap.mem_entries_iff, ← WordMap.mem_entries_iff, h addr name, h' addr name]

/-- **Lines that are read are readable, and the table has what they say last.** -/
theorem holds_of_foldlM (h : (lines.zipIdx n).foldlM addLine .empty = .ok table) :
    (∀ line ∈ lines, Readable line) ∧ Holds table lines := by
  induction lines using List.reverseRecOn generalizing table with
  | nil =>
      obtain rfl := Except.ok.inj h
      exact ⟨fun _ hline => absurd hline List.not_mem_nil, holds_empty⟩
  | append_singleton lines line ih =>
      rw [List.zipIdx_append, List.foldlM_append] at h
      obtain ⟨front, hfront, hlast⟩ := bind_eq_ok.mp h
      obtain ⟨hreadable, hholds⟩ := ih hfront
      rw [List.zipIdx_singleton, List.foldlM_cons] at hlast
      obtain ⟨table', hline, htable⟩ := bind_eq_ok.mp hlast
      obtain rfl := Except.ok.inj htable
      refine ⟨List.forall_mem_append.mpr ⟨hreadable, ?_⟩, hholds.addLine hline⟩
      exact List.forall_mem_singleton.mpr (readable_of_addLine hline)

theorem exists_foldlM_addLine (h : ∀ line ∈ lines, Readable line) (table : LabelTable) (n : Nat) :
    ∃ table', (lines.zipIdx n).foldlM addLine table = .ok table' := by
  induction lines generalizing table n with
  | nil => exact ⟨table, rfl⟩
  | cons line lines ih =>
      obtain ⟨next, hline⟩ := (h line List.mem_cons_self).exists_addLine table n
      obtain ⟨table', hrest⟩ := ih (fun l hl => h l (List.mem_cons_of_mem _ hl)) next (n + 1)
      exact ⟨table', by rw [List.zipIdx_cons, List.foldlM_cons, hline]; exact hrest⟩

/-- **A text is read exactly if every line is blank or says something, and as the table of
what is said last.** -/
theorem parse_eq_ok {text : String} :
    parse text = .ok table ↔
      (∀ line ∈ Text.lines text.toList, Readable line) ∧ Holds table (Text.lines text.toList) := by
  refine ⟨holds_of_foldlM, fun ⟨hreadable, hholds⟩ => ?_⟩
  obtain ⟨table', hparse⟩ := exists_foldlM_addLine hreadable .empty 1
  rw [hholds.unique (holds_of_foldlM hparse).2]
  exact hparse

/-! ### Which tables survive their text -/

/-- **What is said in one line can be said again.** -/
theorem Says.cleanName {addr : Word} {name : String} (h : Says line addr name)
    (hline : '\n' ∉ line) : CleanName name := by
  obtain ⟨-, -, -, -, hne, hname, -⟩ := h
  simp only [List.mem_append, not_or] at hline
  exact ⟨hne, hname, hline.2.2.2.1⟩

theorem cleanName_of_parse {text : String} (h : parse text = .ok table) :
    ∀ entry ∈ table.entries, CleanName entry.2 := by
  rintro ⟨addr, name⟩ hentry
  obtain ⟨before, line, after, hlines, hsaid, -⟩ :=
    ((parse_eq_ok.mp h).2 addr name).mp hentry
  have hmem : line ∈ Text.lines text.toList := by
    rw [hlines]
    exact List.mem_append_right _ List.mem_cons_self
  exact hsaid.cleanName fun hnewline =>
    absurd (Text.not_sep_of_mem_splitWhere hmem '\n' hnewline) (by decide)

/-- **A table survives its text exactly if its names are clean.**  Reading takes no other names
from any text, and the assembler defines none; so what either makes survives. -/
theorem survives_text :
    (∀ table : LabelTable,
      parse (format table) = .ok table ↔ ∀ entry ∈ table.entries, CleanName entry.2) ∧
    (∀ (text : String) (table : LabelTable),
      parse text = .ok table ↔
        (∀ line ∈ Text.lines text.toList, Readable line) ∧
          Holds table (Text.lines text.toList)) ∧
    (∀ (text : String) (table : LabelTable),
      parse text = .ok table → parse (format table) = .ok table) ∧
    ∀ (opening : List UInt8) (source : String) (a : Assembly.Assembled),
      Assembly.assembleBehind opening source = .ok a →
        parse (format a.labels) = .ok a.labels :=
  ⟨fun _ => ⟨cleanName_of_parse, parse_format⟩, fun _ _ => parse_eq_ok,
    fun _ _ h => parse_format (cleanName_of_parse h),
    fun _ _ _ h => Assembly.parse_format_labels h⟩

/-- A text that names one address twice, with a blank line and a name that holds the separator,
and a source that defines two labels at one address. -/
theorem survives_text_namedTwice :
    (∃ table, parse "1a\t   first\n \n+5   main \r\n0000001A   loop   end" = .ok table ∧
      table.entries = [(5, "main"), (0x1a, "loop   end")] ∧
      parse (format table) = .ok table) ∧
    ∃ a, Assembly.assembleProgram "main: jmp main\nloop: other: ret" = .ok a ∧
      a.labels.entries = [(5, "main"), (10, "loop")] ∧
      parse (format a.labels) = .ok a.labels := by
  have hparse : parse "1a\t   first\n \n+5   main \r\n0000001A   loop   end"
      = .ok ⟨[(5, "main"), (0x1a, "loop   end")], by decide⟩ := by decide +kernel
  have hassemble : Assembly.assembleProgram "main: jmp main\nloop: other: ret"
      = .ok ⟨[0x1f, 0, 0, 0, 0, 0x1f, 5, 0, 0, 0, 0x1c],
        [(5, "main"), (10, "loop")], by decide⟩ := by decide +kernel
  obtain ⟨-, -, hread, hassembled⟩ := survives_text
  exact ⟨⟨_, hparse, rfl, hread _ _ hparse⟩, _, hassemble, rfl, hassembled _ _ _ hassemble⟩

end RegisterMachine.LabelTable
