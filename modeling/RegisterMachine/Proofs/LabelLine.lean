/-
What a line of a label table says.

A line says one thing: that an address has a name.  `Says` is this relation, and it does not
mention how a line is read.  Between the address and the name there may be any blanks with the
separator among them, and the name may well hold the separator itself.  Reading cuts the line
at the first separator; the digits of an address hold no blank, so this one is between the
address and the name, and trimming both takes off what else stands there.
-/
import RegisterMachine.LabelTable
import RegisterMachine.Proofs.Text.Numeral
import RegisterMachine.Proofs.Text.Split

namespace RegisterMachine.LabelTable

open Text (Blanks Numeral SolidEnds)

/-- The text denotes an address: hexadecimal digits, which a plus sign may precede. -/
def AddressText (addr : Word) (text : List Char) : Prop :=
  Numeral 16 addr.toNat text ∨ ∃ digits, text = '+' :: digits ∧ Numeral 16 addr.toNat digits

/-- The line says that the address has the name. -/
inductive Says : List Char → Word → String → Prop
  | intro {left digits gap right : List Char} {addr : Word} {name : String} (hleft : Blanks left)
      (hdigits : AddressText addr digits) (hgap : Blanks gap) (hmark : separator.toList <:+: gap)
      (hne : name.toList ≠ []) (hname : SolidEnds name.toList) (hright : Blanks right) :
      Says (left ++ (digits ++ (gap ++ (name.toList ++ right)))) addr name

theorem readAddress?_eq_some {text : List Char} {addr : Word} :
    readAddress? text = some addr ↔ AddressText addr text := by
  rw [AddressText, ← Text.readUnsigned?_eq_some (by decide)]
  unfold readAddress?
  constructor
  · intro h
    obtain ⟨n, hn, rfl⟩ := Option.map_eq_some_iff.mp h
    obtain ⟨hread, hlt⟩ := Option.filter_eq_some_iff.mp hn
    rwa [UInt32.toNat_ofNat_of_lt' (of_decide_eq_true hlt)]
  · intro h
    rw [h, Option.filter_some, if_pos (decide_eq_true addr.toNat_lt), Option.map_some,
      UInt32.ofNat_toNat]

namespace AddressText

variable {addr : Word} {text : List Char}

theorem isBlank_of_mem (h : AddressText addr text) {c : Char} (hc : c ∈ text) :
    Text.isBlank c = false := by
  have hdigit : ∀ {n : Nat} {digits : List Char}, Numeral 16 n digits → c ∈ digits →
      Text.isBlank c = false := by
    intro n digits hdigits hc
    obtain ⟨d, hd⟩ := hdigits.digitOf_of_mem hc
    exact hd.forall (p := fun _ c => Text.isBlank c = false) (by decide) (by decide +kernel)
  rcases h with h | ⟨digits, rfl, h⟩
  · exact hdigit h hc
  · rcases List.mem_cons.mp hc with rfl | hc
    · decide
    · exact hdigit h hc

theorem ne_nil (h : AddressText addr text) : text ≠ [] := by
  rcases h with h | ⟨digits, rfl, -⟩
  · exact h.ne_nil
  · exact List.cons_ne_nil _ _

theorem solidEnds (h : AddressText addr text) : SolidEnds text :=
  .of_forall fun _ => h.isBlank_of_mem

end AddressText

theorem blanks_separator : Blanks separator.toList := by
  intro c hc
  have hspaces : separator.toList = List.replicate 3 ' ' := rfl
  rw [hspaces] at hc
  rw [List.eq_of_mem_replicate hc]
  decide

/-- What reading takes from a line: the address before the first separator and the name
behind it. -/
def readLine? (line : List Char) : Option (Word × String) :=
  (Text.cutOn? separator.toList (Text.trim line)).bind fun (addr, name) =>
    (readAddress? (Text.trim addr)).map fun a => (a, String.ofList (Text.trim name))

theorem Says.readLine? {line : List Char} {addr : Word} {name : String} (h : Says line addr name) :
    readLine? line = some (addr, name) := by
  obtain ⟨hleft, hdigits, hgap, hmark, hne, hname, hright⟩ := h
  rename_i left digits gap right
  have htrim : Text.trim (left ++ (digits ++ (gap ++ (name.toList ++ right))))
      = digits ++ (gap ++ name.toList) := by
    have hends := hdigits.solidEnds.append gap hname hdigits.ne_nil hne
    rw [← hends.trim_between hleft hright]
    simp only [List.append_assoc]
  -- The digits hold no space, so the first separator is the one in the gap.
  obtain ⟨front, back, hcut, rfl⟩ := Text.exists_cutOn?_append hmark name.toList
  have hspace : ' ' ∉ digits := fun hmem => absurd (hdigits.isBlank_of_mem hmem) (by decide)
  have hline : Text.cutOn? separator.toList (digits ++ (front ++ (separator.toList ++ back) ++
      name.toList)) = some (digits ++ front, back ++ name.toList) := by
    refine (Text.cutOn?_append_left hspace _ _).trans ?_
    exact congrArg _ hcut
  obtain ⟨hfront, hback⟩ := List.forall_mem_append.mp hgap
  have haddr : Text.trim (digits ++ front) = digits := by
    rw [Text.trim_append_blanks digits hfront, hdigits.solidEnds.trim]
  have hword : Text.trim (back ++ name.toList) = name.toList := by
    rw [Text.trim_blanks_append (List.forall_mem_append.mp hback).2, hname.trim]
  simp only [LabelTable.readLine?, htrim, hline, Option.bind_some, haddr, hword,
    readAddress?_eq_some.mpr hdigits, Option.map_some, String.ofList_toList]

/-- **A line is read exactly if it says something, and as what it says.** -/
theorem readLine?_eq_some {line : List Char} {addr : Word} {name : String} :
    readLine? line = some (addr, name) ↔ Says line addr name := by
  refine ⟨fun h => ?_, Says.readLine?⟩
  obtain ⟨⟨front, back⟩, hcut, h⟩ := Option.bind_eq_some_iff.mp h
  obtain ⟨a, hread, h⟩ := Option.map_eq_some_iff.mp h
  obtain ⟨rfl, rfl⟩ := Prod.mk.inj h
  have hends := Text.solidEnds_trim line
  have htrim := Text.eq_append_of_cutOn? hcut
  -- Blanks are trimmed off the line, off the part before the separator and off the one behind.
  obtain ⟨left, right, hleft, hright, hline⟩ := Text.exists_blanks_trim line
  obtain ⟨left₁, right₁, hleft₁, hright₁, hfront⟩ := Text.exists_blanks_trim front
  obtain ⟨left₂, right₂, hleft₂, hright₂, hback⟩ := Text.exists_blanks_trim back
  have hne : (String.ofList (Text.trim back)).toList ≠ [] := by
    intro hnil
    rw [String.toList_ofList] at hnil
    have hblank : Blanks (separator.toList ++ back) :=
      blanks_separator.append (Text.trim_eq_nil.mp hnil)
    rw [htrim] at hends
    exact hends.not_blanks (by simp [separator]) hblank
  have hname : SolidEnds (String.ofList (Text.trim back)).toList := by
    rw [String.toList_ofList]
    exact Text.solidEnds_trim back
  have hsaid : line = left ++ left₁ ++ (Text.trim front ++ (right₁ ++ separator.toList ++ left₂ ++
      ((String.ofList (Text.trim back)).toList ++ (right₂ ++ right)))) := by
    calc line = left ++ (front ++ (separator.toList ++ back) ++ right) := by rw [← htrim, ← hline]
      _ = left ++ (left₁ ++ (Text.trim front ++ right₁) ++
            (separator.toList ++ (left₂ ++ (Text.trim back ++ right₂))) ++ right) := by
          rw [← hfront, ← hback]
      _ = _ := by simp only [List.append_assoc, String.toList_ofList]
  rw [hsaid]
  exact .intro (hleft.append hleft₁) (readAddress?_eq_some.mp hread)
    ((hright₁.append blanks_separator).append hleft₂) (List.infix_append _ _ _) hne hname
    (hright₂.append hright)

namespace Says

variable {line : List Char} {addr : Word} {name : String}

theorem not_blanks (h : Says line addr name) : ¬Blanks line := by
  intro hblank
  have hread := h.readLine?
  rw [LabelTable.readLine?, Text.trim_of_blanks hblank] at hread
  exact nomatch hread

theorem unique {addr' : Word} {name' : String} (h : Says line addr name)
    (h' : Says line addr' name') : addr = addr' ∧ name = name' :=
  Prod.mk.inj (Option.some.inj (h.readLine?.symm.trans h'.readLine?))

end Says

/-! ### Putting what is said into a table -/

variable {line : List Char} {table table' : LabelTable} {n : Nat}

/-- The line is blank or says something. -/
def Readable (line : List Char) : Prop :=
  Blanks line ∨ ∃ addr name, Says line addr name

theorem addLine_of_blanks (h : Blanks line) : addLine table (line, n) = .ok table := by
  simp [addLine, Text.trim_of_blanks h]

theorem addLine_of_said {addr : Word} {name : String} (h : Says line addr name) :
    addLine table (line, n) = .ok (table.insert addr name) := by
  obtain ⟨⟨front, back⟩, hcut, hrest⟩ := Option.bind_eq_some_iff.mp h.readLine?
  obtain ⟨a, hread, hentry⟩ := Option.map_eq_some_iff.mp hrest
  obtain ⟨rfl, rfl⟩ := Prod.mk.inj hentry
  have hsome : (Text.trim line).isEmpty = false := Text.isEmpty_trim h.not_blanks
  simp only [addLine, hsome, hcut, hread, Bool.false_eq_true, if_false]

theorem readable_of_addLine (h : addLine table (line, n) = .ok table') : Readable line := by
  by_cases hblank : Blanks line
  · exact Or.inl hblank
  have hsome : (Text.trim line).isEmpty = false := Text.isEmpty_trim hblank
  simp only [addLine, hsome, Bool.false_eq_true, if_false] at h
  split at h
  · contradiction
  · rename_i front back hcut
    split at h
    · contradiction
    · rename_i addr hread
      have hentry : readLine? line = some (addr, String.ofList (Text.trim back)) := by
        simp only [readLine?, hcut, Option.bind_some, hread, Option.map_some]
      exact Or.inr ⟨addr, _, readLine?_eq_some.mp hentry⟩

theorem Readable.exists_addLine (h : Readable line) (table : LabelTable) (n : Nat) :
    ∃ table', addLine table (line, n) = .ok table' := by
  rcases h with hblank | ⟨addr, name, hsaid⟩
  · exact ⟨_, addLine_of_blanks hblank⟩
  · exact ⟨_, addLine_of_said hsaid⟩

end RegisterMachine.LabelTable
