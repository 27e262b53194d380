/-
What is left of a text without its escape codes.

The codes are taken out in one scan from front to back.  They all start with the escape
character and none of them starts another, so the scan takes a code out as a whole whatever
stands behind it, and it leaves a text alone that does not have the character.

Printed text is joined from such pieces.  What a scan leaves of a text may depend on the text
behind it, where a code could still be completed, so `SameButCodes` is about a text in front of
anything.  In this form it is closed under joining, and every printer can be taken piece by
piece.
-/
import Mathlib.Data.List.Forall2
import RegisterMachine.Proofs.Trace.Lines

namespace RegisterMachine

/-! ### Texts without codes -/

/-- The text does not have the character that all codes start with. -/
def Uncoded (text : String) : Prop :=
  '\x1b' ∉ text.toList

instance (text : String) : Decidable (Uncoded text) :=
  inferInstanceAs (Decidable ('\x1b' ∉ text.toList))

namespace Uncoded

@[simp] theorem append_iff {front back : String} :
    Uncoded (front ++ back) ↔ Uncoded front ∧ Uncoded back := by
  simp [Uncoded]

theorem not_digit : ∀ d < 16, '\x1b' ≠ d.digitChar := by
  decide

@[simp] theorem decimal (n : Nat) : Uncoded (Text.decimal n) := by
  intro hmem
  rw [Text.decimal, String.toList_ofList] at hmem
  obtain ⟨d, hd, hescape⟩ := Text.mem_toDigits (by decide) hmem
  exact not_digit d (by omega) hescape

@[simp] theorem hex (width n : Nat) : Uncoded (Text.hex width n) := by
  have hmark : Uncoded "0x" := by decide
  rw [Text.hex, append_iff]
  refine ⟨hmark, ?_⟩
  rw [Uncoded, String.toList_ofList]
  exact Text.not_mem_hexDigits not_digit

@[simp] theorem byteText (b : UInt8) : Uncoded (byteText b) :=
  not_mem_byteText not_digit b

@[simp] theorem bytesText (bytes : List UInt8) : Uncoded (bytesText bytes) :=
  not_mem_bytesText (by decide) not_digit bytes

@[simp] theorem spaces (n : Nat) : Uncoded (Columns.spaces n) :=
  Columns.not_mem_spaces (by decide) n

@[simp] theorem flags (f : Flags) : Uncoded f.text :=
  f.not_mem_text (by decide)

@[simp] theorem mnemonic (op : Operation) : Uncoded op.mnemonic := by
  have h : ∀ op ∈ Operation.all, Uncoded op.mnemonic := by decide
  exact h op (Operation.mem_all op)

@[simp] theorem registerName (r : Register) : Uncoded r.name := by
  have h : ∀ r ∈ Register.all, Uncoded r.name := by decide
  exact h r (Register.mem_all r)

end Uncoded

/-! ### Taking codes out -/

/-- The four codes of coloured text. -/
def escapeCodes : List (List Char) :=
  [Palette.on.blue, Palette.on.green, Palette.on.dim, Palette.on.reset].map String.toList

/-- The text without its codes: where one starts, it is left out as a whole. -/
def dropCodes : List Char → List Char
  | [] => []
  | c :: text =>
    match escapeCodes.find? (·.isPrefixOf (c :: text)) with
    | some code => dropCodes (text.drop (code.length - 1))
    | none => c :: dropCodes text
termination_by text => text.length
decreasing_by
  · simp only [List.length_drop, List.length_cons]
    omega
  · simp

/-- What a reader sees who takes the codes out. -/
def withoutCodes (text : String) : String :=
  String.ofList (dropCodes text.toList)

example : withoutCodes "\x1b[34mret\x1b[0m \x1b[1m" = "ret \x1b[1m" := by
  decide +kernel

theorem dropCodes_nil : dropCodes [] = [] := by
  rw [dropCodes]

theorem dropCodes_code {code : List Char} (h : code ∈ escapeCodes) (rest : List Char) :
    dropCodes (code ++ rest) = dropCodes rest := by
  simp only [escapeCodes, List.map_cons, List.map_nil, List.mem_cons, List.not_mem_nil,
    or_false] at h
  rcases h with rfl | rfl | rfl | rfl
  all_goals
    show dropCodes ('\x1b' :: _) = _
    rw [dropCodes]
    rfl

theorem dropCodes_cons {c : Char} (h : c ≠ '\x1b') (rest : List Char) :
    dropCodes (c :: rest) = c :: dropCodes rest := by
  have hstart : ∀ code ∈ escapeCodes, ¬code.isPrefixOf (c :: rest) = true := by
    have hescape : ∀ code ∈ escapeCodes, code.head? = some '\x1b' := by decide
    intro code hcode hprefix
    obtain ⟨tail, htail⟩ := List.isPrefixOf_iff_prefix.mp hprefix
    have hhead := congrArg List.head? htail
    rw [List.head?_append, hescape code hcode] at hhead
    exact h (Option.some.inj hhead).symm
  have hnone := List.find?_eq_none.mpr hstart
  rw [dropCodes, hnone]

/-- What has no codes is left alone. -/
theorem dropCodes_append {text : List Char} (h : '\x1b' ∉ text) (rest : List Char) :
    dropCodes (text ++ rest) = text ++ dropCodes rest := by
  induction text with
  | nil => rfl
  | cons c text ih =>
      simp only [List.mem_cons, not_or] at h
      rw [List.cons_append, dropCodes_cons (Ne.symm h.1), ih h.2, List.cons_append]

/-! ### Texts that are the same but for codes -/

/-- Without its codes, the coloured text is the plain one, whatever stands behind it. -/
def SameButCodes (coloured plain : String) : Prop :=
  ∀ rest, dropCodes (coloured.toList ++ rest) = plain.toList ++ dropCodes rest

namespace SameButCodes

variable {coloured plain coloured' plain' text : String}

theorem withoutCodes_eq (h : SameButCodes coloured plain) : withoutCodes coloured = plain := by
  have hall := h []
  rw [dropCodes_nil, List.append_nil, List.append_nil] at hall
  rw [withoutCodes, hall, String.ofList_toList]

theorem append (hfront : SameButCodes coloured plain) (hback : SameButCodes coloured' plain') :
    SameButCodes (coloured ++ coloured') (plain ++ plain') := by
  intro rest
  rw [String.toList_append, String.toList_append, List.append_assoc, hfront, hback,
    List.append_assoc]

theorem refl (h : Uncoded text) : SameButCodes text text :=
  dropCodes_append h

theorem code {code : String} (h : code.toList ∈ escapeCodes) : SameButCodes code "" :=
  dropCodes_code h

theorem blue : SameButCodes Palette.on.blue Palette.off.blue :=
  code (by decide)

theorem green : SameButCodes Palette.on.green Palette.off.green :=
  code (by decide)

theorem dim : SameButCodes Palette.on.dim Palette.off.dim :=
  code (by decide)

theorem reset : SameButCodes Palette.on.reset Palette.off.reset :=
  code (by decide)

theorem map {α : Type} {xs : List α} {f g : α → String}
    (h : ∀ x ∈ xs, SameButCodes (f x) (g x)) :
    List.Forall₂ SameButCodes (xs.map f) (xs.map g) := by
  rw [List.forall₂_map_left_iff, List.forall₂_map_right_iff, List.forall₂_same]
  exact h

theorem map_self {texts : List String} (h : ∀ text ∈ texts, Uncoded text) :
    List.Forall₂ SameButCodes texts texts :=
  List.forall₂_same.mpr fun text htext => refl (h text htext)

theorem join {texts texts' : List String} (h : List.Forall₂ SameButCodes texts texts') :
    SameButCodes (String.join texts) (String.join texts') := by
  induction h with
  | nil => exact refl (by decide)
  | cons hfirst _ ih =>
      rw [String.join_cons, String.join_cons]
      exact hfirst.append ih

end SameButCodes

end RegisterMachine
