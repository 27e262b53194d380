/-
Operands are read back.

A register is read back from its name, a number from its decimal digits or from `0x` and
hexadecimal digits, and a label from its name.  None is taken for another, because the
first character tells them apart: a digit starts a number, a bracket encloses a register,
and no register's name starts with a digit or a dot.

All of them are tokens: they hold no blank and no character that structures a line, so
they stay in one piece when the line around them is cut up.
-/
import RegisterMachine.Assembly.Line
import RegisterMachine.Proofs.Text.Numeral
import RegisterMachine.Proofs.Text.Split

namespace RegisterMachine

/-! ### Names of registers and operations -/

theorem Operation.ofMnemonic?_mnemonic (op : Operation) :
    ofMnemonic? op.mnemonic.toList = some op := by
  have h : ∀ op ∈ all, ofMnemonic? op.mnemonic.toList = some op := by decide
  exact h op (mem_all op)

namespace Register

theorem ofName?_name (r : Register) : ofName? r.name.toList = some r := by
  have h : ∀ r ∈ all, ofName? r.name.toList = some r := by decide
  exact h r (mem_all r)

theorem ofName?_eq_none {c : Char} {rest : List Char}
    (h : ∀ r ∈ all, r.name.toList.head?.map Char.toLower ≠ some c.toLower) :
    ofName? (c :: rest) = none := by
  rw [ofName?, List.find?_eq_none]
  intro r hr hsame
  rw [Text.sameIgnoringCase, beq_iff_eq] at hsame
  refine h r hr ?_
  rw [← List.head?_map, hsame]
  rfl

theorem ofName?_dot (rest : List Char) : ofName? ('.' :: rest) = none :=
  ofName?_eq_none (by decide)

theorem ofName?_digitChar {d : Nat} (hd : d < 10) (rest : List Char) :
    ofName? (d.digitChar :: rest) = none := by
  have h : ∀ d < 10, ∀ r ∈ all,
      r.name.toList.head?.map Char.toLower ≠ some d.digitChar.toLower := by decide
  exact ofName?_eq_none (h d hd)

end Register

namespace Assembly

/-! ### Tokens -/

/-- Whether a character neither separates words nor structures a line. -/
def isPlain (c : Char) : Bool :=
  !(Text.isBlank c || c == ',' || c == ':' || startsComment c)

/-- A word or an operand as it is printed. -/
def Token (text : List Char) : Prop :=
  text ≠ [] ∧ ∀ c ∈ text, isPlain c = true

theorem isPlain_iff {c : Char} :
    isPlain c = true ↔
      Text.isBlank c = false ∧ c ≠ ',' ∧ c ≠ ':' ∧ startsComment c = false := by
  simp [isPlain, and_assoc]

theorem isPlain_digitChar {d : Nat} (hd : d < 16) : isPlain d.digitChar = true := by
  have h : ∀ d < 16, isPlain d.digitChar = true := by decide
  exact h d hd

theorem Token.solidEnds {text : List Char} (h : Token text) : Text.SolidEnds text :=
  Text.SolidEnds.of_forall fun c hc => (isPlain_iff.mp (h.2 c hc)).1

theorem Token.newline_not_mem {text : List Char} (h : Token text) : '\n' ∉ text := by
  intro hmem
  exact absurd (h.2 '\n' hmem) (by decide)

theorem token_iff {text : List Char} :
    (!text.isEmpty && text.all isPlain) = true ↔ Token text := by
  rw [Token, Bool.and_eq_true, List.all_eq_true]
  simp

instance (text : List Char) : Decidable (Token text) :=
  decidable_of_iff _ token_iff

theorem isPlain_of_name {c : Char} (h : (startsName c || c.isDigit) = true) : isPlain c = true := by
  refine Text.forall_char (p := fun c => (startsName c || c.isDigit) = true → isPlain c = true)
    (by decide) (fun c hc hname => ?_) c h
  simp only [startsName, Bool.or_eq_true, beq_iff_eq] at hname
  rcases hname with ((halpha | rfl) | rfl) | hdigit
  · exact absurd (Text.toNat_lt_of_isAlpha halpha) (Nat.not_lt.mpr hc)
  · exact absurd hc (by decide)
  · exact absurd hc (by decide)
  · exact absurd (hc.trans (Char.isDigit_iff_toNat.mp hdigit).2) (by decide)

theorem token_of_isLabelName {name : List Char} (h : isLabelName name = true) : Token name := by
  rw [isLabelName, Bool.and_eq_true] at h
  cases name with
  | nil => exact absurd h.1 (by decide)
  | cons c rest =>
      rw [isName, Bool.and_eq_true, List.all_eq_true] at h
      refine ⟨List.cons_ne_nil c rest, fun x hx => isPlain_of_name ?_⟩
      rcases List.mem_cons.mp hx with rfl | hx
      · rw [h.1.1, Bool.true_or]
      · exact h.1.2 x hx

/-- A name that a source can define and use. -/
def Nameable (name : String) : Prop :=
  Token name.toList ∧ isLabelName name.toList = true

theorem nameable_iff {name : String} : Nameable name ↔ isLabelName name.toList = true :=
  ⟨And.right, fun h => ⟨token_of_isLabelName h, h⟩⟩

theorem token_mnemonic (op : Operation) : Token op.mnemonic.toList := by
  have h : ∀ op ∈ Operation.all, Token op.mnemonic.toList := by decide
  exact h op (Operation.mem_all op)

theorem token_name (r : Register) : Token r.name.toList := by
  have h : ∀ r ∈ Register.all, Token r.name.toList := by decide
  exact h r (Register.mem_all r)

theorem token_bracketed (r : Register) : Token ('[' :: (r.name.toList ++ [']'])) := by
  have h : ∀ r ∈ Register.all, Token ('[' :: (r.name.toList ++ [']'])) := by decide
  exact h r (Register.mem_all r)

theorem token_decimal (n : Nat) : Token (Text.decimal n).toList := by
  rw [Text.decimal, String.toList_ofList]
  refine ⟨Nat.toDigits_ne_nil, fun c hc => ?_⟩
  obtain ⟨d, hd, rfl⟩ := Text.mem_toDigits (by decide) hc
  exact isPlain_digitChar (Nat.lt_trans hd (by decide))

theorem toList_hex (width n : Nat) :
    (Text.hex width n).toList = '0' :: 'x' :: Text.hexDigits width n := by
  rw [Text.hex, String.toList_append, String.toList_ofList, String.toList_ofList]
  rfl

theorem token_hex (width n : Nat) : Token (Text.hex width n).toList := by
  rw [toList_hex]
  refine ⟨by simp, fun c hc => ?_⟩
  rcases List.mem_cons.mp hc with rfl | hc
  · decide
  · rcases List.mem_cons.mp hc with rfl | hc
    · decide
    · obtain ⟨d, hd, rfl⟩ := Text.mem_hexDigits hc
      exact isPlain_digitChar hd

/-! ### Values -/

theorem startsName_digitChar {d : Nat} (hd : d < 10) : startsName d.digitChar = false := by
  have h : ∀ d < 10, startsName d.digitChar = false := by decide
  exact h d hd

theorem eq_digitChar_of_isDigit {c : Char} (h : c.isDigit = true) :
    ∃ d < 10, c = d.digitChar := by
  have hdigit : ∀ n < 10, Char.ofNat (n + '0'.toNat) = n.digitChar := by decide
  obtain ⟨hlow, hhigh⟩ := Char.isDigit_iff_toNat.mp h
  have hsum : c.toNat - '0'.toNat + '0'.toNat = c.toNat := Nat.sub_add_cancel hlow
  have hlt : c.toNat - '0'.toNat < 10 := Nat.sub_lt_left_of_lt_add hlow (Nat.lt_succ_of_le hhigh)
  refine ⟨c.toNat - '0'.toNat, hlt, ?_⟩
  rw [← hdigit _ hlt, hsum, Char.ofNat_toNat]

theorem not_number_of_startsName {c : Char} (h : startsName c = true) :
    (c.isDigit || c == '-') = false := by
  rw [Bool.or_eq_false_iff, ← Bool.not_eq_true, beq_eq_false_iff_ne]
  constructor
  · intro hdigit
    obtain ⟨d, hd, rfl⟩ := eq_digitChar_of_isDigit hdigit
    rw [startsName_digitChar hd] at h
    exact absurd h (by decide)
  · rintro rfl
    exact absurd h (by decide)

namespace Value

/-- What is a name starts no number. -/
theorem parse_of_isName {text : List Char} (h : isName text = true) :
    Value.parse text = .ok (label (String.ofList text)) := by
  have hstart : ¬(text.head?.any fun c => c.isDigit || c == '-') = true := by
    cases text with
    | nil => simp
    | cons c rest =>
        rw [isName, Bool.and_eq_true] at h
        rw [List.head?_cons, Option.any_some, not_number_of_startsName h.1]
        exact Bool.false_ne_true
  rw [Value.parse, if_neg hstart, if_pos h]

theorem parse_of_digit {c : Char} {rest : List Char} {w : Word} (hc : c.isDigit = true)
    (h : readMagnitude? (c :: rest) = some w.toNat) :
    Value.parse (c :: rest) = .ok (number w) := by
  have hnumber : readNumber? (c :: rest) = some w := by
    unfold readNumber?
    split
    · rename_i digits heq
      rw [(List.cons.inj heq).1] at hc
      contradiction
    · rw [h]
      simp [Option.filter, w.toNat_lt_size]
  have hstart : ((c :: rest).head?.any fun c => c.isDigit || c == '-') = true := by simp [hc]
  rw [Value.parse, if_pos hstart, hnumber]

/-- A decimal numeral does not look like a hexadecimal one. -/
theorem readMagnitude?_of_numeral {n : Nat} {digits : List Char} (h : Text.Numeral 10 n digits) :
    readMagnitude? digits = some n := by
  have hmark : ∀ mark ∈ ['x', 'X'], mark ∉ digits := by
    intro mark hmark
    have hdigit : ∀ d < 10, 'x' ≠ d.digitChar := by decide
    rcases List.mem_pair.mp hmark with rfl | rfl
    · exact h.not_mem hdigit
    · exact h.not_mem hdigit
  unfold readMagnitude?
  split
  · exact absurd (by simp) (hmark 'x' (by simp))
  · exact absurd (by simp) (hmark 'X' (by simp))
  · exact h.readUnsigned? (by decide)

theorem parse_decimal (w : Word) :
    Value.parse (Text.decimal w.toNat).toList = .ok (number w) := by
  rw [Text.decimal, String.toList_ofList]
  have hread := readMagnitude?_of_numeral (Text.numeral_toDigits (by decide) (by decide) w.toNat)
  cases hdigits : Nat.toDigits 10 w.toNat with
  | nil => exact absurd hdigits Nat.toDigits_ne_nil
  | cons c rest =>
      have hmem : c ∈ Nat.toDigits 10 w.toNat := by simp [hdigits]
      rw [hdigits] at hread
      exact parse_of_digit (Nat.isDigit_of_mem_toDigits (by decide) (by decide) hmem) hread

theorem parse_hex (width : Nat) (w : Word) :
    Value.parse (Text.hex width w.toNat).toList = .ok (number w) := by
  have hread : readMagnitude? ('0' :: 'x' :: Text.hexDigits width w.toNat) = some w.toNat := by
    rw [readMagnitude?]
    exact Text.readUnsigned?_hexDigits width w.toNat
  rw [toList_hex]
  exact parse_of_digit (by decide) hread

end Value

namespace Argument

theorem parse_name (r : Register) : parse r.name.toList = .ok (reg r) := by
  have h : ∀ r ∈ Register.all, bracketed? r.name.toList = none := by decide
  rw [parse, h r (Register.mem_all r), Register.ofName?_name]

theorem parse_bracketed (r : Register) :
    parse ('[' :: (r.name.toList ++ [']'])) = .ok (deref r) := by
  have h : ∀ r ∈ Register.all, Text.trim r.name.toList = r.name.toList := by decide
  have hinner : bracketed? ('[' :: (r.name.toList ++ [']'])) = some r.name.toList := by
    simp [bracketed?]
  rw [parse, hinner]
  simp only [h r (Register.mem_all r), Register.ofName?_name]

theorem parse_cons {c : Char} {rest : List Char} (hbracket : c ≠ '[')
    (hname : Register.ofName? (c :: rest) = none) :
    parse (c :: rest) = (Value.parse (c :: rest)).map value := by
  have hnone : bracketed? (c :: rest) = none := by
    unfold bracketed?
    split
    · rename_i heq
      exact absurd (List.cons.inj heq).1 hbracket
    · rfl
  rw [parse, hnone]
  simp only [hname]

theorem parse_label {text : List Char} (h : isLabelName text = true) :
    parse text = .ok (value (.label (String.ofList text))) := by
  rw [isLabelName, Bool.and_eq_true, Option.isNone_iff_eq_none] at h
  obtain ⟨hname, hnone⟩ := h
  cases text with
  | nil => contradiction
  | cons c rest =>
      have hbracket : c ≠ '[' := by
        rintro rfl
        rw [isName, Bool.and_eq_true] at hname
        exact absurd hname.1 (by decide)
      rw [parse_cons hbracket hnone, Value.parse_of_isName hname]
      rfl

theorem parse_decimal (w : Word) :
    parse (Text.decimal w.toNat).toList = .ok (value (.number w)) := by
  have hvalue := Value.parse_decimal w
  rw [Text.decimal, String.toList_ofList] at hvalue ⊢
  cases hdigits : Nat.toDigits 10 w.toNat with
  | nil => exact absurd hdigits Nat.toDigits_ne_nil
  | cons c rest =>
      have hmem : c ∈ Nat.toDigits 10 w.toNat := by simp [hdigits]
      obtain ⟨d, hd, rfl⟩ := Text.mem_toDigits (by decide) hmem
      have hbracket : ∀ d < 10, d.digitChar ≠ '[' := by decide
      rw [hdigits] at hvalue
      rw [parse_cons (hbracket d hd) (Register.ofName?_digitChar hd rest), hvalue]
      rfl

theorem parse_hex (width : Nat) (w : Word) :
    parse (Text.hex width w.toNat).toList = .ok (value (.number w)) := by
  have hvalue := Value.parse_hex width w
  have hnone : Register.ofName? ('0' :: 'x' :: Text.hexDigits width w.toNat) = none :=
    Register.ofName?_digitChar (d := 0) (by decide) _
  rw [toList_hex] at hvalue ⊢
  rw [parse_cons (by decide) hnone, hvalue]
  rfl

end Argument

end Assembly

end RegisterMachine
