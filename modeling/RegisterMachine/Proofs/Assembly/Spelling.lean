/-
Every spelling of a line is read alike.

A line may be written in many ways: names in either case, numbers in either base and with or
without a sign, blanks around everything, and a comment at the end.  `Line.SpelledAs` says
which texts these are, part by part and without a reader: a label is a name, a colon and the
rest of the line, a statement is a word and its operands, and so on down to the digits.

Reading undoes the cuts in the order in which the parts were put together, because no part
holds a character at which it could be cut too early: the word and the operands are phrases,
and every name and number is a token.

Nothing but a name can keep a line from being written: `Line.writable_iff`.
-/
import RegisterMachine.Proofs.Assembly.Reading

namespace RegisterMachine

/-! ### Names in either case -/

namespace Text

theorem sameIgnoringCase_iff {a b : List Char} :
    sameIgnoringCase a b = true ↔ a.map Char.toLower = b.map Char.toLower :=
  beq_iff_eq

theorem head?_ne_of_same {own text : List Char} {c : Char} (h : sameIgnoringCase own text = true)
    (hc : own.head?.map Char.toLower ≠ some c.toLower) : text.head? ≠ some c := by
  intro hhead
  rw [← List.head?_map, sameIgnoringCase_iff.mp h, List.head?_map, hhead] at hc
  exact hc rfl

theorem find?_sameIgnoringCase {α : Type} (all : List α) (name : α → String) {own text : List Char}
    (h : sameIgnoringCase own text = true) :
    all.find? (fun x => sameIgnoringCase (name x).toList text)
      = all.find? fun x => sameIgnoringCase (name x).toList own := by
  refine congrArg (all.find? ·) (funext fun x => ?_)
  rw [sameIgnoringCase, sameIgnoringCase, sameIgnoringCase_iff.mp h]

end Text

theorem Operation.ofMnemonic?_of_same {op : Operation} {text : List Char}
    (h : Text.sameIgnoringCase op.mnemonic.toList text = true) : ofMnemonic? text = some op :=
  (Text.find?_sameIgnoringCase all mnemonic h).trans (ofMnemonic?_mnemonic op)

theorem Register.ofName?_of_same {r : Register} {text : List Char}
    (h : Text.sameIgnoringCase r.name.toList text = true) : ofName? text = some r :=
  (Text.find?_sameIgnoringCase all name h).trans (ofName?_name r)

namespace Assembly

theorem Directive.ofName?_of_same {d : Directive} {text : List Char}
    (h : Text.sameIgnoringCase d.name.toList text = true) : ofName? text = some d := by
  refine (Text.find?_sameIgnoringCase all name h).trans ?_
  cases d <;> decide

open Text (Blanks Numeral DigitOf blanks_nil)

theorem isPlain_toLower (c : Char) : isPlain c.toLower = isPlain c :=
  Text.forall_char (p := fun c => isPlain c.toLower = isPlain c) (by decide)
    (fun c hc => by rw [Text.toLower_of_le hc]) c

theorem Token.of_same {name text : List Char} (h : Token name)
    (hsame : Text.sameIgnoringCase name text = true) : Token text := by
  have hlower := Text.sameIgnoringCase_iff.mp hsame
  refine ⟨?_, fun c hc => ?_⟩
  · rintro rfl
    exact h.1 (List.map_eq_nil_iff.mp hlower)
  · have hmem : c.toLower ∈ name.map Char.toLower := by
      rw [hlower]
      exact List.mem_map_of_mem hc
    obtain ⟨d, hd, hdc⟩ := List.mem_map.mp hmem
    rw [← isPlain_toLower, ← hdc, isPlain_toLower]
    exact h.2 d hd

/-! ### Numbers -/

/-- The digits of a number, in base ten or behind `0x` in base sixteen. -/
inductive MagnitudeSpelledAs : Nat → List Char → Prop
  | decimal {n : Nat} {digits : List Char} (h : Numeral 10 n digits) : MagnitudeSpelledAs n digits
  | hex {n : Nat} {mark : Char} {digits : List Char} (hmark : mark = 'x' ∨ mark = 'X')
      (h : Numeral 16 n digits) : MagnitudeSpelledAs n ('0' :: mark :: digits)

/-- A word as a number, or with a minus sign as the two's complement of one. -/
inductive NumberSpelledAs : Word → List Char → Prop
  | unsigned {w : Word} {text : List Char} (h : MagnitudeSpelledAs w.toNat text) :
      NumberSpelledAs w text
  | negative {n : Nat} {text : List Char} (h : MagnitudeSpelledAs n text) (hle : n ≤ 0x80000000) :
      NumberSpelledAs (-UInt32.ofNat n) ('-' :: text)

theorem isPlain_of_digitOf {base d : Nat} {c : Char} (hbase : base ≤ 16) (h : DigitOf base d c) :
    isPlain c = true := by
  rw [← isPlain_toLower, h.2]
  exact isPlain_digitChar (Nat.lt_of_lt_of_le h.1 hbase)

theorem isDigit_of_digitOf {d : Nat} {c : Char} (h : DigitOf 10 d c) : c.isDigit = true := by
  have hdigit : ∀ d < 10, ∀ n < 128, (Char.ofNat n).toLower = d.digitChar →
      (Char.ofNat n).isDigit = true := by decide +kernel
  exact h.forall (p := fun _ c => c.isDigit = true) (by decide) hdigit

namespace MagnitudeSpelledAs

variable {n : Nat} {text : List Char}

theorem readMagnitude? (h : MagnitudeSpelledAs n text) : Value.readMagnitude? text = some n := by
  cases h with
  | decimal h => exact Value.readMagnitude?_of_numeral h
  | hex hmark h =>
      rcases hmark with rfl | rfl <;> exact h.readUnsigned? (by decide)

theorem token (h : MagnitudeSpelledAs n text) : Token text := by
  cases h with
  | decimal h =>
      refine ⟨h.ne_nil, fun c hc => ?_⟩
      obtain ⟨d, hd⟩ := h.digitOf_of_mem hc
      exact isPlain_of_digitOf (by decide) hd
  | hex hmark h =>
      refine ⟨by simp, fun c hc => ?_⟩
      rcases List.mem_cons.mp hc with rfl | hc
      · decide
      · rcases List.mem_cons.mp hc with rfl | hc
        · rcases hmark with rfl | rfl <;> decide
        · obtain ⟨d, hd⟩ := h.digitOf_of_mem hc
          exact isPlain_of_digitOf (by decide) hd

theorem exists_digit (h : MagnitudeSpelledAs n text) :
    ∃ c rest d, text = c :: rest ∧ DigitOf 10 d c := by
  cases h with
  | decimal h =>
      obtain ⟨c, rest, rfl⟩ := List.exists_cons_of_ne_nil h.ne_nil
      obtain ⟨d, hd⟩ := h.digitOf_of_mem List.mem_cons_self
      exact ⟨c, rest, d, rfl, hd⟩
  | hex _ _ => exact ⟨_, _, 0, rfl, Text.digitOf_digitChar (by decide) (by decide)⟩

end MagnitudeSpelledAs

namespace NumberSpelledAs

variable {w : Word} {text : List Char}

theorem token (h : NumberSpelledAs w text) : Token text := by
  cases h with
  | unsigned h => exact h.token
  | negative h _ => exact ⟨by simp, List.forall_mem_cons.mpr ⟨by decide, h.token.2⟩⟩

theorem parse_value (h : NumberSpelledAs w text) : Value.parse text = .ok (.number w) := by
  cases h with
  | unsigned h =>
      obtain ⟨c, rest, d, rfl, hd⟩ := h.exists_digit
      exact Value.parse_of_digit (isDigit_of_digitOf hd) h.readMagnitude?
  | negative h hle =>
      rw [Value.parse, if_pos (by simp), Value.readNumber?, h.readMagnitude?]
      simp [Option.filter, hle]

/-- A number is no register and has no bracket. -/
theorem parse_argument (h : NumberSpelledAs w text) :
    Argument.parse text = .ok (.value (.number w)) := by
  have hvalue := h.parse_value
  cases h with
  | unsigned h =>
      obtain ⟨c, rest, d, rfl, hd⟩ := h.exists_digit
      have hbracket : c ≠ '[' := by
        rintro rfl
        exact absurd (isDigit_of_digitOf hd) (by decide)
      have hname : ∀ d < 10, ∀ r ∈ Register.all,
          r.name.toList.head?.map Char.toLower ≠ some d.digitChar := by decide
      have hnone : Register.ofName? (c :: rest) = none :=
        Register.ofName?_eq_none (by rw [hd.2]; exact hname d hd.1)
      rw [Argument.parse_cons hbracket hnone, hvalue]
      rfl
  | negative h _ =>
      rw [Argument.parse_cons (by decide) (Register.ofName?_eq_none (by decide)), hvalue]
      rfl

end NumberSpelledAs

/-! ### Operands -/

inductive Value.SpelledAs : Value → List Char → Prop
  | number {w : Word} {text : List Char} (h : NumberSpelledAs w text) : SpelledAs (.number w) text
  | label {name : List Char} (h : isLabelName name = true) :
      SpelledAs (.label (String.ofList name)) name

/-- A register in either case, alone or in brackets, or a value. -/
inductive Argument.SpelledAs : Argument → List Char → Prop
  | reg {r : Register} {name : List Char} (h : Text.sameIgnoringCase r.name.toList name = true) :
      SpelledAs (.reg r) name
  | deref {r : Register} {left name right : List Char} (hleft : Blanks left)
      (h : Text.sameIgnoringCase r.name.toList name = true) (hright : Blanks right) :
      SpelledAs (.deref r) ('[' :: (left ++ (name ++ right) ++ [']']))
  | value {v : Value} {text : List Char} (h : v.SpelledAs text) : SpelledAs (.value v) text

namespace Value.SpelledAs

variable {v : Value} {text : List Char}

theorem token (h : v.SpelledAs text) : Token text := by
  cases h with
  | number h => exact h.token
  | label h => exact token_of_isLabelName h

theorem parse (h : v.SpelledAs text) : Value.parse text = .ok v := by
  cases h with
  | number h => exact h.parse_value
  | label h =>
      rw [isLabelName, Bool.and_eq_true] at h
      exact Value.parse_of_isName h.1

end Value.SpelledAs

namespace Argument.SpelledAs

variable {a : Argument} {text : List Char}

theorem phrase (h : a.SpelledAs text) : Phrase text := by
  cases h with
  | @reg r name h => exact ((token_name r).of_same h).phrase
  | @deref r left name right hleft h hright =>
      have hname := (token_name r).of_same h
      refine ⟨by simp, ?_, ?_⟩
      · have hends : ∀ c ∈ ['[', ']'], Text.SolidEnds [c] := by
          intro c hc
          refine Text.SolidEnds.of_forall (List.forall_mem_singleton.mpr ?_)
          rcases List.mem_pair.mp hc with rfl | rfl <;> decide
        exact (hends '[' (by simp)).append _ (hends ']' (by simp)) (by simp) (by simp)
      · intro c hc
        rcases List.mem_cons.mp hc with rfl | hc
        · exact Or.inl (by decide)
        · simp only [List.mem_append, List.mem_singleton] at hc
          rcases hc with (hc | hc | hc) | rfl
          · exact Or.inr (hleft c hc)
          · exact Or.inl (hname.2 c hc)
          · exact Or.inr (hright c hc)
          · exact Or.inl (by decide)
  | value h => exact h.token.phrase

theorem parse (h : a.SpelledAs text) : Argument.parse text = .ok a := by
  cases h with
  | @reg r name h =>
      have hnone : bracketed? text = none := by
        unfold bracketed?
        split
        · have hhead : ∀ r ∈ Register.all,
              r.name.toList.head?.map Char.toLower ≠ some '['.toLower := by decide
          exact absurd rfl (Text.head?_ne_of_same h (hhead r (Register.mem_all r)))
        · rfl
      rw [Argument.parse, hnone, Register.ofName?_of_same h]
  | @deref r left name right hleft h hright =>
      have hinner : bracketed? ('[' :: (left ++ (name ++ right) ++ [']']))
          = some (left ++ (name ++ right)) := by simp [bracketed?]
      have htrim := ((token_name r).of_same h).solidEnds.trim_between hleft hright
      rw [Argument.parse, hinner]
      simp only [htrim, Register.ofName?_of_same h]
  | value h =>
      cases h with
      | number h => exact h.parse_argument
      | label h => exact Argument.parse_label h

end Argument.SpelledAs

/-! ### Statements and lines -/

/-- A mnemonic and operands, or a directive's name behind a dot and its value. -/
inductive Statement.SpelledAs : Statement → List Char → Prop
  | instr {op : Operation} {args : List Argument} {word text : List Char}
      {operands : List (List Char)} (hword : Text.sameIgnoringCase op.mnemonic.toList word = true)
      (hargs : List.Forall₂ Argument.SpelledAs args operands) (h : WrittenAs word operands text) :
      SpelledAs (.instr op args) text
  | directive {d : Directive} {v : Value} {name operand text : List Char}
      (hname : Text.sameIgnoringCase d.name.toList name = true) (hvalue : v.SpelledAs operand)
      (h : WrittenAs ('.' :: name) [operand] text) : SpelledAs (.directive d v) text

/-- Labels, each with a colon behind it, and then a statement or nothing, and maybe a comment.
Blanks may stand everywhere between them. -/
inductive Line.SpelledAs : Line → List Char → Prop
  | blank {left comment : List Char} (hleft : Blanks left) (hcomment : Comment comment) :
      SpelledAs Line.blank (left ++ comment)
  | statement {s : Statement} {left text right comment : List Char} (hleft : Blanks left)
      (h : s.SpelledAs text) (hright : Blanks right) (hcomment : Comment comment) :
      SpelledAs ⟨[], some s⟩ (left ++ (text ++ right) ++ comment)
  | label {line : Line} {left name right tail : List Char} (hleft : Blanks left)
      (hname : isLabelName name = true) (hright : Blanks right) (h : line.SpelledAs tail) :
      SpelledAs ⟨String.ofList name :: line.labels, line.statement?⟩
        (left ++ (name ++ right ++ ':' :: tail))

theorem token_directive {d : Directive} {name : List Char}
    (h : Text.sameIgnoringCase d.name.toList name = true) : Token ('.' :: name) := by
  have hname : Token d.name.toList := by cases d <;> decide
  exact ⟨by simp, List.forall_mem_cons.mpr ⟨by decide, (hname.of_same h).2⟩⟩

theorem phrase_of_forall₂ {args : List Argument} {operands : List (List Char)}
    (h : List.Forall₂ Argument.SpelledAs args operands) : ∀ o ∈ operands, Phrase o := by
  induction h with
  | nil => simp
  | cons h _ ih => exact List.forall_mem_cons.mpr ⟨h.phrase, ih⟩

theorem mapM_parse_of_forall₂ {args : List Argument} {operands : List (List Char)}
    (h : List.Forall₂ Argument.SpelledAs args operands) :
    operands.mapM Argument.parse = .ok args := by
  induction h with
  | nil => rfl
  | cons h _ ih => exact mapM_cons_eq_ok.mpr ⟨_, _, h.parse, ih, rfl⟩

namespace Statement.SpelledAs

variable {s : Statement} {text : List Char}

theorem inline (h : s.SpelledAs text) : Inline text := by
  cases h with
  | @instr op args word text operands hword hargs h =>
      exact h.inline ((token_mnemonic op).of_same hword) (phrase_of_forall₂ hargs)
  | @directive d v name operand text hname hvalue h =>
      exact h.inline (token_directive hname) (List.forall_mem_singleton.mpr hvalue.token.phrase)

theorem parse (h : s.SpelledAs text) : Statement.parse text = .ok s := by
  cases h with
  | @instr op args word text operands hword hargs h =>
      have hdot : ∀ op ∈ Operation.all,
          op.mnemonic.toList.head?.map Char.toLower ≠ some '.'.toLower := by decide
      exact parse_instr h ((token_mnemonic op).of_same hword) (phrase_of_forall₂ hargs)
        (Operation.ofMnemonic?_of_same hword)
        (Text.head?_ne_of_same hword (hdot op (Operation.mem_all op))) (mapM_parse_of_forall₂ hargs)
  | @directive d v name operand text hname hvalue h =>
      exact parse_directive h (token_directive hname) hvalue.token.phrase
        (Directive.ofName?_of_same hname) hvalue.parse

end Statement.SpelledAs

/-- **Every spelling of a line is read as the line.** -/
theorem Line.SpelledAs.parse {line : Line} {text : List Char} (h : line.SpelledAs text) :
    Line.parse text = .ok line := by
  induction h with
  | blank hleft hcomment => exact Line.parse_blank hleft hcomment
  | statement hleft h hright hcomment =>
      rw [Line.parse_inline hleft h.inline hright hcomment, h.parse]
      rfl
  | label hleft hname hright _ ih =>
      rw [Line.parse_label_append hleft hname hright, ih]
      rfl

/-! ### Lines that can be written -/

def Value.Writable : Value → Prop
  | .number _ => True
  | .label name => Nameable name

def Argument.Writable : Argument → Prop
  | .value v => v.Writable
  | _ => True

def Statement.Writable : Statement → Prop
  | .instr _ args => ∀ a ∈ args, a.Writable
  | .directive _ v => v.Writable

/-- The labels that a line defines and those that it uses have names that a label can have. -/
structure Line.Writable (line : Line) : Prop where
  labels : ∀ name ∈ line.labels, Nameable name
  statement : ∀ s ∈ line.statement?, s.Writable

theorem Value.writable_iff {v : Value} : v.Writable ↔ ∃ text, v.SpelledAs text := by
  constructor
  · intro h
    cases v with
    | number w =>
        have hdigits : Numeral 10 w.toNat (Nat.toDigits 10 w.toNat) :=
          Text.numeral_toDigits (by decide) (by decide) w.toNat
        exact ⟨_, .number (.unsigned (.decimal hdigits))⟩
    | label name =>
        have hspelled := SpelledAs.label (nameable_iff.mp h)
        rw [String.ofList_toList] at hspelled
        exact ⟨_, hspelled⟩
  · rintro ⟨text, h | h⟩
    · trivial
    · rwa [Writable, nameable_iff, String.toList_ofList]

theorem Argument.writable_iff {a : Argument} : a.Writable ↔ ∃ text, a.SpelledAs text := by
  have hsame : ∀ r : Register, Text.sameIgnoringCase r.name.toList r.name.toList = true :=
    fun r => Text.sameIgnoringCase_iff.mpr rfl
  cases a with
  | reg r => exact iff_of_true trivial ⟨_, .reg (hsame r)⟩
  | deref r => exact iff_of_true trivial ⟨_, .deref blanks_nil (hsame r) blanks_nil⟩
  | value v =>
      rw [Writable, Value.writable_iff]
      constructor
      · rintro ⟨text, h⟩
        exact ⟨text, .value h⟩
      · rintro ⟨text, _ | _ | h⟩
        exact ⟨text, h⟩

theorem exists_forall₂_spelledAs {args : List Argument} :
    (∀ a ∈ args, a.Writable) ↔ ∃ operands, List.Forall₂ Argument.SpelledAs args operands := by
  induction args with
  | nil => exact iff_of_true (by simp) ⟨[], .nil⟩
  | cons a args ih =>
      rw [List.forall_mem_cons, ih, Argument.writable_iff]
      constructor
      · rintro ⟨⟨text, h⟩, operands, hrest⟩
        exact ⟨text :: operands, .cons h hrest⟩
      · rintro ⟨_, _ | ⟨h, hrest⟩⟩
        exact ⟨⟨_, h⟩, _, hrest⟩

theorem Statement.writable_iff {s : Statement} : s.Writable ↔ ∃ text, s.SpelledAs text := by
  cases s with
  | instr op args =>
      rw [Writable, exists_forall₂_spelledAs]
      constructor
      · rintro ⟨operands, hargs⟩
        exact ⟨_, .instr (Text.sameIgnoringCase_iff.mpr rfl) hargs (writtenAs_written _ operands)⟩
      · rintro ⟨_, ⟨_, hargs, _⟩⟩
        exact ⟨_, hargs⟩
  | directive d v =>
      rw [Writable, Value.writable_iff]
      constructor
      · rintro ⟨operand, hvalue⟩
        exact ⟨_, .directive (Text.sameIgnoringCase_iff.mpr rfl) hvalue (writtenAs_written _ _)⟩
      · rintro ⟨_, _ | ⟨_, hvalue, _⟩⟩
        exact ⟨_, hvalue⟩

/-- **Every line whose labels have names can be written**, and no other line can. -/
theorem Line.writable_iff {line : Line} : line.Writable ↔ ∃ text, line.SpelledAs text := by
  constructor
  · obtain ⟨labels, statement?⟩ := line
    rintro ⟨(hlabels : ∀ name ∈ labels, _), (hstatement : ∀ s ∈ statement?, _)⟩
    induction labels with
    | nil =>
        cases statement? with
        | none => exact ⟨_, .blank blanks_nil comment_nil⟩
        | some s =>
            obtain ⟨text, h⟩ := Statement.writable_iff.mp (hstatement s rfl)
            exact ⟨_, .statement blanks_nil h blanks_nil comment_nil⟩
    | cons name labels ih =>
        obtain ⟨hname, hlabels⟩ := List.forall_mem_cons.mp hlabels
        obtain ⟨tail, h⟩ := ih hlabels
        have hspelled := SpelledAs.label blanks_nil (nameable_iff.mp hname) blanks_nil h
        rw [String.ofList_toList] at hspelled
        exact ⟨_, hspelled⟩
  · rintro ⟨text, h⟩
    induction h with
    | blank => exact ⟨by simp [blank], by simp [blank]⟩
    | statement _ h _ _ =>
        refine ⟨by simp, fun s hs => ?_⟩
        obtain rfl := Option.some.inj hs
        exact Statement.writable_iff.mpr ⟨_, h⟩
    | label _ hname _ _ ih =>
        refine ⟨List.forall_mem_cons.mpr ⟨?_, ih.labels⟩, ih.statement⟩
        rwa [nameable_iff, String.toList_ofList]

end Assembly

end RegisterMachine
