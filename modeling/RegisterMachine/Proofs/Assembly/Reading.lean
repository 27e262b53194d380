/-
Lines are read back.

A statement is written as a word and, behind blanks, its operands with commas between them;
`WrittenAs` leaves open how many blanks there are, and where.  When the word is a token and the
operands are phrases, texts without blank ends and without the characters that structure a
line, nothing in the line is taken for a comment or a label, and cutting it up gives the word
and the operands again, whatever stands around the statement.
-/
import RegisterMachine.Assembly.Program
import RegisterMachine.Proofs.Assembly.Operand
import RegisterMachine.Proofs.Except

namespace RegisterMachine.Assembly

open Text (Blanks blanks_nil)

/-! ### How a statement is written -/

/-- The text of an operand: it does not start or end with a blank, and holds no character that
structures a line. -/
structure Phrase (text : List Char) : Prop where
  nonempty : text ≠ []
  ends : Text.SolidEnds text
  chars : ∀ c ∈ text, isPlain c = true ∨ Text.isBlank c = true

theorem Token.phrase {text : List Char} (h : Token text) : Phrase text :=
  ⟨h.1, h.solidEnds, fun c hc => Or.inl (h.2 c hc)⟩

/-- Operands with commas between them; blanks may stand around a comma. -/
inductive Separated : List (List Char) → List Char → Prop
  | last (operand : List Char) : Separated [operand] operand
  | more {right left text : List Char} {operands : List (List Char)} (operand : List Char)
      (hright : Blanks right) (hleft : Blanks left) (h : Separated operands text) :
      Separated (operand :: operands) (operand ++ (right ++ ',' :: (left ++ text)))

/-- A word, and behind blanks its operands if there are any. -/
inductive WrittenAs (word : List Char) : List (List Char) → List Char → Prop
  | alone : WrittenAs word [] word
  | before {gap text : List Char} {operands : List (List Char)} (hgap : Blanks gap) (hne : gap ≠ [])
      (h : Separated operands text) : WrittenAs word operands (word ++ (gap ++ text))

/-- A text that a line can hold as its statement. -/
structure Inline (text : List Char) : Prop where
  nonempty : text ≠ []
  ends : Text.SolidEnds text
  chars : ∀ c ∈ text, isPlain c = true ∨ c = ',' ∨ Text.isBlank c = true

theorem Phrase.inline {text : List Char} (h : Phrase text) : Inline text :=
  ⟨h.nonempty, h.ends, fun c hc => (h.chars c hc).imp_right Or.inr⟩

theorem Inline.append {front middle back : List Char} (hfront : Inline front)
    (hmiddle : ∀ c ∈ middle, c = ',' ∨ Text.isBlank c = true) (hback : Inline back) :
    Inline (front ++ (middle ++ back)) where
  nonempty := by simp [hfront.nonempty]
  ends := hfront.ends.append middle hback.ends hfront.nonempty hback.nonempty
  chars c hc := by
    rcases List.mem_append.mp hc with hc | hc
    · exact hfront.chars c hc
    · rcases List.mem_append.mp hc with hc | hc
      · exact Or.inr (hmiddle c hc)
      · exact hback.chars c hc

theorem ne_of_isBlank {c : Char} (h : Text.isBlank c = true) :
    c ≠ ',' ∧ c ≠ ':' ∧ startsComment c = false := by
  have hne : ∀ d, Text.isBlank d = false → c ≠ d := by
    rintro _ hd rfl
    rw [h] at hd
    contradiction
  refine ⟨hne ',' (by decide), hne ':' (by decide), ?_⟩
  rw [startsComment, beq_false_of_ne (hne ';' (by decide)), beq_false_of_ne (hne '#' (by decide))]
  rfl

theorem Inline.ne {text : List Char} (h : Inline text) {c : Char} (hc : c ∈ text) :
    c ≠ ':' ∧ startsComment c = false := by
  rcases h.chars c hc with hplain | rfl | hblank
  · exact (isPlain_iff.mp hplain).2.2
  · decide
  · exact (ne_of_isBlank hblank).2

/-- No comment starts in a text. -/
def Uncommented (text : List Char) : Prop :=
  ∀ c ∈ text, startsComment c = false

theorem Uncommented.append {front back : List Char} (hfront : Uncommented front)
    (hback : Uncommented back) : Uncommented (front ++ back) :=
  List.forall_mem_append.mpr ⟨hfront, hback⟩

theorem Uncommented.takeWhile_append {text : List Char} (h : Uncommented text)
    (rest : List Char) :
    (text ++ rest).takeWhile (!startsComment ·) = text ++ rest.takeWhile (!startsComment ·) :=
  List.takeWhile_append_of_pos fun c hc => by simp [h c hc]

theorem uncommented_of_blanks {text : List Char} (h : Blanks text) : Uncommented text :=
  fun c hc => (ne_of_isBlank (h c hc)).2.2

theorem Token.uncommented {text : List Char} (h : Token text) : Uncommented text :=
  fun c hc => (isPlain_iff.mp (h.2 c hc)).2.2.2

theorem Inline.uncommented {text : List Char} (h : Inline text) : Uncommented text :=
  fun _ hc => (h.ne hc).2

variable {word text : List Char} {operands : List (List Char)}

theorem Separated.inline (h : Separated operands text) (hoperands : ∀ o ∈ operands, Phrase o) :
    Inline text := by
  induction h with
  | last operand => exact (hoperands operand List.mem_cons_self).inline
  | @more right left text operands operand hright hleft _ ih =>
      have hrest := ih fun o ho => hoperands o (List.mem_cons_of_mem _ ho)
      have hmiddle : ∀ c ∈ right ++ ',' :: left, c = ',' ∨ Text.isBlank c = true := by
        intro c hc
        rcases List.mem_append.mp hc with hc | hc
        · exact Or.inr (hright c hc)
        · rcases List.mem_cons.mp hc with rfl | hc
          · exact Or.inl rfl
          · exact Or.inr (hleft c hc)
      have happend := (hoperands operand List.mem_cons_self).inline.append hmiddle hrest
      rwa [List.append_assoc, List.cons_append] at happend

theorem WrittenAs.inline (h : WrittenAs word operands text) (hword : Token word)
    (hoperands : ∀ o ∈ operands, Phrase o) : Inline text := by
  cases h with
  | alone => exact hword.phrase.inline
  | before hgap hne h =>
      exact hword.phrase.inline.append (fun c hc => Or.inr (hgap c hc)) (h.inline hoperands)

/-- The operands are found again between the commas. -/
theorem Separated.map_trim_splitWhere (h : Separated operands text)
    (hoperands : ∀ o ∈ operands, Phrase o) :
    (Text.splitWhere (· == ',') text).map Text.trim = operands := by
  have hcomma : ∀ c, isPlain c = true ∨ Text.isBlank c = true → (c == ',') = false := by
    rintro c (hplain | hblank)
    · exact beq_false_of_ne (isPlain_iff.mp hplain).2.1
    · exact beq_false_of_ne (ne_of_isBlank hblank).1
  induction h with
  | last operand =>
      have hoperand := hoperands operand List.mem_cons_self
      rw [Text.splitWhere_of_forall fun c hc => hcomma c (hoperand.chars c hc), List.map_singleton,
        hoperand.ends.trim]
  | @more right left text operands operand hright hleft _ ih =>
      have hoperand := hoperands operand List.mem_cons_self
      have hfirst : ∀ c ∈ operand ++ right, (c == ',') = false := by
        intro c hc
        rcases List.mem_append.mp hc with hc | hc
        · exact hcomma c (hoperand.chars c hc)
        · exact hcomma c (Or.inr (hright c hc))
      rw [← List.append_assoc, Text.splitWhere_append (by decide) hfirst, List.map_cons,
        Text.trim_append_blanks operand hright, hoperand.ends.trim,
        Text.map_trim_splitWhere_append hleft fun c hc => hcomma c (Or.inr (hleft c hc)),
        ih fun o ho => hoperands o (List.mem_cons_of_mem _ ho)]

/-- The first word of a statement and its operands are found again. -/
theorem WrittenAs.cut (h : WrittenAs word operands text) (hword : Token word)
    (hoperands : ∀ o ∈ operands, Phrase o) :
    ∃ rest, (Text.cutWhere? Text.isBlank text).getD (text, []) = (word, rest) ∧
      Statement.splitOperands rest = operands := by
  have hblank : ∀ c ∈ word, Text.isBlank c = false :=
    fun c hc => (isPlain_iff.mp (hword.2 c hc)).1
  cases h with
  | alone =>
      rw [Text.cutWhere?_of_forall hblank]
      exact ⟨[], rfl, rfl⟩
  | @before gap text operands hgap hne h =>
      obtain ⟨blank, gap, rfl⟩ := List.exists_cons_of_ne_nil hne
      have hinline := h.inline hoperands
      have htrim : Text.trim (gap ++ text) = text := by
        rw [Text.trim_blanks_append fun c hc => hgap c (List.mem_cons_of_mem _ hc),
          hinline.ends.trim]
      have hnonempty : ¬text.isEmpty = true := by
        rw [List.isEmpty_iff]
        exact hinline.nonempty
      rw [List.cons_append, Text.cutWhere?_append (hgap blank List.mem_cons_self) hblank]
      refine ⟨gap ++ text, rfl, ?_⟩
      rw [Statement.splitOperands]
      simp only [htrim, if_neg hnonempty]
      exact h.map_trim_splitWhere hoperands

/-! ### Lines -/

/-- What may follow the rest of a line: nothing, or a comment. -/
def Comment (text : List Char) : Prop :=
  ∀ c ∈ text.head?, startsComment c = true

theorem comment_nil : Comment [] := by simp [Comment]

theorem comment_cons {c : Char} (h : startsComment c = true) (rest : List Char) :
    Comment (c :: rest) := by
  simpa [Comment] using h

namespace Line

variable {left right comment : List Char}

/-- A comment goes as far as its line does. -/
theorem uncomment_append (h : Uncommented text) (hcomment : Comment comment) :
    uncomment (text ++ comment) = Text.trim text := by
  have hdrop : comment.takeWhile (!startsComment ·) = [] := by
    cases comment with
    | nil => rfl
    | cons c comment => simp [hcomment c rfl]
  rw [uncomment, h.takeWhile_append, hdrop, List.append_nil]

theorem splitLabels_of_forall {text : List Char} (h : ∀ c ∈ text, (c == ':') = false) :
    splitLabels text = .ok ([], text) := by
  have hnone : Text.cutWhere? (· == ':') text = none := Text.cutWhere?_of_forall h
  rw [splitLabels]
  split
  · rfl
  · rename_i hcut
    rw [hnone] at hcut
    contradiction

/-- A name before a colon is the label of what follows. -/
theorem splitLabels_append {name rest : List Char} (hlabel : isLabelName name = true)
    (hright : Blanks right) :
    splitLabels (name ++ right ++ ':' :: rest)
      = (splitLabels (Text.trim rest)).map fun r => (String.ofList name :: r.1, r.2) := by
  have htoken := token_of_isLabelName hlabel
  have hcolon : ∀ c ∈ name ++ right, (c == ':') = false := by
    intro c hc
    rcases List.mem_append.mp hc with hc | hc
    · exact beq_false_of_ne (isPlain_iff.mp (htoken.2 c hc)).2.2.1
    · exact beq_false_of_ne (ne_of_isBlank (hright c hc)).2.1
  have hcut : Text.cutWhere? (· == ':') (name ++ right ++ ':' :: rest)
      = some (name ++ right, rest) := Text.cutWhere?_append (by decide) hcolon
  have htrim : Text.trim (name ++ right) = name := by
    rw [Text.trim_append_blanks name hright, htoken.solidEnds.trim]
  have hword : ¬name.any Text.isBlank = true := by
    rw [List.any_eq_true]
    rintro ⟨c, hc, hblank⟩
    rw [(isPlain_iff.mp (htoken.2 c hc)).1] at hblank
    contradiction
  rw [splitLabels]
  split
  · rename_i hnone
    rw [hcut] at hnone
    contradiction
  · rename_i head tail hsome
    obtain ⟨rfl, rfl⟩ := Prod.mk.inj (Option.some.inj (hcut.symm.trans hsome))
    simp only [htrim, if_neg hword, if_pos hlabel]
    cases splitLabels (Text.trim rest) <;> rfl

/-- A line that says nothing. -/
def blank : Line := ⟨[], none⟩

theorem parse_blank (hleft : Blanks left) (hcomment : Comment comment) :
    Line.parse (left ++ comment) = .ok blank := by
  have hlabels : splitLabels (uncomment (left ++ comment)) = .ok ([], []) := by
    rw [uncomment_append (uncommented_of_blanks hleft) hcomment, Text.trim_of_blanks hleft]
    exact splitLabels_of_forall (by simp)
  rw [Line.parse, hlabels]
  rfl

theorem parse_nil : Line.parse [] = .ok blank :=
  parse_blank blanks_nil comment_nil

/-- A comment behind a label is a comment of what follows the label. -/
theorem uncomment_label {name : List Char} (hleft : Blanks left) (htoken : Token name)
    (hright : Blanks right) (tail : List Char) :
    ∃ rest, uncomment (left ++ (name ++ right ++ ':' :: tail)) = name ++ right ++ ':' :: rest ∧
      Text.trim rest = uncomment tail := by
  have hcolon : Uncommented [':'] := List.forall_mem_singleton.mpr (by decide)
  have hfront : Uncommented (left ++ (name ++ right ++ [':'])) :=
    (uncommented_of_blanks hleft).append
      ((htoken.uncommented.append (uncommented_of_blanks hright)).append hcolon)
  have hhead : ∀ x ∈ (name ++ right).head?, Text.isBlank x = false := by
    rw [List.head?_append_of_ne_nil _ htoken.1]
    exact htoken.solidEnds.1
  obtain ⟨rest, htrim, hrest⟩ := Text.exists_trim_append hhead (by simp [htoken.1])
    (show Text.isBlank ':' = false by decide) (tail.takeWhile (!startsComment ·))
  refine ⟨rest, ?_, hrest⟩
  have hsplit : left ++ (name ++ right ++ ':' :: tail)
      = left ++ (name ++ right ++ [':']) ++ tail := by simp
  rw [uncomment, hsplit, hfront.takeWhile_append, ← htrim, List.append_assoc,
    Text.trim_blanks_append hleft, List.append_assoc (name ++ right)]
  rfl

/-- **A label in front of a line is one more label of what the line says.** -/
theorem parse_label_append {name : List Char} (hleft : Blanks left)
    (hlabel : isLabelName name = true) (hright : Blanks right) (tail : List Char) :
    Line.parse (left ++ (name ++ right ++ ':' :: tail))
      = (Line.parse tail).map fun line => ⟨String.ofList name :: line.labels, line.statement?⟩ := by
  obtain ⟨rest, huncomment, hrest⟩ :=
    uncomment_label hleft (token_of_isLabelName hlabel) hright tail
  rw [Line.parse, huncomment, splitLabels_append hlabel hright, hrest, Line.parse]
  cases splitLabels (uncomment tail) with
  | error cause => rfl
  | ok split =>
      obtain ⟨labels, rest⟩ := split
      show (if rest.isEmpty = true then _ else _)
        = Except.map _ (if rest.isEmpty = true then _ else _)
      split
      · rfl
      · cases Statement.parse rest <;> rfl

theorem parse_label {name : List Char} (hlabel : isLabelName name = true) :
    Line.parse (name ++ [':']) = .ok ⟨[String.ofList name], none⟩ := by
  have hparse := parse_label_append blanks_nil hlabel blanks_nil []
  rwa [List.append_nil, List.nil_append, parse_nil] at hparse

/-- A text without a label in front is read as a statement, with blanks around it and a comment
behind it. -/
theorem parse_inline (hleft : Blanks left) (h : Inline text) (hright : Blanks right)
    (hcomment : Comment comment) :
    Line.parse (left ++ (text ++ right) ++ comment)
      = (Statement.parse text).map fun s => ⟨[], some s⟩ := by
  have hfront : Uncommented (left ++ (text ++ right)) :=
    (uncommented_of_blanks hleft).append (h.uncommented.append (uncommented_of_blanks hright))
  have huncomment : uncomment (left ++ (text ++ right) ++ comment) = text := by
    rw [uncomment_append hfront hcomment, h.ends.trim_between hleft hright]
  have hlabels : splitLabels text = .ok ([], text) :=
    splitLabels_of_forall fun c hc => beq_false_of_ne (h.ne hc).1
  rw [Line.parse, huncomment, hlabels]
  simp only [bind, Except.bind, List.isEmpty_iff, if_neg h.nonempty]
  cases Statement.parse text <;> rfl

end Line

/-! ### Statements -/

namespace Statement

theorem parse_instr {op : Operation} {args : List Argument} (h : WrittenAs word operands text)
    (hword : Token word) (hoperands : ∀ o ∈ operands, Phrase o)
    (hop : Operation.ofMnemonic? word = some op) (hdot : word.head? ≠ some '.')
    (hargs : operands.mapM Argument.parse = .ok args) :
    Statement.parse text = .ok (instr op args) := by
  obtain ⟨rest, hcut, hrest⟩ := h.cut hword hoperands
  rw [Statement.parse, hcut]
  simp only [hrest]
  split
  · exact absurd rfl hdot
  · rw [hop, hargs]
    rfl

theorem parse_directive {d : Directive} {name operand : List Char} {v : Value}
    (h : WrittenAs ('.' :: name) [operand] text) (hword : Token ('.' :: name))
    (hoperand : Phrase operand) (hname : Directive.ofName? name = some d)
    (hvalue : Value.parse operand = .ok v) : Statement.parse text = .ok (directive d v) := by
  obtain ⟨rest, hcut, hrest⟩ := h.cut hword (List.forall_mem_singleton.mpr hoperand)
  rw [Statement.parse, hcut]
  simp only [hrest, parseDirective, hname, hvalue]
  rfl

end Statement

/-! ### What is printed -/

/-- A statement as it is printed, with a space behind the word and behind every comma. -/
def written (word : List Char) : List (List Char) → List Char
  | [] => word
  | operand :: operands => word ++ ' ' :: [',', ' '].intercalate (operand :: operands)

theorem separated_intercalate (operand : List Char) (operands : List (List Char)) :
    Separated (operand :: operands) ([',', ' '].intercalate (operand :: operands)) := by
  induction operands generalizing operand with
  | nil =>
      rw [List.intercalate_singleton]
      exact .last operand
  | cons next operands ih =>
      rw [List.intercalate_cons_cons, List.append_assoc]
      have hspace : Blanks [' '] := List.forall_mem_singleton.mpr (by decide)
      exact .more operand blanks_nil hspace (ih next)

theorem writtenAs_written (word : List Char) (operands : List (List Char)) :
    WrittenAs word operands (written word operands) := by
  cases operands with
  | nil => exact .alone
  | cons operand operands =>
      have hspace : Blanks [' '] := List.forall_mem_singleton.mpr (by decide)
      exact .before hspace (by simp) (separated_intercalate operand operands)

theorem Line.parse_written (hword : Token word) (h : ∀ o ∈ operands, Token o) :
    Line.parse (written word operands)
      = (Statement.parse (written word operands)).map fun s => ⟨[], some s⟩ := by
  have hinline := (writtenAs_written word operands).inline hword fun o ho => (h o ho).phrase
  have hparse := parse_inline blanks_nil hinline blanks_nil comment_nil
  rwa [List.append_nil, List.append_nil, List.nil_append] at hparse

/-! ### Sources -/

/-- What the lines of a source say, one by one. -/
def ReadsAs (source : String) (lines : List Line) : Prop :=
  (Text.lines source.toList).map Line.parse = lines.map .ok

theorem readNumbered_eq_ok {texts : List (List Char)} {n : Nat} {numbered : List (Line × Nat)} :
    (texts.zipIdx n).mapM (fun (text, n) => (onLine n (Line.parse text)).map (·, n)) = .ok numbered
      ↔ ∃ lines : List Line, texts.map Line.parse = lines.map .ok ∧ numbered = lines.zipIdx n := by
  induction texts generalizing n numbered with
  | nil =>
      rw [List.zipIdx_nil, mapM_nil_eq_ok]
      constructor
      · rintro rfl
        exact ⟨[], rfl, rfl⟩
      · rintro ⟨lines, hnone, rfl⟩
        rw [List.map_eq_nil_iff.mp hnone.symm]
        rfl
  | cons text texts ih =>
      rw [List.zipIdx_cons, mapM_cons_eq_ok]
      simp only [map_eq_ok, onLine_eq_ok]
      constructor
      · rintro ⟨_, rest, ⟨line, hline, rfl⟩, hrest, rfl⟩
        obtain ⟨lines, hlines, rfl⟩ := ih.mp hrest
        exact ⟨line :: lines, by rw [List.map_cons, List.map_cons, hline, hlines], rfl⟩
      · rintro ⟨_ | ⟨line, lines⟩, hlines, rfl⟩
        · contradiction
        · obtain ⟨hline, hrest⟩ := List.cons.inj hlines
          exact ⟨(line, n), _, ⟨line, hline, rfl⟩, ih.mpr ⟨lines, hrest, rfl⟩, rfl⟩

/-- **A source is read line by line.**  Lines are counted from 1. -/
theorem parseLines_eq_ok {source : String} {numbered : List (Line × Nat)} :
    parseLines source = .ok numbered ↔ ∃ lines, ReadsAs source lines ∧ numbered = lines.zipIdx 1 :=
  readNumbered_eq_ok

/-- A source that is put together from lines; its last line break is followed by an empty
line. -/
theorem parseLines_flatMap {α : Type} {pieces : List α} {text : α → List Char} {line : α → Line}
    (hbreak : ∀ p ∈ pieces, '\n' ∉ text p) (h : ∀ p ∈ pieces, Line.parse (text p) = .ok (line p)) :
    parseLines (String.ofList ((pieces.map text).flatMap (· ++ ['\n'])))
      = .ok ((pieces.map line ++ [Line.blank]).zipIdx 1) := by
  have hlines : Text.lines ((pieces.map text).flatMap (· ++ ['\n'])) = pieces.map text ++ [[]] := by
    refine Text.lines_flatMap fun piece hpiece => ?_
    obtain ⟨p, hp, rfl⟩ := List.mem_map.mp hpiece
    exact hbreak p hp
  refine parseLines_eq_ok.mpr ⟨_, ?_, rfl⟩
  rw [ReadsAs, String.toList_ofList, hlines]
  simp only [List.map_append, List.map_map, List.map_cons, List.map_nil, Line.parse_nil]
  exact congrArg (· ++ _) (List.map_congr_left h)

end RegisterMachine.Assembly
