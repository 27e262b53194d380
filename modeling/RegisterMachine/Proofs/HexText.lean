/-
An image is read back from its text.

Reading an image looks at the words of a text and at nothing else (`toOption_parse`): lines
only say where an error is.  The words that are written are the bytes in two digits each, so
reading them gives the image (`parse_format`).
-/
import RegisterMachine.HexText
import RegisterMachine.Proofs.Except
import RegisterMachine.Proofs.Text.Numeral
import RegisterMachine.Proofs.Text.Split

namespace RegisterMachine

/-! ### Bytes as text -/

theorem length_byteText (b : UInt8) : (byteText b).toList.length = 2 := by
  rw [byteText, String.toList_ofList, Text.length_hexDigits (by decide) b.toNat_lt]

theorem isBlank_of_mem_byteText {b : UInt8} {c : Char} (h : c ∈ (byteText b).toList) :
    Text.isBlank c = false := by
  rw [byteText, String.toList_ofList] at h
  exact Text.isBlank_of_mem_hexDigits h

theorem not_mem_byteText {c : Char} (hdigit : ∀ d < 16, c ≠ d.digitChar) (b : UInt8) :
    c ∉ (byteText b).toList := by
  rw [byteText, String.toList_ofList]
  exact Text.not_mem_hexDigits hdigit

theorem newline_not_mem_byteText (b : UInt8) : '\n' ∉ (byteText b).toList :=
  not_mem_byteText (by decide) b

theorem toList_bytesText (raw : List UInt8) :
    (bytesText raw).toList = [' '].intercalate (raw.map fun b => (byteText b).toList) := by
  rw [bytesText, String.toList_intercalate, List.map_map]
  rfl

theorem not_mem_bytesText {c : Char} (hspace : c ≠ ' ') (hdigit : ∀ d < 16, c ≠ d.digitChar)
    (raw : List UInt8) : c ∉ (bytesText raw).toList := by
  refine Text.not_mem_toList_intercalate (by simpa using hspace) fun text htext => ?_
  obtain ⟨b, -, rfl⟩ := List.mem_map.mp htext
  exact not_mem_byteText hdigit b

theorem newline_not_mem_bytesText (raw : List UInt8) : '\n' ∉ (bytesText raw).toList :=
  not_mem_bytesText (by decide) (by decide) raw

theorem words_bytesText (raw : List UInt8) :
    Text.words (bytesText raw).toList = raw.map fun b => (byteText b).toList := by
  rw [toList_bytesText]
  refine Text.words_intercalate (by decide) fun piece hpiece => ?_
  obtain ⟨b, -, rfl⟩ := List.mem_map.mp hpiece
  refine ⟨List.ne_nil_of_length_pos ?_, fun x hx => isBlank_of_mem_byteText hx⟩
  rw [length_byteText]
  decide

namespace HexText

theorem readByte?_byteText (b : UInt8) : readByte? (byteText b).toList = some b := by
  have hlength := length_byteText b
  have hdigits : Text.readDigits? 16 (byteText b).toList = some b.toNat := by
    rw [byteText, String.toList_ofList]
    exact Text.readDigits?_toDigits (by decide) (by decide) _ b.toNat
  obtain ⟨high, low, hpair⟩ := List.length_eq_two.mp hlength
  rw [hpair] at hdigits ⊢
  rw [readByte?, hdigits]
  exact congrArg some UInt8.ofNat_toNat

theorem readByte?_of_not_digit {c : Char} (h : Text.hexDigitValue? c = none) (rest : List Char) :
    readByte? (c :: rest) = none := by
  unfold readByte?
  split
  · rename_i high low heq
    obtain ⟨rfl, -⟩ := List.cons.inj heq
    simp [Text.readDigits?, Text.digitValue?, h]
  · rfl

theorem map_fst_tokens (text : List Char) : (tokens text).map Prod.fst = Text.words text := by
  have hline : ∀ line : List Char × Nat,
      ((Text.words line.1).map (·, line.2)).map Prod.fst = Text.words line.1 := by
    intro line
    rw [List.map_map]
    exact List.map_id _
  rw [tokens, List.map_flatMap]
  simp only [hline]
  rw [← List.flatMap_map Prod.fst, List.zipIdx_map_fst, Text.flatMap_words_lines]

/-- **Reading looks at the words of a text**, and each has to be a byte. -/
theorem toOption_parse (text : String) :
    (parse text).toOption = (Text.words text.toList).mapM readByte? := by
  rw [parse, toOption_mapM, ← map_fst_tokens, List.mapM_map]
  congr 1
  funext token
  dsimp only [Function.comp]
  cases readByte? token.1 <;> rfl

/-- Every row ends in a line break, which is blank. -/
theorem words_format (bytes : List UInt8) :
    Text.words (format bytes).toList = bytes.map fun b => (byteText b).toList := by
  have hrows : ∀ rows : List (List UInt8),
      Text.words ((rows.map fun row => bytesText row ++ "\n").flatMap String.toList)
        = rows.flatten.map fun b => (byteText b).toList := by
    intro rows
    induction rows with
    | nil => rfl
    | cons row rows ih =>
        rw [List.map_cons, List.flatMap_cons, String.toList_append, List.append_assoc,
          List.flatten_cons, List.map_append, ← words_bytesText, ← ih]
        exact Text.words_append_cons (by decide) _ _
  rw [format, String.toList_join, hrows, flatten_rows]

/-- **An image is read back from what is written for it.** -/
theorem parse_format (bytes : List UInt8) : parse (format bytes) = .ok bytes := by
  rw [← toOption_eq_some, toOption_parse, words_format, List.mapM_map]
  have hread : readByte? ∘ (fun b => (byteText b).toList) = some := funext readByte?_byteText
  rw [hread]
  exact (List.mapM_pure (m := Option) (f := id)).trans (congrArg some (List.map_id bytes))

theorem parse_ne_ok {text : String} {c : Char} {rest : List Char} (htext : text.toList = c :: rest)
    (hblank : Text.isBlank c = false) (hdigit : Text.hexDigitValue? c = none)
    (bytes : List UInt8) : parse text ≠ .ok bytes := by
  intro hok
  obtain ⟨word, others, hwords⟩ := Text.words_cons_of_not_blank hblank rest
  have hread := toOption_parse text
  rw [hok, htext, hwords, List.mapM_cons] at hread
  have hnone : readByte? (c :: word) = none := readByte?_of_not_digit hdigit word
  rw [hnone] at hread
  exact nomatch hread

end HexText

end RegisterMachine
