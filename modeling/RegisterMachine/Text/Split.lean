/-
Cutting a text into pieces.

A text is cut at separators in three ways: into all the pieces between them, into
words (the pieces between blanks that are not empty) and in two at the first
separator.  Joining the pieces with the separator gives the text back, which is what
`intercalate_splitWhere` says.
-/
import RegisterMachine.Text.Blank

namespace RegisterMachine.Text

/-- The pieces between the characters that satisfy `sep`; there is always one more piece
than there are separators. -/
def splitWhere (sep : Char → Bool) (text : List Char) : List (List Char) :=
  text.foldr (fun c pieces => if sep c then [] :: pieces else pieces.modifyHead (c :: ·)) [[]]

/-- The lines of a text; a final line break is followed by an empty line. -/
def lines (text : List Char) : List (List Char) :=
  splitWhere (· == '\n') text

/-- The maximal runs of characters that are not blank. -/
def words (text : List Char) : List (List Char) :=
  (splitWhere isBlank text).filter (!·.isEmpty)

/-- The text before the first character that satisfies `sep` and the text after it. -/
def cutWhere? (sep : Char → Bool) (text : List Char) : Option (List Char × List Char) :=
  match text.dropWhile (!sep ·) with
  | [] => none
  | _ :: tail => some (text.takeWhile (!sep ·), tail)

/-- The text before the first occurrence of `sep` and the text after it. -/
def cutOn? (sep : List Char) : List Char → Option (List Char × List Char)
  | [] => if sep.isEmpty then some ([], []) else none
  | c :: text =>
    if sep.isPrefixOf (c :: text) then some ([], (c :: text).drop sep.length)
    else (cutOn? sep text).map fun (head, tail) => (c :: head, tail)

/-- Whether two texts are the same up to the case of ASCII letters. -/
def sameIgnoringCase (a b : List Char) : Bool :=
  a.map Char.toLower == b.map Char.toLower

/-! ### Laws of splitting -/

@[simp] theorem splitWhere_nil (sep : Char → Bool) : splitWhere sep [] = [[]] := rfl

theorem splitWhere_cons (sep : Char → Bool) (c : Char) (text : List Char) :
    splitWhere sep (c :: text) =
      if sep c then [] :: splitWhere sep text
      else (splitWhere sep text).modifyHead (c :: ·) := rfl

theorem splitWhere_ne_nil (sep : Char → Bool) (text : List Char) : splitWhere sep text ≠ [] := by
  induction text with
  | nil => simp
  | cons c text ih =>
    rw [splitWhere_cons]
    split
    · simp
    · cases h : splitWhere sep text with
      | nil => exact absurd h ih
      | cons _ _ => simp

/-- No piece holds a separator. -/
theorem not_sep_of_mem_splitWhere {sep : Char → Bool} {text piece : List Char}
    (h : piece ∈ splitWhere sep text) : ∀ c ∈ piece, sep c = false := by
  induction text generalizing piece with
  | nil => simp_all
  | cons x text ih =>
    rw [splitWhere_cons] at h
    split at h
    · rcases List.mem_cons.1 h with rfl | h
      · simp
      · exact ih h
    · rename_i hx
      cases hs : splitWhere sep text with
      | nil => exact absurd hs (splitWhere_ne_nil sep text)
      | cons p ps =>
        rw [hs, List.modifyHead_cons] at h
        rcases List.mem_cons.1 h with rfl | h
        · intro c hc
          rcases List.mem_cons.1 hc with rfl | hc
          · simpa using hx
          · exact ih (hs ▸ List.mem_cons_self) c hc
        · exact ih (hs ▸ List.mem_cons_of_mem _ h)

/-- Joining the pieces with the one separator gives the text back. -/
theorem intercalate_splitWhere (c : Char) (text : List Char) :
    [c].intercalate (splitWhere (· == c) text) = text := by
  induction text with
  | nil => simp [List.intercalate]
  | cons x text ih =>
    rw [splitWhere_cons]
    cases hs : splitWhere (· == c) text with
    | nil => exact absurd hs (splitWhere_ne_nil _ text)
    | cons p ps =>
      rw [hs] at ih
      by_cases hx : (x == c) = true
      · rw [if_pos hx, beq_iff_eq.1 hx]
        simp [List.intercalate, ← ih]
      · rw [if_neg hx, List.modifyHead_cons]
        cases ps <;> simp_all [List.intercalate]

/-- Cutting takes the separator away, so what follows is shorter than the text. -/
theorem length_of_cutWhere? {sep : Char → Bool} {text head tail : List Char}
    (h : cutWhere? sep text = some (head, tail)) : tail.length < text.length := by
  unfold cutWhere? at h
  split at h
  · contradiction
  · rename_i c rest heq
    obtain ⟨-, rfl⟩ := Prod.mk.inj (Option.some.inj h)
    have := (List.dropWhile_suffix (l := text) (!sep ·)).length_le
    rw [heq, List.length_cons] at this
    omega

end RegisterMachine.Text
