/-
Blank characters.

Blank is what the Unicode property `White_Space` says: tabs, line breaks, the space
and the wider spaces outside ASCII.  Trimming and splitting into words go by this
class, so a source file may be indented with any of them.
-/

namespace RegisterMachine.Text

/-- The ranges of the Unicode property `White_Space`, in ascending order. -/
def blankRanges : List (Nat × Nat) :=
  [(0x9, 0xd), (0x20, 0x20), (0x85, 0x85), (0xa0, 0xa0), (0x1680, 0x1680), (0x2000, 0x200a),
    (0x2028, 0x2029), (0x202f, 0x202f), (0x205f, 0x205f), (0x3000, 0x3000)]

/-- Whether a character separates words. -/
def isBlank (c : Char) : Bool :=
  blankRanges.any fun r => r.1 ≤ c.toNat && c.toNat ≤ r.2

/-- The text without the blanks at its two ends. -/
def trim (text : List Char) : List Char :=
  ((text.dropWhile isBlank).reverse.dropWhile isBlank).reverse

/-- Every character that core calls whitespace is blank. -/
theorem isBlank_of_isWhitespace {c : Char} (h : c.isWhitespace = true) : isBlank c = true := by
  simp only [Char.isWhitespace, Bool.or_eq_true, decide_eq_true_eq] at h
  rcases h with ((h | h) | h) | h <;> subst h <;> decide

/-- Trimming makes no text longer. -/
theorem length_trim_le (text : List Char) : (trim text).length ≤ text.length := by
  have h₁ := (List.dropWhile_suffix (l := text) isBlank).length_le
  have h₂ := (List.dropWhile_suffix (l := (text.dropWhile isBlank).reverse) isBlank).length_le
  rw [List.length_reverse] at h₂
  rw [trim, List.length_reverse]
  omega

example : (blankRanges.map fun r => r.2 - r.1 + 1).sum = 25 := by decide

example : isBlank '\u2003' = true ∧ isBlank '\u200b' = false ∧ isBlank '\x1f' = false := by decide

end RegisterMachine.Text
