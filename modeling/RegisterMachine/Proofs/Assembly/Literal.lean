/-
Which texts are numbers.

The syntax has a minus sign or none, then digits, which are hexadecimal behind `0x` and
decimal otherwise.  Such a text denotes an integer, and it is read exactly if the integer lies
between the least that two's complement has and the greatest that a word has.  No matter how
many digits there are: zeros in front are skipped, and whatever is too large is refused.

One thing more is read than the syntax has.  The reader of digits takes a plus sign before
them, and this is where the sign and the base have already been taken off; so the plus may
stand even behind these, as in `-+5` and `0x+5`.  `PlusSpelledAs` says which texts they are,
and `number_literals` that there are no others.
-/
import RegisterMachine.Proofs.Assembly.Spelling

namespace RegisterMachine

open Text (Numeral)

namespace Assembly

/-- The digits of a number with a plus sign before them, behind the mark of the base if it is
sixteen. -/
inductive PlusSpelledAs : Nat → List Char → Prop
  | decimal {n : Nat} {digits : List Char} (h : Numeral 10 n digits) :
      PlusSpelledAs n ('+' :: digits)
  | hex {n : Nat} {mark : Char} {digits : List Char} (hmark : mark = 'x' ∨ mark = 'X')
      (h : Numeral 16 n digits) : PlusSpelledAs n ('0' :: mark :: '+' :: digits)

/-- A text denotes an integer: a minus sign or none, and then what spells a magnitude. -/
inductive Literal (spelledAs : Nat → List Char → Prop) : Int → List Char → Prop
  | unsigned {n : Nat} {text : List Char} (h : spelledAs n text) : Literal spelledAs n text
  | negative {n : Nat} {text : List Char} (h : spelledAs n text) :
      Literal spelledAs (-n) ('-' :: text)

/-- The integers that a word can stand for, with or without a sign. -/
def InWordRange (i : Int) : Prop :=
  -0x80000000 ≤ i ∧ i < 0x100000000

namespace Value

/-- Reads a number, and reports the whole text if it is none. -/
def parseNumber (text : List Char) : Except Cause Word :=
  match readNumber? text with
  | some n => .ok n
  | none => .error (.invalidNumber (String.ofList text))

theorem parse_eq_parseNumber (text : List Char) :
    Value.parse text =
      if text.head?.any fun c => c.isDigit || c == '-' then (parseNumber text).map number
      else if isName text then .ok (label (String.ofList text))
      else .error (.invalidOperand (String.ofList text)) := by
  unfold Value.parse parseNumber
  cases readNumber? text <;> rfl

theorem parseNumber_eq_ok {text : List Char} {w : Word} :
    parseNumber text = .ok w ↔ readNumber? text = some w := by
  unfold parseNumber
  cases readNumber? text <;> simp

/-- **A magnitude is read exactly if it is spelled, with a plus sign or without.** -/
theorem readMagnitude?_eq_some {n : Nat} {text : List Char} :
    readMagnitude? text = some n ↔ MagnitudeSpelledAs n text ∨ PlusSpelledAs n text := by
  constructor
  · intro h
    have hhex : ∀ {mark : Char} {rest : List Char}, (mark = 'x' ∨ mark = 'X') →
        Text.readUnsigned? 16 rest = some n →
        MagnitudeSpelledAs n ('0' :: mark :: rest) ∨ PlusSpelledAs n ('0' :: mark :: rest) := by
      intro mark rest hmark hrest
      rcases (Text.readUnsigned?_eq_some (by decide)).mp hrest with hdigits | ⟨_, rfl, hdigits⟩
      · exact Or.inl (.hex hmark hdigits)
      · exact Or.inr (.hex hmark hdigits)
    unfold readMagnitude? at h
    split at h
    · exact hhex (Or.inl rfl) h
    · exact hhex (Or.inr rfl) h
    · rcases (Text.readUnsigned?_eq_some (by decide)).mp h with hdigits | ⟨_, rfl, hdigits⟩
      · exact Or.inl (.decimal hdigits)
      · exact Or.inr (.decimal hdigits)
  · rintro (h | h)
    · exact h.readMagnitude?
    · cases h with
      | decimal h => exact (Text.readDigits?_eq_some (by decide)).mpr h
      | hex hmark h =>
          rcases hmark with rfl | rfl <;> exact (Text.readDigits?_eq_some (by decide)).mpr h

theorem readMagnitude?_minus (digits : List Char) : readMagnitude? ('-' :: digits) = none := rfl

/-- The word of a magnitude, and the word of its negative in two's complement. -/
theorem toNat_eq_emod (n : Nat) : ((UInt32.ofNat n).toNat : Int) = (n : Int) % 0x100000000 := by
  rw [UInt32.toNat_ofNat']
  omega

theorem toNat_neg_eq_emod (n : Nat) :
    ((-UInt32.ofNat n).toNat : Int) = -(n : Int) % 0x100000000 := by
  rw [UInt32.toNat_neg, UInt32.toNat_ofNat', UInt32.size]
  omega

/-- **A number is read exactly if its magnitude is and it lies in range, and then as the word
that stands for it.** -/
theorem readNumber?_eq_some {text : List Char} {w : Word} :
    readNumber? text = some w ↔
      ∃ i, Literal (fun n digits => readMagnitude? digits = some n) i text ∧ InWordRange i ∧
        (w.toNat : Int) = i % 0x100000000 := by
  constructor
  · intro h
    unfold readNumber? at h
    split at h
    · obtain ⟨n, hn, rfl⟩ := Option.map_eq_some_iff.mp h
      obtain ⟨hread, hle⟩ := Option.filter_eq_some_iff.mp hn
      have hle : n ≤ 0x80000000 := of_decide_eq_true hle
      exact ⟨-n, .negative hread, ⟨by omega, by omega⟩, toNat_neg_eq_emod n⟩
    · obtain ⟨n, hn, rfl⟩ := Option.map_eq_some_iff.mp h
      obtain ⟨hread, hlt⟩ := Option.filter_eq_some_iff.mp hn
      have hlt : n < 0x100000000 := of_decide_eq_true hlt
      exact ⟨n, .unsigned hread, ⟨by omega, by omega⟩, toNat_eq_emod n⟩
  · rintro ⟨i, hliteral, ⟨hlow, hhigh⟩, hword⟩
    cases hliteral with
    | @unsigned n _ hread =>
        have hlt : n < UInt32.size := by unfold UInt32.size; omega
        obtain rfl : UInt32.ofNat n = w := by
          rw [← UInt32.toNat_inj, ← Int.ofNat_inj, hword]
          exact toNat_eq_emod n
        unfold readNumber?
        split
        · simp [readMagnitude?_minus] at hread
        · simp [hread, Option.filter, hlt]
    | @negative n digits hread =>
        have hle : n ≤ 0x80000000 := by omega
        obtain rfl : -UInt32.ofNat n = w := by
          rw [← UInt32.toNat_inj, ← Int.ofNat_inj, hword]
          exact toNat_neg_eq_emod n
        simp [readNumber?, hread, Option.filter, hle]

end Value

theorem literal_or {p q : Nat → List Char → Prop} {i : Int} {text : List Char} :
    Literal (fun n digits => p n digits ∨ q n digits) i text ↔
      Literal p i text ∨ Literal q i text := by
  constructor
  · rintro (h | h)
    · exact h.imp .unsigned .unsigned
    · exact h.imp .negative .negative
  · rintro (h | h)
    · cases h with
      | unsigned h => exact .unsigned (Or.inl h)
      | negative h => exact .negative (Or.inl h)
    · cases h with
      | unsigned h => exact .unsigned (Or.inr h)
      | negative h => exact .negative (Or.inr h)

theorem MagnitudeSpelledAs.plus_not_mem {n : Nat} {text : List Char}
    (h : MagnitudeSpelledAs n text) : '+' ∉ text := by
  have hdigit : ∀ d < 16, '+'.toLower ≠ d.digitChar := by decide
  cases h with
  | decimal h => exact h.not_mem fun d hd => hdigit d (Nat.lt_trans hd (by decide))
  | hex hmark h =>
      have hplus := h.not_mem hdigit
      rcases hmark with rfl | rfl <;> simpa using hplus

theorem PlusSpelledAs.plus_mem {n : Nat} {text : List Char} (h : PlusSpelledAs n text) :
    '+' ∈ text := by
  cases h <;> simp

/-- **Which texts are numbers.**

A text is read as a word exactly if it denotes an integer in range, as the syntax has it or with
a plus sign before the digits; the word is the integer modulo 2^32.  Every other text is
reported as it stands.  A text without a plus sign is therefore read exactly if the syntax has
it, and no text with one should be.

A value of a source that starts with a digit or a minus sign is read in this way. -/
theorem number_literals (text : List Char) :
    (∀ w, Value.parseNumber text = .ok w ↔
      ∃ i, (Literal MagnitudeSpelledAs i text ∨ Literal PlusSpelledAs i text) ∧ InWordRange i ∧
        (w.toNat : Int) = i % 0x100000000) ∧
    (Value.parseNumber text = .error (.invalidNumber (String.ofList text)) ↔
      ¬∃ w, Value.parseNumber text = .ok w) ∧
    (∀ i, Literal MagnitudeSpelledAs i text → '+' ∉ text) ∧
    (∀ i, Literal PlusSpelledAs i text → '+' ∈ text) ∧
    Value.parse text =
      if text.head?.any fun c => c.isDigit || c == '-' then
        (Value.parseNumber text).map .number
      else if isName text then .ok (.label (String.ofList text))
      else .error (.invalidOperand (String.ofList text)) := by
  refine ⟨fun w => ?_, ?_, fun i h => ?_, fun i h => ?_, Value.parse_eq_parseNumber text⟩
  · simp only [Value.parseNumber_eq_ok, Value.readNumber?_eq_some, Value.readMagnitude?_eq_some,
      literal_or]
  · unfold Value.parseNumber
    cases Value.readNumber? text <;> simp
  · cases h with
    | unsigned h => exact h.plus_not_mem
    | negative h => simpa using h.plus_not_mem
  · cases h with
    | unsigned h => exact h.plus_mem
    | negative h => exact List.mem_cons_of_mem _ h.plus_mem

/-- A plus sign behind the mark of the base is passed over, though the syntax has none. -/
theorem plus_sign_is_read :
    Value.parse ['0', 'x', '+', '5'] = .ok (.number 5) ∧
      ¬∃ i, Literal MagnitudeSpelledAs i ['0', 'x', '+', '5'] := by
  refine ⟨by decide, ?_⟩
  rintro ⟨i, hi⟩
  cases hi with
  | unsigned h => exact h.plus_not_mem (by decide)

end Assembly

end RegisterMachine
