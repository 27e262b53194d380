/-
Numerals are read back.

`Numeral` says which texts denote a number in a base: digits of either case, the most
significant first, with any zeros in front.  Reading such a text gives the number, by
induction on the digits, and nothing else is read as a number.  What is written as the digits
of a number is one of these texts: the last digit stands for its remainder and the digits
before it for its quotient.
-/
import RegisterMachine.Text.Blank
import RegisterMachine.Text.Numeral
import Mathlib.Algebra.Group.Nat.Defs
import Mathlib.Data.List.Induction

namespace RegisterMachine.Text

/-! ### Characters of ASCII -/

/-- A property of characters that holds outside ASCII need only be tried inside. -/
theorem forall_char {p : Char → Prop} (hascii : ∀ n < 128, p (Char.ofNat n))
    (hrest : ∀ c, 128 ≤ c.toNat → p c) (c : Char) : p c := by
  rcases Nat.lt_or_ge c.toNat 128 with hlt | hge
  · have h := hascii c.toNat hlt
    rwa [Char.ofNat_toNat] at h
  · exact hrest c hge

theorem toLower_of_le {c : Char} (h : 128 ≤ c.toNat) : c.toLower = c := by
  refine dif_neg fun hupper => ?_
  have hle : c.toNat ≤ 'Z'.toNat := hupper.2
  have hz : 'Z'.toNat = 90 := rfl
  omega

theorem toNat_lt_of_isAlpha {c : Char} (h : c.isAlpha = true) : c.toNat < 128 := by
  rcases (Bool.or_eq_true _ _).mp h with hupper | hlower
  · have hle : c.val ≤ 'Z'.val := (of_decide_eq_true hupper).2
    exact Nat.lt_of_le_of_lt (UInt32.le_iff_toNat_le.mp hle) (by decide)
  · have hle : c.val ≤ 'z'.val := of_decide_eq_true ((Bool.and_eq_true _ _).mp hlower).2
    exact Nat.lt_of_le_of_lt (UInt32.le_iff_toNat_le.mp hle) (by decide)

/-! ### Digits -/

/-- The character is a digit of the base and denotes the number; letters may be of either
case. -/
def DigitOf (base d : Nat) (c : Char) : Prop :=
  d < base ∧ c.toLower = d.digitChar

/-- The characters are digits that denote the number, the most significant first.  Zeros may
stand in front. -/
inductive Numeral (base : Nat) : Nat → List Char → Prop
  | digit {d : Nat} {c : Char} (h : DigitOf base d c) : Numeral base d [c]
  | append {n d : Nat} {front : List Char} {c : Char} (hfront : Numeral base n front)
      (h : DigitOf base d c) : Numeral base (base * n + d) (front ++ [c])

/-- A digit is a character of ASCII, so what is to be said of digits can be tried. -/
theorem DigitOf.forall {base d : Nat} {c : Char} {p : Nat → Char → Prop} (h : DigitOf base d c)
    (hbase : base ≤ 16)
    (hp : ∀ d < base, ∀ n < 128, (Char.ofNat n).toLower = d.digitChar → p d (Char.ofNat n)) :
    p d c := by
  have hascii : ∀ d < 16, d.digitChar.toNat < 128 := by decide
  have hd := hascii d (Nat.lt_of_lt_of_le h.1 hbase)
  rcases Nat.lt_or_ge c.toNat 128 with hlt | hge
  · have htried := hp d h.1 c.toNat hlt
    rw [Char.ofNat_toNat] at htried
    exact htried h.2
  · rw [← h.2, toLower_of_le hge] at hd
    omega

theorem digitValue?_of_digitOf {base d : Nat} {c : Char} (hbase : base ≤ 16)
    (h : DigitOf base d c) : digitValue? base c = some d := by
  have hvalue : ∀ d < 16, ∀ n < 128, (Char.ofNat n).toLower = d.digitChar →
      hexDigitValue? (Char.ofNat n) = some d := by decide +kernel
  have hdigit : hexDigitValue? c = some d :=
    h.forall (p := fun d c => hexDigitValue? c = some d) hbase fun d hd =>
      hvalue d (Nat.lt_of_lt_of_le hd hbase)
  rw [digitValue?, hdigit]
  simp [Option.filter, h.1]

theorem digitOf_digitChar {base d : Nat} (hd : d < base) (hbase : base ≤ 16) :
    DigitOf base d d.digitChar := by
  have hlower : ∀ d < 16, d.digitChar.toLower = d.digitChar := by decide
  exact ⟨hd, hlower d (Nat.lt_of_lt_of_le hd hbase)⟩

namespace Numeral

variable {base n : Nat} {digits : List Char}

theorem ne_nil (h : Numeral base n digits) : digits ≠ [] := by
  cases h <;> simp

theorem digitOf_of_mem (h : Numeral base n digits) {c : Char} (hc : c ∈ digits) :
    ∃ d, DigitOf base d c := by
  induction h with
  | digit h =>
      obtain rfl := List.mem_singleton.mp hc
      exact ⟨_, h⟩
  | append _ h ih =>
      rcases List.mem_append.mp hc with hc | hc
      · exact ih hc
      · obtain rfl := List.mem_singleton.mp hc
        exact ⟨_, h⟩

theorem not_mem (h : Numeral base n digits) {c : Char}
    (hc : ∀ d < base, c.toLower ≠ d.digitChar) : c ∉ digits := by
  intro hmem
  obtain ⟨d, hd, hlower⟩ := h.digitOf_of_mem hmem
  exact hc d hd hlower

theorem zero_cons (hbase : 0 < base) (hle : base ≤ 16) (h : Numeral base n digits) :
    Numeral base n ('0' :: digits) := by
  induction h with
  | digit h =>
      have hpair := (Numeral.digit (digitOf_digitChar hbase hle)).append h
      rwa [Nat.mul_zero, Nat.zero_add] at hpair
  | append _ h ih => exact ih.append h

theorem zeros (hbase : 0 < base) (hle : base ≤ 16) (h : Numeral base n digits) (zeros : Nat) :
    Numeral base n (List.replicate zeros '0' ++ digits) := by
  induction zeros with
  | zero => exact h
  | succ zeros ih => exact ih.zero_cons hbase hle

/-- **A number is read back from its digits, with any zeros in front.** -/
theorem readDigits? (hle : base ≤ 16) (h : Numeral base n digits) :
    Text.readDigits? base digits = some n := by
  have hread : digits.foldlM (fun n c => (digitValue? base c).map (base * n + ·)) 0 = some n := by
    induction h with
    | digit h => simp [digitValue?_of_digitOf hle h]
    | append _ h ih =>
        rw [List.foldlM_append, ih]
        simp [digitValue?_of_digitOf hle h]
  unfold Text.readDigits?
  split
  · exact absurd rfl h.ne_nil
  · exact hread

/-- The digits of a number start with no sign. -/
theorem readUnsigned? (hle : base ≤ 16) (h : Numeral base n digits) :
    Text.readUnsigned? base digits = some n := by
  have hplus : '+' ∉ digits := h.not_mem fun d hd => by
    have hchar : ∀ d < 16, '+'.toLower ≠ d.digitChar := by decide
    exact hchar d (by omega)
  unfold Text.readUnsigned?
  split
  · exact absurd List.mem_cons_self hplus
  · exact h.readDigits? hle

end Numeral

/-! ### Nothing else is read -/

theorem digitOf_of_digitValue? {base d : Nat} {c : Char} (h : digitValue? base c = some d) :
    DigitOf base d c := by
  obtain ⟨hdigit, hbase⟩ := Option.filter_eq_some_iff.mp h
  refine ⟨of_decide_eq_true hbase, ?_⟩
  have hascii : ∀ n < 128, ∀ d ∈ hexDigitValue? (Char.ofNat n),
      (Char.ofNat n).toLower = d.digitChar := by decide +kernel
  have hchar : ∀ d ∈ hexDigitValue? c, c.toLower = d.digitChar :=
    forall_char (p := fun c => ∀ d ∈ hexDigitValue? c, c.toLower = d.digitChar) hascii
      (fun c hc d hd => ?_) c
  · exact hchar d hdigit
  · -- No digit is outside ASCII.
    have hout : ∀ last : Char, last.toNat < 128 → ¬c ≤ last := fun last hlast hle => by
      have hle' : c.toNat ≤ last.toNat := hle
      omega
    simp [hexDigitValue?, hout '9' (by decide), hout 'f' (by decide), hout 'F' (by decide)] at hd

/-- **What is read as a number is a numeral, and denotes it.** -/
theorem readDigits?_eq_some {base : Nat} (hle : base ≤ 16) {digits : List Char} {n : Nat} :
    readDigits? base digits = some n ↔ Numeral base n digits := by
  refine ⟨fun h => ?_, Numeral.readDigits? hle⟩
  have hfold : ∀ {digits : List Char} {n : Nat}, digits ≠ [] →
      digits.foldlM (fun n c => (digitValue? base c).map (base * n + ·)) 0 = some n →
      Numeral base n digits := by
    intro digits
    -- The last digit is the one that is read last.
    induction digits using List.reverseRecOn with
    | nil => exact fun h => absurd rfl h
    | append_singleton front c ih =>
        intro n _ h
        rw [List.foldlM_append] at h
        obtain ⟨k, hfront, hlast⟩ := Option.bind_eq_some_iff.mp h
        simp only [List.foldlM_cons, List.foldlM_nil] at hlast
        obtain ⟨m, hm, hn⟩ := Option.bind_eq_some_iff.mp hlast
        obtain ⟨d, hd, rfl⟩ := Option.map_eq_some_iff.mp hm
        obtain rfl := Option.some.inj hn
        have hdigit := digitOf_of_digitValue? hd
        cases front with
        | nil =>
            obtain rfl : 0 = k := Option.some.inj hfront
            rw [Nat.mul_zero, Nat.zero_add]
            exact .digit hdigit
        | cons _ _ => exact .append (ih (by simp) hfront) hdigit
  unfold readDigits? at h
  split at h
  · contradiction
  · rename_i hne
    exact hfold hne h

/-- The digits of a number are read with a plus sign before them and without. -/
theorem readUnsigned?_eq_some {base n : Nat} (hle : base ≤ 16) {text : List Char} :
    readUnsigned? base text = some n ↔
      Numeral base n text ∨ ∃ digits, text = '+' :: digits ∧ Numeral base n digits := by
  constructor
  · intro h
    unfold readUnsigned? at h
    split at h
    · exact Or.inr ⟨_, rfl, (readDigits?_eq_some hle).mp h⟩
    · exact Or.inl ((readDigits?_eq_some hle).mp h)
  · rintro (h | ⟨digits, rfl, h⟩)
    · exact h.readUnsigned? hle
    · exact (readDigits?_eq_some hle).mpr h

/-! ### Written digits -/

theorem numeral_toDigits {base : Nat} (hbase : 1 < base) (hle : base ≤ 16) (n : Nat) :
    Numeral base n (Nat.toDigits base n) := by
  induction n using Nat.strongRecOn with
  | ind n ih =>
      by_cases hn : n < base
      · rw [Nat.toDigits_of_lt_base hn]
        exact .digit (digitOf_digitChar hn hle)
      · have hle' : base ≤ n := Nat.not_lt.mp hn
        have hlast : n % base < base := Nat.mod_lt n (by omega)
        rw [Nat.toDigits_of_base_le hbase hle']
        have h := (ih (n / base) (Nat.div_lt_self (by omega) hbase)).append
          (digitOf_digitChar hlast hle)
        rwa [Nat.div_add_mod] at h

theorem mem_toDigits {base n : Nat} (hbase : 1 < base) {c : Char} (h : c ∈ Nat.toDigits base n) :
    ∃ d < base, c = d.digitChar := by
  induction n using Nat.strongRecOn with
  | ind n ih =>
      by_cases hn : n < base
      · rw [Nat.toDigits_of_lt_base hn] at h
        exact ⟨n, hn, by simpa using h⟩
      · have hle : base ≤ n := Nat.not_lt.mp hn
        rw [Nat.toDigits_of_base_le hbase hle] at h
        rcases List.mem_append.mp h with hfront | hlast
        · exact ih (n / base) (Nat.div_lt_self (by omega) hbase) hfront
        · exact ⟨n % base, Nat.mod_lt n (by omega), by simpa using hlast⟩

theorem mem_hexDigits {width n : Nat} {c : Char} (h : c ∈ hexDigits width n) :
    ∃ d < 16, c = d.digitChar := by
  rcases List.mem_append.mp h with hzero | hdigit
  · exact ⟨0, by decide, List.eq_of_mem_replicate hzero⟩
  · exact mem_toDigits (by decide) hdigit

theorem not_mem_hexDigits {width n : Nat} {c : Char} (hc : ∀ d < 16, c ≠ d.digitChar) :
    c ∉ hexDigits width n := by
  intro hmem
  obtain ⟨d, hd, rfl⟩ := mem_hexDigits hmem
  exact hc d hd rfl

theorem isBlank_of_mem_hexDigits {width n : Nat} {c : Char} (h : c ∈ hexDigits width n) :
    isBlank c = false := by
  obtain ⟨d, hd, rfl⟩ := mem_hexDigits h
  have hdigit : ∀ d < 16, isBlank d.digitChar = false := by decide
  exact hdigit d hd

theorem readDigits?_toDigits {base : Nat} (hbase : 1 < base) (hle : base ≤ 16) (zeros n : Nat) :
    readDigits? base (List.replicate zeros '0' ++ Nat.toDigits base n) = some n :=
  ((numeral_toDigits hbase hle n).zeros (by omega) hle zeros).readDigits? hle

theorem numeral_hexDigits (width n : Nat) : Numeral 16 n (hexDigits width n) :=
  (numeral_toDigits (by decide) (by decide) n).zeros (by decide) (by decide) _

theorem readUnsigned?_hexDigits (width n : Nat) : readUnsigned? 16 (hexDigits width n) = some n :=
  (numeral_hexDigits width n).readUnsigned? (by decide)

theorem decimal_inj {m n : Nat} (h : decimal m = decimal n) : m = n := by
  have hdigits : Nat.toDigits 10 m = Nat.toDigits 10 n := by
    simpa [decimal] using congrArg String.toList h
  have hread := congrArg (readDigits? 10) hdigits
  rw [(numeral_toDigits (by decide) (by decide) m).readDigits? (by decide),
    (numeral_toDigits (by decide) (by decide) n).readDigits? (by decide)] at hread
  exact Option.some.inj hread

/-- A number that fits fills a column of hexadecimal digits exactly. -/
theorem length_hexDigits {width n : Nat} (hpos : 0 < width) (h : n < 16 ^ width) :
    (hexDigits width n).length = width := by
  have hle : (Nat.toDigits 16 n).length ≤ width :=
    (Nat.length_toDigits_le_iff (by decide) hpos).mpr h
  rw [hexDigits, List.length_leftpad]
  omega

end RegisterMachine.Text
