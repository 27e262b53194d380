/-
Numerals.

Numbers are read and written in base ten and base sixteen.  Writing takes the digits
that `Nat.toDigits` gives, padded with zeros on the left where a column needs a fixed
width; reading takes a non-empty run of digits of either case, with an optional plus
sign where `readUnsigned?` is used.
-/

namespace RegisterMachine.Text

/-- The value of a hexadecimal digit of either case. -/
def hexDigitValue? (c : Char) : Option Nat :=
  if '0' ≤ c ∧ c ≤ '9' then some (c.toNat - '0'.toNat)
  else if 'a' ≤ c ∧ c ≤ 'f' then some (c.toNat - 'a'.toNat + 10)
  else if 'A' ≤ c ∧ c ≤ 'F' then some (c.toNat - 'A'.toNat + 10)
  else none

/-- The value of a digit in the given base, at most sixteen. -/
def digitValue? (base : Nat) (c : Char) : Option Nat :=
  (hexDigitValue? c).filter (· < base)

/-- The number that a run of digits denotes, the most significant digit first. -/
def readDigits? (base : Nat) : List Char → Option Nat
  | [] => none
  | digits => digits.foldlM (fun n c => (digitValue? base c).map (base * n + ·)) 0

/-- Reads a run of digits that a single plus sign may precede. -/
def readUnsigned? (base : Nat) : List Char → Option Nat
  | '+' :: digits => readDigits? base digits
  | digits => readDigits? base digits

/-- The number's digits in base ten. -/
def decimal (n : Nat) : String :=
  String.ofList (Nat.toDigits 10 n)

/-- The number's lowercase digits in base sixteen, with zeros in front up to `width`. -/
def hexDigits (width n : Nat) : List Char :=
  (Nat.toDigits 16 n).leftpad width '0'

/-- The number in base sixteen behind the mark `0x`, with at least `width` digits. -/
def hex (width n : Nat) : String :=
  "0x" ++ String.ofList (hexDigits width n)

/-- A number with a sign, in base ten. -/
def signedDecimal (i : Int) : String :=
  if i < 0 then "-" ++ decimal i.natAbs else decimal i.natAbs

example : hex 8 26 = "0x0000001a" ∧ hex 1 300 = "0x12c" ∧ hex 2 7 = "0x07" := by decide

example : readDigits? 16 ['1', 'a', 'F'] = some 0x1af ∧ readDigits? 10 ['1', 'a'] = none := by
  decide

end RegisterMachine.Text
