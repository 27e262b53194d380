/-
The hexadecimal text form of a program image.

An image is written as two-digit bytes with blanks between them, sixteen on a line.
Reading is freer about the layout: any blanks may separate the bytes, and the digits may
be of either case.
-/
import RegisterMachine.Instruction.Text

namespace RegisterMachine

/-- A word of the text that is not a byte of two digits. -/
structure HexError where
  /-- The number of the line it stands on, from 1. -/
  line : Nat
  /-- The word as written. -/
  token : String
  deriving DecidableEq

namespace HexError

def message (e : HexError) : String :=
  "line " ++ Text.decimal e.line ++ ": invalid hex byte `" ++ e.token ++ "`"

end HexError

namespace HexText

/-- The number of bytes on a line that is written. -/
def bytesPerLine : Nat := 16

/-- Reads a byte of exactly two digits. -/
def readByte? : List Char → Option UInt8
  | [high, low] => (Text.readDigits? 16 [high, low]).map UInt8.ofNat
  | _ => none

/-- The words of a text, each with the number of its line. -/
def tokens (text : List Char) : List (List Char × Nat) :=
  ((Text.lines text).zipIdx 1).flatMap fun (line, n) => (Text.words line).map (·, n)

/-- Reads an image; the first word that is not a byte is reported. -/
def parse (text : String) : Except HexError (List UInt8) :=
  (tokens text.toList).mapM fun (token, line) =>
    match readByte? token with
    | some byte => .ok byte
    | none => .error ⟨line, String.ofList token⟩

/-- The bytes in groups that fill a line, the last of which may be shorter. -/
def rows : List UInt8 → List (List UInt8)
  | [] => []
  | byte :: rest =>
    (byte :: rest.take (bytesPerLine - 1)) :: rows (rest.drop (bytesPerLine - 1))
termination_by bytes => bytes.length
decreasing_by
  rw [List.length_drop, List.length_cons]
  omega

/-- Writes an image; every line ends in a line break. -/
def format (bytes : List UInt8) : String :=
  String.join ((rows bytes).map fun row => bytesText row ++ "\n")

theorem flatten_rows (bytes : List UInt8) : (rows bytes).flatten = bytes := by
  fun_induction rows bytes with
  | case1 => rfl
  | case2 byte rest ih => simp [ih]

end HexText

end RegisterMachine
