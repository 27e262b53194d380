/-
Instructions as text, and the columns they are printed in.

A listing and a trace print an instruction the same way:

    | 2 | address | 2 | raw bytes | 2 | mnemonic and operands |

The address takes ten characters and the raw bytes seventeen, which is what the six
bytes of the longest instruction need, so the last column always starts at the
thirty-fourth character.
-/
import RegisterMachine.Instruction.Encoding
import RegisterMachine.Palette

namespace RegisterMachine

/-- An address as it is printed: `0x` and eight lowercase digits. -/
def Word.addressText (w : Word) : String :=
  Text.hex 8 w.toNat

/-- Two lowercase hexadecimal digits for a byte. -/
def byteText (b : UInt8) : String :=
  String.ofList (Text.hexDigits 2 b.toNat)

/-- Bytes in hexadecimal with single spaces between them. -/
def bytesText (bytes : List UInt8) : String :=
  " ".intercalate (bytes.map byteText)

namespace Operand

/-- A source operand as assembly text; immediates are decimal. -/
def render (p : Palette) : Operand Word → String
  | reg r => r.name
  | imm value => p.paint p.green (Text.decimal value.toNat)

end Operand

namespace Instr

/-- The instruction as assembly text.  `targetName?` is shown for the address of a call or
jump. -/
def render (p : Palette) (targetName? : Option String) (i : Instruction) : String :=
  let mnemonic := i.operation.mnemonic
  match i with
  | load dst src => mnemonic ++ " " ++ dst.name ++ ", [" ++ src.name ++ "]"
  | store dst src => mnemonic ++ " [" ++ dst.name ++ "], " ++ src.name
  | mov dst src | alu _ dst src | cmp dst src =>
    mnemonic ++ " " ++ dst.name ++ ", " ++ src.render p
  | not reg | push reg | pop reg => mnemonic ++ " " ++ reg.name
  | call target | jump _ target =>
    p.blue ++ mnemonic ++ p.reset ++ " " ++ targetName?.getD target.addressText
  | ret => p.blue ++ mnemonic ++ p.reset

/-- The instruction as plain assembly text. -/
def text (i : Instruction) : String :=
  i.render .off none

end Instr

namespace Columns

/-- The width of the column that leads a line. -/
def indent : Nat := 2

/-- The width of an address. -/
def address : Nat := 10

/-- The width of the gap between columns. -/
def gap : Nat := 2

/-- The width of the raw bytes. -/
def bytes : Nat := 17

/-- The column at which the content of a line starts. -/
def content : Nat := indent + address + gap + bytes + gap

/-- So many spaces. -/
def spaces (n : Nat) : String :=
  String.ofList (List.replicate n ' ')

/-- A line with an address, the bytes found there and what they mean. -/
def row (p : Palette) (addr : Word) (raw : List UInt8) (text : String) : String :=
  let shown := bytesText raw
  spaces indent ++ p.dim ++ addr.addressText ++ p.reset ++ spaces gap ++
    p.dim ++ shown ++ spaces (bytes - shown.length) ++ p.reset ++ spaces gap ++ text

/-- A line that continues the content of the row above it. -/
def subline (text : String) : String :=
  spaces content ++ text

/-- A line that defines a label. -/
def label (p : Palette) (name : String) : String :=
  p.blue ++ name ++ p.reset ++ ":"

end Columns

end RegisterMachine
