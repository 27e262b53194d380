/-
Colours.

Printed text takes its escape codes from a palette.  The palette that is off has empty
codes, so that one set of printers serves both, and a text printed with it is the plain
text.
-/

namespace RegisterMachine

/-- The escape codes that printers use. -/
structure Palette where
  /-- Labels, section headers and the mnemonics of control transfers. -/
  blue : String
  /-- Immediates and changed register values. -/
  green : String
  /-- Addresses and raw bytes. -/
  dim : String
  /-- Ends a coloured stretch. -/
  reset : String
  deriving DecidableEq

namespace Palette

/-- The standard terminal codes. -/
def on : Palette := ⟨"\x1b[34m", "\x1b[32m", "\x1b[2m", "\x1b[0m"⟩

/-- No codes at all. -/
def off : Palette := ⟨"", "", "", ""⟩

@[simp] theorem off_blue : off.blue = "" := rfl

@[simp] theorem off_dim : off.dim = "" := rfl

@[simp] theorem off_reset : off.reset = "" := rfl

/-- The palette for coloured or for plain output. -/
def ofBool (colored : Bool) : Palette :=
  if colored then on else off

/-- The text in the given colour; an empty colour leaves it as it is. -/
def paint (p : Palette) (color text : String) : String :=
  if color.isEmpty then text else color ++ text ++ p.reset

end Palette

end RegisterMachine
