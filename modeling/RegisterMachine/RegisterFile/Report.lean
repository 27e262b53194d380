/-
How register values are reported.

A report lists all registers in order, either as lines for a reader or as a map from their names
to their values.  What the text of a map looks like is left to a `MapWriter`.
-/
import RegisterMachine.RegisterFile.Basic

namespace RegisterMachine

namespace RegisterFile

/-- The width to which register names are filled up in a report. -/
def nameWidth : Nat := 5

/-- The line of a report for one register. -/
def reportLine (f : RegisterFile) (r : Register) : String :=
  "\t" ++ String.ofList ((r.name.toList.map Char.toUpper).rightpad nameWidth ' ') ++ " = " ++
    Text.hex 8 (f.get r).toNat

def reportLines (f : RegisterFile) : List String :=
  "Registers:" :: Register.all.map f.reportLine

/-- The report as text; every line ends in a line break. -/
def report (f : RegisterFile) : String :=
  String.join (f.reportLines.map (· ++ "\n"))

/-- The names and values as the members of a map, in order. -/
def members (f : RegisterFile) : List (String × Word) :=
  Register.all.map fun r => (r.name, f.get r)

end RegisterFile

/-- A writer of maps from names to numbers: the text, or why there is none. -/
abbrev MapWriter := List (String × Word) → Except String String

namespace MapWriter

/-- A member of a JSON object. -/
def jsonMember (separator : String) (member : String × Word) : String :=
  "\"" ++ member.1 ++ "\"" ++ separator ++ Text.decimal member.2.toNat

/-- The text of a JSON object without blanks. -/
def compactText (members : List (String × Word)) : String :=
  "\x7b" ++ ",".intercalate (members.map (jsonMember ":")) ++ "\x7d"

/-- The text of a JSON object with one member on a line. -/
def prettyText (members : List (String × Word)) : String :=
  "\x7b\n" ++ ",\n".intercalate (members.map fun member => "  " ++ jsonMember ": " member) ++
    "\n\x7d"

/-- Writes a JSON object with one member on a line. -/
def pretty : MapWriter :=
  fun members => .ok (prettyText members)

end MapWriter

namespace RegisterFile

/-- The values as a JSON object without blanks. -/
def json (f : RegisterFile) : String :=
  MapWriter.compactText f.members

/-- The values as a JSON object with one member on a line. -/
def jsonPretty (f : RegisterFile) : String :=
  MapWriter.prettyText f.members

end RegisterFile

end RegisterMachine
