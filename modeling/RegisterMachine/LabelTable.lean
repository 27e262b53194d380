/-
Label tables.

A label table names addresses, at most one name for each.  Its text form has one label
on a line, by ascending address: eight hexadecimal digits, three spaces and the name.
Reading skips blank lines, and of several names for one address the last stands.
-/
import RegisterMachine.Text.Numeral
import RegisterMachine.Text.Split
import RegisterMachine.WordMap

namespace RegisterMachine

/-- The names of addresses. -/
abbrev LabelTable := WordMap String

/-- Why a text is not a label table. -/
inductive LabelError where
  /-- A line does not have the separator between address and name. -/
  | malformed (line : Nat)
  /-- The part before the separator is not an address. -/
  | invalidAddress (line : Nat) (addr : String)
  deriving DecidableEq

namespace LabelError

def message : LabelError → String
  | malformed line => "line " ++ Text.decimal line ++ ": expected `ADDR   NAME`"
  | invalidAddress line addr =>
    "line " ++ Text.decimal line ++ ": invalid address `" ++ addr ++ "`"

end LabelError

namespace LabelTable

/-- The three spaces between an address and its name. -/
def separator : String := "   "

/-- The lowest address with the given name. -/
def addressOf? (table : LabelTable) (name : String) : Option Word :=
  (table.entries.find? fun entry => entry.2 == name).map Prod.fst

/-- Reads an address: hexadecimal digits that denote a word. -/
def readAddress? (text : List Char) : Option Word :=
  ((Text.readUnsigned? 16 text).filter (· < UInt32.size)).map UInt32.ofNat

/-- Puts the label of a numbered line into the table, if the line has one. -/
def addLine (table : LabelTable) (line : List Char × Nat) : Except LabelError LabelTable :=
  let text := Text.trim line.1
  if text.isEmpty then .ok table
  else
    match Text.cutOn? separator.toList text with
    | none => .error (.malformed line.2)
    | some (addr, name) =>
      match readAddress? (Text.trim addr) with
      | none => .error (.invalidAddress line.2 (String.ofList addr))
      | some a => .ok (table.insert a (String.ofList (Text.trim name)))

def parse (text : String) : Except LabelError LabelTable :=
  ((Text.lines text.toList).zipIdx 1).foldlM addLine .empty

/-- The line that stands for one label. -/
def formatEntry (entry : Word × String) : String :=
  String.ofList (Text.hexDigits 8 entry.1.toNat) ++ separator ++ entry.2 ++ "\n"

/-- Writes a table; every line ends in a line break. -/
def format (table : LabelTable) : String :=
  String.join (table.entries.map formatEntry)

end LabelTable

end RegisterMachine
