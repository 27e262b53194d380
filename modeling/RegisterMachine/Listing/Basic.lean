/-
Listings.

A listing shows the rows of an image under a header for each of its two sections.  A row
whose address has a label stands below a line with the name, and a call or jump to such
an address shows the name in place of the number.  Names come from a label table, or are
made up: `.l1`, `.l2` and so on, in the order of their addresses, for every instruction
that some row calls or jumps to.
-/
import RegisterMachine.Instruction.Text
import RegisterMachine.LabelTable
import RegisterMachine.Listing.Row

namespace RegisterMachine

inductive ListingLine where
  | blank
  | header (name : String)
  | label (name : String)
  /-- A row, with the name to show for its branch target. -/
  | row (row : Row) (targetName? : Option String)
  deriving DecidableEq

namespace ListingLine

/-- What a row says: its instruction, or the byte as a directive. -/
def content (p : Palette) (row : Row) (targetName? : Option String) : String :=
  match row.instr? with
  | some i => i.render p targetName?
  | none => ".byte 0x" ++ String.join (row.raw.map byteText)

/-- The line as text, without its line break. -/
def render (p : Palette) : ListingLine → String
  | blank => ""
  | header name => p.blue ++ "[" ++ name ++ "]" ++ p.reset
  | label name => Columns.label p name
  | row r targetName? => Columns.row p r.addr r.raw (content p r targetName?)

end ListingLine

namespace Listing

/-- The prefix of the names that are made up. -/
def autoLabelPrefix : String := ".l"

/-- The addresses of the instructions that some row calls or jumps to, in ascending order. -/
def branchedTo (rows : List Row) : List Word :=
  let targets := rows.filterMap Row.branchTarget?
  (rows.filter fun row => row.instr?.isSome && targets.contains row.addr).map Row.addr

/-- The names made up for the rows of an image. -/
def autoLabels (rows : List Row) : LabelTable :=
  ((branchedTo rows).zipIdx 1).foldl
    (fun table (addr, n) => table.insert addr (autoLabelPrefix ++ Text.decimal n)) .empty

/-- The lines that open a section, if one starts at the given offset.  They go by the offset and
not by the address, which tells the two sections from what lies 2^32 bytes behind them. -/
def sectionLines (offset : Nat) : List ListingLine :=
  if offset = 0 then [.header "trampoline"]
  else if offset = slotSize then [.blank, .header "code"]
  else []

/-- The lines for one row. -/
def rowLines (labels : LabelTable) (row : Row) : List ListingLine :=
  sectionLines row.offset ++ ((labels.get? row.addr).map .label).toList ++
    [.row row (row.branchTarget?.bind labels.get?)]

/-- The lines for the rows of an image, with names from a label table. -/
def linesOf (labels : LabelTable) (rows : List Row) : List ListingLine :=
  rows.flatMap (rowLines labels)

/-- The listing of an image with names from a label table. -/
def withLabels (labels : LabelTable) (image : List UInt8) : List ListingLine :=
  linesOf labels (Row.sweep image)

/-- The listing of an image with names made up for its branch targets. -/
def withAutoLabels (image : List UInt8) : List ListingLine :=
  let rows := Row.sweep image
  linesOf (autoLabels rows) rows

/-- The text of a listing; every line ends in a line break. -/
def text (p : Palette) (listing : List ListingLine) : String :=
  String.join (listing.map fun line => line.render p ++ "\n")

end Listing

end RegisterMachine
