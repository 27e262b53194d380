/-
From source to image.

The second pass turns every item into bytes, now that all labels have addresses, and
puts them one after another.  `assemble` starts an image at address 0; `assembleProgram`
first puts a jump to 0 into the slot where system calls enter.
-/
import RegisterMachine.Assembly.Layout
import RegisterMachine.Instruction.Encoding

namespace RegisterMachine.Assembly

inductive Piece where
  | bytes (bytes : List UInt8)
  /-- Zeros up to an address; nothing if the image has got there. -/
  | zerosTo (target : Word)
  deriving DecidableEq

namespace Piece

/-- The bytes of a piece that starts at the given offset. -/
def emit (offset : Nat) : Piece → List UInt8
  | bytes bs => bs
  | zerosTo target => List.replicate (target.toNat - offset) 0

/-- The bytes of pieces that lie one after another from the given offset on. -/
def emitAll (offset : Nat) : List Piece → List UInt8
  | [] => []
  | piece :: rest =>
    let bytes := piece.emit offset
    bytes ++ emitAll (offset + bytes.length) rest

end Piece

namespace Item

/-- The bytes of an item, its labels replaced by their addresses. -/
def resolve (defs : Definitions) : Item → Except Cause Piece
  | instr i => (i.mapExcept (Value.resolve defs)).map fun i => .bytes i.encode
  | word v => (v.resolve defs).map fun w => .bytes w.bytes
  | byte v => do
    let w ← v.resolve defs
    if w.toNat < 0x100 then return .bytes [w.lowByte] else .error (.byteOutOfRange w)
  | skip target => .ok (.zerosTo target)

end Item

structure Assembled where
  /-- The image, from address 0 on. -/
  bytes : List UInt8
  /-- The first label that the source defines at each address. -/
  labels : LabelTable
  deriving DecidableEq

def parseLines (source : String) : Except Error (List (Line × Nat)) :=
  ((Text.lines source.toList).zipIdx 1).mapM fun (text, n) =>
    (onLine n (Line.parse text)).map (·, n)

/-- Assembles a source behind the bytes that open the image.

All lines are read before any is placed, and all are placed before any is turned into
bytes, so an error of an earlier stage is reported before one of a later stage. -/
def assembleBehind (opening : List UInt8) (source : String) : Except Error Assembled := do
  let lines ← parseLines source
  let layout ← Layout.ofLines [] (UInt32.ofNat opening.length) lines
  let pieces ← layout.items.mapM fun placed => onLine placed.line (placed.item.resolve layout.defs)
  return ⟨opening ++ Piece.emitAll opening.length pieces, layout.labelTable⟩

/-- Assembles a source from address 0 on. -/
def assemble (source : String) : Except Error Assembled :=
  assembleBehind [] source

/-- The bytes of the slot where system calls enter: a jump to address 0. -/
def slotBytes : List UInt8 :=
  Instr.encode (.jump .always 0)

/-- Assembles a program: the slot, and the source from the entry point on. -/
def assembleProgram (source : String) : Except Error Assembled :=
  assembleBehind slotBytes source

end RegisterMachine.Assembly
