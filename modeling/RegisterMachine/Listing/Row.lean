/-
The rows of a listing.

An image is disassembled from front to back: where an instruction can be decoded it
makes one row, and where none can, a single byte does.  The slot before the entry point
and the code behind it are swept apart from each other, so that a damaged slot cannot
shift the code.  No byte is lost: the raw bytes of the rows, one after another, are the
image (`raw_sweep`).

An offset is a number without bound, and the address of a row is its offset cut to a word.  In
an image of less than 2^32 bytes they are the same.  In a longer one, which no memory has room
for, addresses start again from zero; the headers of a listing and the bytes of a row go by the
offset there, where words alone would begin the sections anew and show the front of the image
again.
-/
import RegisterMachine.Instruction.Encoding
import RegisterMachine.Slot

namespace RegisterMachine

/-- One row of a listing: an instruction, or a byte that starts none. -/
structure Row where
  /-- The offset of the row in the image. -/
  offset : Nat
  raw : List UInt8
  /-- The instruction that the bytes hold. -/
  instr? : Option Instruction
  deriving DecidableEq

namespace Row

/-- The address of the row. -/
def addr (row : Row) : Word :=
  UInt32.ofNat row.offset

/-- The address that the row's instruction calls or jumps to. -/
def branchTarget? (row : Row) : Option Word :=
  row.instr?.bind Instr.branchTarget?

/-- The rows of a section that starts at the given offset. -/
def sweepFrom (offset : Nat) : List UInt8 → List Row
  | [] => []
  | byte :: rest =>
    match Instr.decode (byte :: rest) with
    | .ok i =>
      ⟨offset, (byte :: rest).take i.size, some i⟩ ::
        sweepFrom (offset + i.size) ((byte :: rest).drop i.size)
    | .error _ => ⟨offset, [byte], none⟩ :: sweepFrom (offset + 1) rest
termination_by bytes => bytes.length
decreasing_by
  · have := i.size_pos
    simp only [List.length_drop, List.length_cons]
    omega
  · simp

def sweep (image : List UInt8) : List Row :=
  sweepFrom 0 (image.take slotSize) ++ sweepFrom slotSize (image.drop slotSize)

theorem raw_sweepFrom (offset : Nat) (bytes : List UInt8) :
    (sweepFrom offset bytes).flatMap raw = bytes := by
  fun_induction sweepFrom offset bytes with
  | case1 => rfl
  | case2 offset byte rest i _ ih => rw [List.flatMap_cons, ih, List.take_append_drop]
  | case3 offset byte rest _ _ ih => rw [List.flatMap_cons, ih]; rfl

/-- The rows hold the bytes of the image in order. -/
theorem raw_sweep (image : List UInt8) : (sweep image).flatMap raw = image := by
  rw [sweep, List.flatMap_append, raw_sweepFrom, raw_sweepFrom, List.take_append_drop]

end Row

end RegisterMachine
