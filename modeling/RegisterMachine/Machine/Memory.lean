/-
Guest memory.

A memory is a row of bytes of fixed length, all zero at first.  Only the bytes that are
not zero are stored, so a memory of two gigabytes costs no more than what the guest puts
there.  What a memory holds is told by `byte`; every access is checked as a whole against
the length, and one that does not fit changes nothing.
-/
import RegisterMachine.Machine.Fault
import Std.Data.TreeMap

namespace RegisterMachine

/-- A row of bytes of fixed length. -/
structure Memory where
  length : Nat
  /-- The bytes that are not zero, by address. -/
  cells : Std.TreeMap Nat UInt8

namespace Memory

def zeroed (length : Nat) : Memory := ⟨length, ∅⟩

/-- The byte at an address; beyond the memory there are only zeros. -/
def byte (m : Memory) (addr : Nat) : UInt8 :=
  m.cells.getD addr 0

/-- So many bytes from an address on. -/
def bytesAt (m : Memory) (addr size : Nat) : List UInt8 :=
  (List.range' addr size).map m.byte

/-- The memory with another byte at an address. -/
def setByte (m : Memory) (addr : Nat) (b : UInt8) : Memory :=
  { m with cells := if b = 0 then m.cells.erase addr else m.cells.insert addr b }

/-- The memory with other bytes from an address on. -/
def setBytes (m : Memory) (addr : Nat) : List UInt8 → Memory
  | [] => m
  | b :: rest => (m.setByte addr b).setBytes (addr + 1) rest

/-- Checks that an access of so many bytes stays inside the memory. -/
def checkAccess (m : Memory) (addr : Word) (size : Nat) : Except Fault Unit :=
  if addr.toNat + size ≤ m.length then .ok () else .error (.outOfBounds addr size m.length)

def slice (m : Memory) (addr : Word) (size : Nat) : Except Fault (List UInt8) := do
  m.checkAccess addr size
  return m.bytesAt addr.toNat size

def readWord (m : Memory) (addr : Word) : Except Fault Word := do
  m.checkAccess addr Word.byteCount
  let a := addr.toNat
  return Word.ofBytes (m.byte a) (m.byte (a + 1)) (m.byte (a + 2)) (m.byte (a + 3))

def writeWord (m : Memory) (addr value : Word) : Except Fault Memory := do
  m.checkAccess addr Word.byteCount
  return m.setBytes addr.toNat value.bytes

/-- The size of the longest instruction. -/
def windowSize : Nat := 6

/-- The bytes from which an instruction is decoded.

Only the first of them has to be inside the memory: near its end the window is shorter,
and the decoder finds out whether that is enough. -/
def window (m : Memory) (addr : Word) : Except Fault (List UInt8) := do
  m.checkAccess addr 1
  return m.bytesAt addr.toNat (min windowSize (m.length - addr.toNat))

/-- Copies an image to the front of the memory. -/
def loadImage (m : Memory) (image : List UInt8) : Except SetupError Memory :=
  if image.length ≤ m.length then .ok (m.setBytes 0 image)
  else .error (.imageTooLarge image.length m.length)

/-- The size of the rows in which a memory is shown. -/
def rowSize : Nat := 16

/-- The rows that hold a byte other than zero, by ascending address; the last row of a
memory may be shorter than the others. -/
def usedRows (m : Memory) : List (Nat × List UInt8) :=
  let starts := m.cells.keys.map fun a => a - a % rowSize
  (starts.eraseReps).map fun start =>
    (start, m.bytesAt start (min rowSize (m.length - start)))

/-! ### Bytes after a change -/

@[simp] theorem byte_zeroed (length addr : Nat) : (zeroed length).byte addr = 0 := by
  simp [zeroed, byte]

@[simp] theorem length_setByte (m : Memory) (addr : Nat) (b : UInt8) :
    (m.setByte addr b).length = m.length := rfl

theorem byte_setByte (m : Memory) (addr : Nat) (b : UInt8) (a : Nat) :
    (m.setByte addr b).byte a = if a = addr then b else m.byte a := by
  unfold setByte byte
  by_cases h : a = addr
  · subst h
    split <;> simp_all
  · split <;> simp [Std.TreeMap.getD_insert, Std.TreeMap.getD_erase, Ne.symm h]

@[simp] theorem length_setBytes (m : Memory) (addr : Nat) (bytes : List UInt8) :
    (m.setBytes addr bytes).length = m.length := by
  induction bytes generalizing m addr with
  | nil => rfl
  | cons b rest ih => rw [setBytes, ih, length_setByte]

/-- Writing puts the bytes in their places and leaves all others as they were. -/
theorem byte_setBytes (m : Memory) (addr : Nat) (bytes : List UInt8) (a : Nat) :
    (m.setBytes addr bytes).byte a =
      if addr ≤ a then bytes.getD (a - addr) (m.byte a) else m.byte a := by
  induction bytes generalizing m addr with
  | nil => simp [setBytes]
  | cons b rest ih =>
    rw [setBytes, ih, byte_setByte]
    by_cases h : a = addr
    · subst h
      rw [if_pos (Nat.le_refl a), if_neg (by omega), if_pos rfl, Nat.sub_self, List.getD_cons_zero]
    · by_cases hlt : addr ≤ a
      · have hsucc : a - addr = (a - (addr + 1)) + 1 := by omega
        rw [if_pos hlt, if_pos (by omega), if_neg h, hsucc, List.getD_cons_succ]
      · rw [if_neg hlt, if_neg (by omega), if_neg h]

end Memory

end RegisterMachine
