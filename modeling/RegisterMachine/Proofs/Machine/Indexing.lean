/-
No index is ever out of range.

`Memory.byte` has an answer for every address and `List.take` one for every count, so the
machine as it is written does not show whether it asks for what is not there.  The strict
machine of this module does the same work with indexing that has no value out of range: a
span of memory only if it lies inside, an overwrite only with as many bytes as there is
room for, a byte or a front of a byte string only if the string is long enough.  Its
results are options, and `none` says that some index was out of range.

`stepStrict_eq` is the result: the strict machine always gets through, with what the machine
gives.  Three facts carry it.  An access is checked as a whole before its bytes are touched;
the decoder compares the size of the instruction with the number of bytes before it reads
operands; and so a decoded instruction fits into the window it came from.  Registers need
no such argument, as their numbers are bounded by their type.
-/
import RegisterMachine.Machine.Step
import RegisterMachine.Proofs.Machine.Effect

namespace RegisterMachine

/-- The first bytes of a byte string, if there are so many. -/
def front? (bytes : List UInt8) (count : Nat) : Option (List UInt8) :=
  if count ≤ bytes.length then some (bytes.take count) else none

/-! ### Memory -/

namespace Memory

variable (m : Memory) (addr : Word)

/-- The bytes between two addresses, if these bound a part of the memory. -/
def span? (start stop : Nat) : Option (List UInt8) :=
  if start ≤ stop ∧ stop ≤ m.length then some (m.bytesAt start (stop - start)) else none

/-- The memory with other bytes between two addresses, if these bound a part of the memory
with room for just so many bytes. -/
def overwrite? (start stop : Nat) (bytes : List UInt8) : Option Memory :=
  if (start ≤ stop ∧ stop ≤ m.length) ∧ bytes.length = stop - start then
    some (m.setBytes start bytes)
  else none

/-- The work behind the check of an access. -/
def guardedStrict {α : Type} (size : Nat) (work : Option α) : Option (Except Fault α) :=
  match m.checkAccess addr size with
  | .ok () => work.map .ok
  | .error fault => some (.error fault)

def sliceStrict (size : Nat) : Option (Except Fault (List UInt8)) :=
  m.guardedStrict addr size (m.span? addr.toNat (addr.toNat + size))

def readWordStrict : Option (Except Fault Word) :=
  m.guardedStrict addr Word.byteCount do
    let bytes ← m.span? addr.toNat (addr.toNat + Word.byteCount)
    return Word.ofBytes (← bytes[0]?) (← bytes[1]?) (← bytes[2]?) (← bytes[3]?)

def writeWordStrict (value : Word) : Option (Except Fault Memory) :=
  m.guardedStrict addr Word.byteCount
    (m.overwrite? addr.toNat (addr.toNat + Word.byteCount) value.bytes)

def windowStrict : Option (Except Fault (List UInt8)) :=
  m.guardedStrict addr 1 (m.span? addr.toNat (min (addr.toNat + windowSize) m.length))

def loadImageStrict (image : List UInt8) : Option (Except SetupError Memory) :=
  if image.length ≤ m.length then (m.overwrite? 0 image.length image).map .ok
  else some (.error (.imageTooLarge image.length m.length))

variable {m addr}

theorem span?_of_le {start stop : Nat} (hstart : start ≤ stop) (hstop : stop ≤ m.length) :
    m.span? start stop = some (m.bytesAt start (stop - start)) :=
  if_pos ⟨hstart, hstop⟩

/-- If the check makes sure that the work gets through, so does the access. -/
theorem guardedStrict_eq {α : Type} {size : Nat} {work : Option α} {x : α}
    (h : addr.toNat + size ≤ m.length → work = some x) :
    m.guardedStrict addr size work = some (m.checkAccess addr size >>= fun _ => pure x) := by
  unfold guardedStrict checkAccess
  by_cases hinside : addr.toNat + size ≤ m.length
  · rw [if_pos hinside, h hinside]
    rfl
  · rw [if_neg hinside]
    rfl

variable (m addr)

theorem sliceStrict_eq (size : Nat) : m.sliceStrict addr size = some (m.slice addr size) := by
  refine guardedStrict_eq fun hinside => ?_
  rw [span?_of_le (Nat.le_add_right _ _) hinside, Nat.add_sub_cancel_left]

theorem readWordStrict_eq : m.readWordStrict addr = some (m.readWord addr) := by
  refine guardedStrict_eq fun hinside => ?_
  rw [span?_of_le (Nat.le_add_right _ _) hinside, Nat.add_sub_cancel_left]
  rfl

theorem writeWordStrict_eq (value : Word) :
    m.writeWordStrict addr value = some (m.writeWord addr value) := by
  refine guardedStrict_eq fun hinside => ?_
  have hroom : value.bytes.length = addr.toNat + Word.byteCount - addr.toNat := by
    rw [Word.length_bytes, Nat.add_sub_cancel_left, Word.byteCount]
  exact if_pos ⟨⟨Nat.le_add_right _ _, hinside⟩, hroom⟩

theorem windowStrict_eq : m.windowStrict addr = some (m.window addr) := by
  refine guardedStrict_eq fun hinside => ?_
  have hcount : min (addr.toNat + windowSize) m.length - addr.toNat
      = min windowSize (m.length - addr.toNat) := by omega
  rw [span?_of_le (by omega) (Nat.min_le_right _ _), hcount]

theorem loadImageStrict_eq (image : List UInt8) :
    m.loadImageStrict image = some (m.loadImage image) := by
  unfold loadImageStrict loadImage
  by_cases hfits : image.length ≤ m.length
  · rw [if_pos hfits, if_pos hfits, overwrite?, if_pos ⟨⟨Nat.zero_le _, hfits⟩, rfl⟩]
    rfl
  · rw [if_neg hfits, if_neg hfits]

/-- Every access to the memory keeps its indices in range. -/
structure IndexesInside (m : Memory) : Prop where
  slice (addr : Word) (size : Nat) : m.sliceStrict addr size = some (m.slice addr size)
  readWord (addr : Word) : m.readWordStrict addr = some (m.readWord addr)
  writeWord (addr value : Word) : m.writeWordStrict addr value = some (m.writeWord addr value)
  window (addr : Word) : m.windowStrict addr = some (m.window addr)
  loadImage (image : List UInt8) : m.loadImageStrict image = some (m.loadImage image)

theorem indexesInside : m.IndexesInside where
  slice := m.sliceStrict_eq
  readWord := m.readWordStrict_eq
  writeWord := m.writeWordStrict_eq
  window := m.windowStrict_eq
  loadImage := m.loadImageStrict_eq

end Memory

/-! ### Decoding -/

namespace Instr

/-- Decodes an instruction, reading its operands only once there are enough bytes. -/
def decodeStrict : List UInt8 → Option (Except DecodeError Instruction)
  | [] => some (.error (.truncated 1 0))
  | byte :: rest =>
    match Operation.ofNumber? (byte.toNat / 2) with
    | none => some (.error (.unknownOperation byte))
    | some op =>
      let form := OperandForm.ofBit byte.toNat
      if form = .imm ∧ !op.hasImmediateForm ∧ !op.ignoresSelector then
        some (.error (.immediateNotAllowed op))
      else if rest.length + 1 < op.size form then
        some (.error (.truncated (op.size form) (rest.length + 1)))
      else (readOperands? op form rest).map .ok

/-- Once there are enough bytes, no operand is missing. -/
theorem decodeStrict_eq (bytes : List UInt8) : decodeStrict bytes = some (decode bytes) := by
  cases bytes with
  | nil => rfl
  | cons byte rest =>
      rw [decodeStrict, decode]
      cases Operation.ofNumber? (byte.toNat / 2) with
      | none => rfl
      | some op =>
          have henough : (readOperands? op (OperandForm.ofBit byte.toNat) rest).isSome = true ↔
              op.size (OperandForm.ofBit byte.toNat) ≤ rest.length + 1 := isSome_readOperands?_iff
          simp only
          split
          · rfl
          · cases hread : readOperands? op (OperandForm.ofBit byte.toNat) rest with
            | none =>
                rw [hread] at henough
                have hshort : rest.length + 1 < op.size (OperandForm.ofBit byte.toNat) := by
                  simpa using henough
                rw [if_pos hshort]
            | some i =>
                rw [hread] at henough
                have hlong := henough.mp rfl
                rw [if_neg (Nat.not_lt.mpr hlong)]
                rfl

end Instr

/-! ### Steps -/

namespace Effect

/-- What is left of a guest when the effect has been tried with strict accesses. -/
def performStrict (g : Guest) : Effect → Option (Except Fault Unit × Guest)
  | registers after => some (.ok (), ⟨after, g.memory⟩)
  | read addr after => do
    match ← g.memory.readWordStrict addr with
    | .ok value => return (.ok (), ⟨after value, g.memory⟩)
    | .error fault => return (.error fault, g)
  | write before addr value after => do
    match ← g.memory.writeWordStrict addr value with
    | .ok memory => return (.ok (), ⟨after, memory⟩)
    | .error fault => return (.error fault, ⟨before, g.memory⟩)

theorem performStrict_eq (effect : Effect) (g : Guest) :
    effect.performStrict g = some (effect.perform g) := by
  cases effect with
  | registers after => rfl
  | read addr after =>
      rw [performStrict, perform, Memory.readWordStrict_eq]
      cases g.memory.readWord addr <;> rfl
  | write before addr value after =>
      rw [performStrict, perform, Memory.writeWordStrict_eq]
      cases g.memory.writeWord addr value <;> rfl

end Effect

namespace Machine

variable {ω : Type} (env : Environment ω) (m : Machine ω)

/-- Serves a system call with strict accesses. -/
def enterSyscallStrict : Option (Except Fault Progress × Machine ω) := do
  match ← m.guest.memory.readWordStrict (m.guest.get .sp + 4) with
  | .error fault => return (.error fault, m)
  | .ok id =>
    let m := m.tell env (.syscall id m.guest.registers)
    if id = exitSyscall then return (.ok .halted, m)
    else
      match env.serve id m.guest m.world with
      | (.error e, guest, world) => return (.error (e.toFault id), ⟨guest, world⟩)
      | (.ok (), guest, world) =>
        return retire env world (← (Effect.ret guest.registers).performStrict guest)

/-- Executes the instruction at the program counter with strict accesses. -/
def executeNextStrict : Option (Except Fault Progress × Machine ω) := do
  let pc := m.guest.get .pc
  match ← m.guest.memory.windowStrict pc with
  | .error fault => return (.error fault, m)
  | .ok window =>
    match ← Instr.decodeStrict window with
    | .error cause => return (.error (.decode pc cause), m)
    | .ok i =>
      let m := m.tell env (.instruction pc (← front? window i.size) i m.guest.registers)
      return retire env m.world (← (i.effect m.guest.registers).performStrict m.guest)

/-- A step with strict accesses. -/
def stepStrict : Option (Except Fault Progress × Machine ω) :=
  if m.guest.get .pc = syscallEntry then m.enterSyscallStrict env else m.executeNextStrict env

theorem enterSyscallStrict_eq : m.enterSyscallStrict env = some (m.enterSyscall env) := by
  rw [enterSyscallStrict, enterSyscall, Memory.readWordStrict_eq]
  cases m.guest.memory.readWord (m.guest.get .sp + 4) with
  | error fault => rfl
  | ok id =>
      simp only [Option.bind_eq_bind, Option.bind_some, tell]
      by_cases hexit : id = exitSyscall
      · rw [if_pos hexit, if_pos hexit]
        rfl
      · rw [if_neg hexit, if_neg hexit]
        rcases env.serve id m.guest (env.observe (.syscall id m.guest.registers) m.world) with
          ⟨_ | _, guest, world⟩
        · rfl
        · simp only [Effect.performStrict_eq, Option.bind_some, Guest.ret_eq_perform]
          rfl

theorem executeNextStrict_eq : m.executeNextStrict env = some (m.executeNext env) := by
  rw [executeNextStrict, executeNext]
  simp only [Memory.windowStrict_eq]
  cases m.guest.memory.window (m.guest.get .pc) with
  | error fault => rfl
  | ok window =>
      simp only [Option.bind_eq_bind, Option.bind_some, Instr.decodeStrict_eq]
      cases hdecode : Instr.decode window with
      | error cause => rfl
      | ok i =>
          have hfront : front? window i.size = some (window.take i.size) :=
            if_pos (Instr.decode_eq_ok hdecode).1
          simp only [hfront, Option.bind_some, Effect.performStrict_eq, Guest.execute_eq_perform]
          rfl

/-- **A step never uses an index that is out of range.** -/
theorem stepStrict_eq : m.stepStrict env = some (m.step env) := by
  unfold stepStrict step
  split
  · exact m.enterSyscallStrict_eq env
  · exact m.executeNextStrict_eq env

end Machine

end RegisterMachine
