/-
The encoding of instructions.

An instruction starts with a byte for its operation and the selector bit.  Two registers
share an operand byte, the destination in the upper half; immediates and branch targets
follow as little-endian words.  `decode` reads the instruction at the front of a byte
string, and `decode_encode_append` says that whatever follows an encoding, decoding
gives the instruction back.

The decoder ignores the selector of branches and returns, and the lower half of an
operand byte that names one register only, so several byte strings may hold the same
instruction; `encode` picks the one with the ignored bits at their standard value.
-/
import RegisterMachine.Instruction.Basic

namespace RegisterMachine

/-- Why no instruction stands at the front of a byte string. -/
inductive DecodeError where
  /-- The first byte's operation number is 0 or above 23. -/
  | unknownOperation (byte : UInt8)
  /-- The immediate selector on an operation that takes registers only. -/
  | immediateNotAllowed (op : Operation)
  /-- The bytes end before the instruction does. -/
  | truncated (needed available : Nat)
  deriving DecidableEq

namespace DecodeError

def message : DecodeError → String
  | unknownOperation byte => "unknown opcode " ++ Text.hex 2 byte.toNat
  | immediateNotAllowed op => "`" ++ op.mnemonic ++ "` has no immediate form"
  | truncated needed available =>
    "truncated instruction: needs " ++ Text.decimal needed ++ " bytes, " ++
      Text.decimal available ++ " available"

end DecodeError

namespace Register

/-- The operand byte that names a destination and a source. -/
def pairByte (dst src : Register) : UInt8 :=
  UInt8.ofNat (16 * dst.index.val + src.index.val)

/-- The destination and the source that an operand byte names. -/
def ofPairByte (byte : UInt8) : Register × Register :=
  (ofNibble (byte.toNat / 16), ofNibble byte.toNat)

theorem ofPairByte_pairByte (dst src : Register) :
    ofPairByte (pairByte dst src) = (dst, src) := by
  have hd := dst.index.isLt
  have hs := src.index.isLt
  have h : (pairByte dst src).toNat = 16 * dst.index.val + src.index.val := by
    rw [pairByte, UInt8.toNat_ofNat']
    omega
  have h' : (16 * dst.index.val + src.index.val) / 16 = 16 * 0 + dst.index.val := by omega
  rw [ofPairByte, h, h', ofNibble_index, ofNibble_index]

end Register

namespace Instr

/-- The bytes of an instruction. -/
def encode (i : Instruction) : List UInt8 :=
  i.operation.byte i.form :: match i with
    | load dst src | store dst src => [Register.pairByte dst src]
    | mov dst src | alu _ dst src | cmp dst src =>
      match src with
      | .reg r => [Register.pairByte dst r]
      | .imm value => Register.pairByte dst (.general 0) :: value.bytes
    | not reg | push reg | pop reg => [Register.pairByte reg (.general 0)]
    | call target | jump _ target => target.bytes
    | ret => []

/-- Reads an operand byte. -/
def readPair? : List UInt8 → Option (Register × Register)
  | byte :: _ => some (Register.ofPairByte byte)
  | [] => none

/-- Reads an operand byte whose lower half is ignored. -/
def readSingle? (bytes : List UInt8) : Option Register :=
  (readPair? bytes).map Prod.fst

/-- Reads a destination and a source operand of the given form. -/
def readSource? (form : OperandForm) (bytes : List UInt8) : Option (Register × Operand Word) :=
  match form with
  | .reg => (readPair? bytes).map fun (dst, src) => (dst, .reg src)
  | .imm => do
    let dst ← readSingle? bytes
    let value ← Word.ofBytes? bytes.tail
    return (dst, .imm value)

/-- Reads the operands that follow the first byte of an instruction, if there are enough
bytes for them. -/
def readOperands? (op : Operation) (form : OperandForm) (bytes : List UInt8) :
    Option Instruction :=
  match op with
  | .load => (readPair? bytes).map fun (dst, src) => load dst src
  | .store => (readPair? bytes).map fun (dst, src) => store dst src
  | .mov => (readSource? form bytes).map fun (dst, src) => mov dst src
  | .alu op => (readSource? form bytes).map fun (dst, src) => alu op dst src
  | .not => (readSingle? bytes).map not
  | .cmp => (readSource? form bytes).map fun (dst, src) => cmp dst src
  | .push => (readSingle? bytes).map push
  | .pop => (readSingle? bytes).map pop
  | .call => (Word.ofBytes? bytes).map call
  | .ret => some ret
  | .jump c => (Word.ofBytes? bytes).map (jump c)

/-- Decodes the instruction at the front of a byte string; the bytes behind it are ignored.

The first byte is judged first, so an unassigned or misused one is reported however few
bytes there are. -/
def decode : List UInt8 → Except DecodeError Instruction
  | [] => .error (.truncated 1 0)
  | byte :: rest =>
    match Operation.ofNumber? (byte.toNat / 2) with
    | none => .error (.unknownOperation byte)
    | some op =>
      let form := OperandForm.ofBit byte.toNat
      if form = .imm ∧ !op.hasImmediateForm ∧ !op.ignoresSelector then
        .error (.immediateNotAllowed op)
      else
        match readOperands? op form rest with
        | some i => .ok i
        | none => .error (.truncated (op.size form) (rest.length + 1))

/-! ### Encoding and decoding are inverse -/

@[simp] theorem length_encode (i : Instruction) : i.encode.length = i.size := by
  cases i with
  | mov _ src | cmp _ src => cases src <;> rfl
  | alu op _ src => cases op <;> cases src <;> rfl
  | jump c _ => cases c <;> rfl
  | _ => rfl

@[simp] theorem readPair?_pairByte (dst src : Register) (rest : List UInt8) :
    readPair? (Register.pairByte dst src :: rest) = some (dst, src) := by
  rw [readPair?, Register.ofPairByte_pairByte]

/-- The encoder never writes the immediate selector where the decoder refuses it. -/
theorem selector_allowed (i : Instruction) :
    ¬(i.form = .imm ∧ !i.operation.hasImmediateForm ∧ !i.operation.ignoresSelector) := by
  cases i with
  | mov _ src | alu _ _ src | cmp _ src => simp [operation, Operation.hasImmediateForm]
  | call _ | jump _ _ =>
    simp [operation, Operation.ignoresSelector, Operation.isBranch, Operation.isJump]
  | _ => simp [form]

/-- The operands of an encoding are read back. -/
theorem readOperands?_encode (i : Instruction) (rest : List UInt8) :
    readOperands? i.operation i.form (i.encode.tail ++ rest) = some i := by
  cases i with
  | mov dst src | alu _ dst src | cmp dst src =>
    cases src <;> simp [encode, operation, form, Operand.form, readOperands?, readSource?,
      readSingle?, Word.ofBytes?_bytes]
  | call target | jump _ target =>
    simp [encode, operation, form, readOperands?, Word.ofBytes?_bytes]
  | _ => simp [encode, operation, readOperands?, readSingle?]

/-- An encoding is decoded to its instruction whatever follows it. -/
theorem decode_encode_append (i : Instruction) (rest : List UInt8) :
    decode (i.encode ++ rest) = .ok i := by
  have hcons : i.encode = i.operation.byte i.form :: i.encode.tail := by cases i <;> rfl
  rw [hcons, List.cons_append, decode, Operation.byte_div_two, Operation.ofNumber?_number,
    Operation.ofBit_byte]
  simp only [if_neg (selector_allowed i), readOperands?_encode]

end Instr

end RegisterMachine
