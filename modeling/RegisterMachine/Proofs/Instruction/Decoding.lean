/-
What the decoder reads, and what it ignores.

Encoding chooses one byte string for every instruction; decoding accepts others as well,
because some bits mean nothing to it.  `ignoredBits` names these bits, and a byte string
that is decoded has the encoding at its front but for them.

Whether anything is decoded at all is a matter of the first byte and of the number of
bytes, so replacing the bytes behind the first one cannot make an instruction appear.  And
no more than six bytes count: a window of six at the front of a byte string is decoded like
the whole of it, refusals included (`decode_take`).
-/
import RegisterMachine.Instruction.Encoding

namespace RegisterMachine

/-- The bytes with the bits of a mask set. -/
def setBits (mask bytes : List UInt8) : List UInt8 :=
  List.zipWith (· ||| ·) bytes mask

theorem setBits_append {mask mask' bytes bytes' : List UInt8} (h : bytes.length = mask.length) :
    setBits (mask ++ mask') (bytes ++ bytes') = setBits mask bytes ++ setBits mask' bytes' :=
  List.zipWith_append h

@[simp] theorem setBits_cons (m b : UInt8) (mask bytes : List UInt8) :
    setBits (m :: mask) (b :: bytes) = (b ||| m) :: setBits mask bytes := rfl

/-! ### Reading back -/

theorem Word.ofBytes?_eq_some {bytes : List UInt8} {w : Word} (h : ofBytes? bytes = some w) :
    ∃ rest, bytes = w.bytes ++ rest := by
  unfold ofBytes? at h
  split at h
  · rename_i b₀ b₁ b₂ b₃ rest
    obtain rfl := Option.some.inj h
    exact ⟨rest, by rw [bytes_ofBytes]; rfl⟩
  · contradiction

theorem Word.isSome_ofBytes?_iff {bytes : List UInt8} :
    (ofBytes? bytes).isSome = true ↔ 4 ≤ bytes.length := by
  rw [Option.isSome_iff_ne_none, Ne, ofBytes?_eq_none_iff, Nat.not_lt]

theorem Word.ofBytes?_append {bytes : List UInt8} {w : Word} (h : ofBytes? bytes = some w)
    (more : List UInt8) : ofBytes? (bytes ++ more) = some w := by
  obtain ⟨rest, rfl⟩ := ofBytes?_eq_some h
  rw [List.append_assoc, ofBytes?_bytes]

/-- The lower half of an operand byte. -/
def Register.lowerHalf : UInt8 := 0x0f

theorem Register.pairByte_ofPairByte (byte : UInt8) :
    pairByte (ofPairByte byte).1 (ofPairByte byte).2 = byte ∧
      pairByte (ofPairByte byte).1 (.general 0) ||| lowerHalf = byte ||| lowerHalf := by
  have h : ∀ n < 256, pairByte (ofPairByte (UInt8.ofNat n)).1 (ofPairByte (UInt8.ofNat n)).2
        = UInt8.ofNat n ∧
      pairByte (ofPairByte (UInt8.ofNat n)).1 (.general 0) ||| lowerHalf
        = UInt8.ofNat n ||| lowerHalf := by decide +kernel
  have hbyte := h byte.toNat byte.toNat_lt
  rwa [UInt8.ofNat_toNat] at hbyte

namespace Operation

theorem byte_of_ofNumber? {first : UInt8} {op : Operation}
    (h : ofNumber? (first.toNat / 2) = some op) :
    op.byte (OperandForm.ofBit first.toNat) = first := by
  have hbit : (OperandForm.ofBit first.toNat).bit = first.toNat % 2 := by
    unfold OperandForm.ofBit
    split <;> simp only [OperandForm.bit] <;> omega
  rw [byte, number_of_ofNumber? h, hbit, Nat.div_add_mod, UInt8.ofNat_toNat]

/-- The selector is the lowest bit of the first byte. -/
theorem byte_or_one (op : Operation) (form form' : OperandForm) :
    op.byte form ||| 1 = op.byte form' ||| 1 := by
  have h : ∀ op ∈ all, op.byte .reg ||| 1 = op.byte .imm ||| 1 := by decide
  have hop := h op (mem_all op)
  cases form <;> cases form' <;> simp only [hop]

theorem size_le (op : Operation) (form : OperandForm) : op.size form ≤ 6 := by
  unfold size
  split
  · decide
  · split
    · decide
    · split <;> decide

end Operation

namespace Instr

/-- The bits of an encoding that the decoder ignores. -/
def ignoredBits : Instruction → List UInt8
  | load .. | store .. => [0, 0]
  | mov _ src | alu _ _ src | cmp _ src =>
    match src with
    | .reg _ => [0, 0]
    | .imm _ => [0, Register.lowerHalf, 0, 0, 0, 0]
  | not _ | push _ | pop _ => [0, Register.lowerHalf]
  | call _ | jump .. => [1, 0, 0, 0, 0]
  | ret => [1]

@[simp] theorem length_ignoredBits (i : Instruction) : i.ignoredBits.length = i.size := by
  cases i with
  | mov _ src | cmp _ src => cases src <;> rfl
  | alu op _ src => cases op <;> cases src <;> rfl
  | jump c _ => cases c <;> rfl
  | _ => rfl

/-! ### Operands -/

theorem readPair?_eq_some {bytes : List UInt8} {dst src : Register}
    (h : readPair? bytes = some (dst, src)) :
    ∃ rest, bytes = Register.pairByte dst src :: rest := by
  cases bytes with
  | nil => contradiction
  | cons b rest =>
      have hpair : Register.ofPairByte b = (dst, src) := Option.some.inj h
      have hbyte := (Register.pairByte_ofPairByte b).1
      rw [hpair] at hbyte
      exact ⟨rest, by rw [hbyte]⟩

theorem readSingle?_eq_some {bytes : List UInt8} {reg : Register}
    (h : readSingle? bytes = some reg) :
    ∃ b rest, bytes = b :: rest ∧
      b ||| Register.lowerHalf = Register.pairByte reg (.general 0) ||| Register.lowerHalf := by
  cases bytes with
  | nil => contradiction
  | cons b rest =>
      obtain rfl : (Register.ofPairByte b).1 = reg := Option.some.inj h
      exact ⟨b, rest, rfl, (Register.pairByte_ofPairByte b).2.symm⟩

theorem readSource?_imm_eq_some {bytes : List UInt8} {dst : Register} {src : Operand Word}
    (h : readSource? .imm bytes = some (dst, src)) :
    ∃ value b rest, src = .imm value ∧ bytes = b :: (value.bytes ++ rest) ∧
      b ||| Register.lowerHalf = Register.pairByte dst (.general 0) ||| Register.lowerHalf := by
  obtain ⟨reg, hsingle, hrest⟩ := Option.bind_eq_some_iff.mp h
  obtain ⟨value, hvalue, hpure⟩ := Option.bind_eq_some_iff.mp hrest
  obtain ⟨b, rest, rfl, hb⟩ := readSingle?_eq_some hsingle
  obtain ⟨rest', hword⟩ := Word.ofBytes?_eq_some hvalue
  rw [List.tail_cons] at hword
  subst hword
  obtain ⟨rfl, rfl⟩ := Prod.mk.inj (Option.some.inj hpure)
  exact ⟨value, b, rest', rfl, rfl, hb⟩

theorem readSource?_eq_some {form : OperandForm} {bytes : List UInt8} {dst : Register}
    {src : Operand Word} (h : readSource? form bytes = some (dst, src)) :
    src.form = form ∧ ∃ operands rest, bytes = operands ++ rest ∧
      setBits (mov dst src).ignoredBits.tail operands
        = setBits (mov dst src).ignoredBits.tail (mov dst src).encode.tail ∧
      operands.length = (mov dst src).encode.tail.length := by
  cases form with
  | reg =>
      obtain ⟨⟨dst', src'⟩, hpair, h⟩ := Option.map_eq_some_iff.mp h
      obtain ⟨rfl, rfl⟩ := Prod.mk.inj h
      obtain ⟨rest, rfl⟩ := readPair?_eq_some hpair
      exact ⟨rfl, [_], rest, rfl, rfl, rfl⟩
  | imm =>
      obtain ⟨value, b, rest, rfl, rfl, hb⟩ := readSource?_imm_eq_some h
      refine ⟨rfl, b :: value.bytes, rest, rfl, ?_, rfl⟩
      show setBits (Register.lowerHalf :: [0, 0, 0, 0]) (b :: value.bytes)
        = setBits (Register.lowerHalf :: [0, 0, 0, 0])
          (Register.pairByte dst (.general 0) :: value.bytes)
      rw [setBits_cons, setBits_cons, hb]

/-- The byte strings that an instruction's operands are read from: the operands of the
encoding, but for the ignored bits, and anything behind them. -/
theorem readOperands?_eq_some {op : Operation} {form : OperandForm} {bytes : List UInt8}
    {i : Instruction} (h : readOperands? op form bytes = some i) :
    i.operation = op ∧ i.size = op.size form ∧ (op.hasImmediateForm = true → i.form = form) ∧
      ∃ operands rest, bytes = operands ++ rest ∧
        setBits i.ignoredBits.tail operands = setBits i.ignoredBits.tail i.encode.tail ∧
        operands.length = i.encode.tail.length := by
  cases op with
  | load | store =>
      obtain ⟨⟨dst, src⟩, hpair, rfl⟩ := Option.map_eq_some_iff.mp h
      obtain ⟨rest, rfl⟩ := readPair?_eq_some hpair
      refine ⟨rfl, ?_, by simp [Operation.hasImmediateForm], [_], rest, rfl, rfl, rfl⟩
      cases form <;> rfl
  | mov | cmp | alu op =>
      obtain ⟨⟨dst, src⟩, hsource, rfl⟩ := Option.map_eq_some_iff.mp h
      obtain ⟨rfl, operands, rest, rfl, hoperands⟩ := readSource?_eq_some hsource
      exact ⟨rfl, rfl, fun _ => rfl, operands, rest, rfl, hoperands⟩
  | not | push | pop =>
      obtain ⟨reg, hsingle, rfl⟩ := Option.map_eq_some_iff.mp h
      obtain ⟨b, rest, rfl, hb⟩ := readSingle?_eq_some hsingle
      refine ⟨rfl, ?_, by simp [Operation.hasImmediateForm], [b], rest, rfl, ?_, rfl⟩
      · cases form <;> rfl
      · exact congrArg (· :: []) hb
  | call | jump c =>
      obtain ⟨target, htarget, rfl⟩ := Option.map_eq_some_iff.mp h
      obtain ⟨rest, rfl⟩ := Word.ofBytes?_eq_some htarget
      refine ⟨rfl, rfl, by simp [Operation.hasImmediateForm], target.bytes, rest, rfl, rfl, rfl⟩
  | ret =>
      obtain rfl := Option.some.inj h
      exact ⟨rfl, rfl, by simp [Operation.hasImmediateForm], [], bytes, rfl, rfl, rfl⟩

/-! ### Bytes behind the operands -/

theorem readPair?_append {bytes : List UInt8} {pair : Register × Register}
    (h : readPair? bytes = some pair) (more : List UInt8) :
    readPair? (bytes ++ more) = some pair := by
  cases bytes with
  | nil => contradiction
  | cons b rest => exact h

theorem readSingle?_append {bytes : List UInt8} {reg : Register}
    (h : readSingle? bytes = some reg) (more : List UInt8) :
    readSingle? (bytes ++ more) = some reg := by
  obtain ⟨pair, hpair, rfl⟩ := Option.map_eq_some_iff.mp h
  rw [readSingle?, readPair?_append hpair, Option.map_some]

theorem readSource?_append {form : OperandForm} {bytes : List UInt8}
    {source : Register × Operand Word} (h : readSource? form bytes = some source)
    (more : List UInt8) : readSource? form (bytes ++ more) = some source := by
  cases form with
  | reg =>
      obtain ⟨pair, hpair, rfl⟩ := Option.map_eq_some_iff.mp h
      show (readPair? (bytes ++ more)).map _ = _
      rw [readPair?_append hpair, Option.map_some]
  | imm =>
      obtain ⟨reg, hsingle, hrest⟩ := Option.bind_eq_some_iff.mp h
      obtain ⟨value, hvalue, hpure⟩ := Option.bind_eq_some_iff.mp hrest
      have htail : (bytes ++ more).tail = bytes.tail ++ more := by
        cases bytes with
        | nil => contradiction
        | cons b rest => rfl
      show (readSingle? (bytes ++ more)).bind _ = _
      rw [readSingle?_append hsingle, Option.bind_some, htail, Word.ofBytes?_append hvalue]
      exact hpure

theorem readOperands?_append {op : Operation} {form : OperandForm} {bytes : List UInt8}
    {i : Instruction} (h : readOperands? op form bytes = some i) (more : List UInt8) :
    readOperands? op form (bytes ++ more) = some i := by
  cases op with
  | load | store =>
      obtain ⟨pair, hpair, rfl⟩ := Option.map_eq_some_iff.mp h
      rw [readOperands?, readPair?_append hpair, Option.map_some]
  | mov | cmp | alu op =>
      obtain ⟨source, hsource, rfl⟩ := Option.map_eq_some_iff.mp h
      rw [readOperands?, readSource?_append hsource, Option.map_some]
  | not | push | pop =>
      obtain ⟨reg, hsingle, rfl⟩ := Option.map_eq_some_iff.mp h
      rw [readOperands?, readSingle?_append hsingle, Option.map_some]
  | call | jump c =>
      obtain ⟨target, htarget, rfl⟩ := Option.map_eq_some_iff.mp h
      rw [readOperands?, Word.ofBytes?_append htarget, Option.map_some]
  | ret => exact h

/-! ### Enough bytes -/

theorem isSome_readPair?_iff {bytes : List UInt8} :
    (readPair? bytes).isSome = true ↔ 1 ≤ bytes.length := by
  cases bytes <;> simp [readPair?]

theorem isSome_readSource?_iff {form : OperandForm} {bytes : List UInt8} :
    (readSource? form bytes).isSome = true ↔ Operation.mov.size form ≤ bytes.length + 1 := by
  cases form with
  | reg =>
      show ((readPair? bytes).map _).isSome = true ↔ 2 ≤ bytes.length + 1
      rw [Option.isSome_map, isSome_readPair?_iff]
      omega
  | imm =>
      show _ ↔ 6 ≤ bytes.length + 1
      cases bytes with
      | nil => simp [readSource?, readSingle?, readPair?]
      | cons b rest =>
          have hword : (Word.ofBytes? rest).isSome = true ↔ 4 ≤ rest.length :=
            Word.isSome_ofBytes?_iff
          simp only [readSource?, readSingle?, readPair?, Option.map_some, Option.bind_eq_bind,
            Option.bind_some, List.tail_cons, List.length_cons]
          cases hvalue : Word.ofBytes? rest with
          | none => simp [hvalue] at hword ⊢; omega
          | some value => simp [hvalue] at hword ⊢; omega

theorem isSome_readOperands?_iff {op : Operation} {form : OperandForm} {bytes : List UInt8} :
    (readOperands? op form bytes).isSome = true ↔ op.size form ≤ bytes.length + 1 := by
  cases op with
  | load | store | not | push | pop =>
      simp only [readOperands?, readSingle?, Option.isSome_map, isSome_readPair?_iff]
      simp [Operation.size, Operation.isBranch, Operation.isJump, Operation.hasImmediateForm]
  | mov | cmp | alu op =>
      rw [readOperands?, Option.isSome_map]
      exact isSome_readSource?_iff
  | call | jump c =>
      show ((Word.ofBytes? bytes).map _).isSome = true ↔ 5 ≤ bytes.length + 1
      rw [Option.isSome_map, Word.isSome_ofBytes?_iff]
      omega
  | ret =>
      show (some (ret : Instruction)).isSome = true ↔ 1 ≤ bytes.length + 1
      simp

/-! ### Instructions -/

theorem decode_cons_eq_ok {first : UInt8} {rest : List UInt8} {i : Instruction} :
    decode (first :: rest) = .ok i ↔
      ∃ op, Operation.ofNumber? (first.toNat / 2) = some op ∧
        ¬(OperandForm.ofBit first.toNat = .imm ∧ !op.hasImmediateForm ∧ !op.ignoresSelector) ∧
        readOperands? op (OperandForm.ofBit first.toNat) rest = some i := by
  rw [decode]
  cases hop : Operation.ofNumber? (first.toNat / 2) with
  | none => simp
  | some op =>
      simp only [Option.some.injEq, exists_eq_left']
      by_cases hrefused :
          OperandForm.ofBit first.toNat = .imm ∧ !op.hasImmediateForm ∧ !op.ignoresSelector
      · simp only [if_pos hrefused]
        simp [hrefused]
      · rw [if_neg hrefused]
        cases readOperands? op (OperandForm.ofBit first.toNat) rest with
        | none => simp
        | some j => exact ⟨fun h => ⟨hrefused, congrArg some (Except.ok.inj h)⟩,
            fun h => congrArg Except.ok (Option.some.inj h.2)⟩

/-- Whether a byte string is decoded does not depend on what stands behind its first byte,
as long as there is no less of it. -/
theorem exists_decode_of_length_le {first : UInt8} {rest rest' : List UInt8} {i : Instruction}
    (h : decode (first :: rest) = .ok i) (hle : rest.length ≤ rest'.length) :
    ∃ j, decode (first :: rest') = .ok j := by
  obtain ⟨op, hop, hform, hread⟩ := decode_cons_eq_ok.mp h
  have henough : (readOperands? op (OperandForm.ofBit first.toNat) rest').isSome = true := by
    have := isSome_readOperands?_iff.mp (Option.isSome_of_eq_some hread)
    exact isSome_readOperands?_iff.mpr (by omega)
  obtain ⟨j, hj⟩ := Option.isSome_iff_exists.mp henough
  exact ⟨j, decode_cons_eq_ok.mpr ⟨op, hop, hform, hj⟩⟩

theorem ignoredBits_eq_cons (i : Instruction) :
    i.ignoredBits = (if i.operation.ignoresSelector then 1 else 0) :: i.ignoredBits.tail := by
  cases i with
  | mov _ src | alu _ _ src | cmp _ src => cases src <;> rfl
  | _ => rfl

theorem encode_eq_cons (i : Instruction) :
    i.encode = i.operation.byte i.form :: i.encode.tail := by
  cases i <;> rfl

/-- Where the selector counts, the decoder and the encoder agree on it. -/
theorem form_eq_of_not_ignoresSelector {i : Instruction} {form : OperandForm}
    (h : ¬i.operation.ignoresSelector = true)
    (hform : ¬(form = .imm ∧ !i.operation.hasImmediateForm ∧ !i.operation.ignoresSelector))
    (hkeeps : i.operation.hasImmediateForm = true → i.form = form) : form = i.form := by
  by_cases himm : i.operation.hasImmediateForm = true
  · exact (hkeeps himm).symm
  · have hreg : i.form = .reg := by
      cases i with
      | mov _ _ | alu _ _ _ | cmp _ _ => exact absurd rfl himm
      | call _ | jump _ _ => exact absurd rfl h
      | _ => rfl
    cases form with
    | reg => exact hreg.symm
    | imm => exact absurd ⟨rfl, by simp [himm], by simp [h]⟩ hform

/-- **A decoded byte string starts with the encoding but for the ignored bits.** -/
theorem decode_eq_ok {bytes : List UInt8} {i : Instruction} (h : decode bytes = .ok i) :
    i.size ≤ bytes.length ∧
      setBits i.ignoredBits (bytes.take i.size) = setBits i.ignoredBits i.encode := by
  cases bytes with
  | nil => contradiction
  | cons first rest =>
      obtain ⟨op, hop, hform, hread⟩ := decode_cons_eq_ok.mp h
      obtain ⟨rfl, -, hkeeps, operands, rest, rfl, hoperands, hlength⟩ :=
        readOperands?_eq_some hread
      have hfirst : first ||| (if i.operation.ignoresSelector then 1 else 0)
          = i.operation.byte i.form ||| (if i.operation.ignoresSelector then 1 else 0) := by
        rw [← Operation.byte_of_ofNumber? hop]
        by_cases hignores : i.operation.ignoresSelector = true
        · rw [if_pos hignores]
          exact Operation.byte_or_one _ _ _
        · rw [form_eq_of_not_ignoresSelector hignores hform hkeeps]
      have hsize : i.size = (first :: operands).length := by
        rw [← length_encode, encode_eq_cons i, List.length_cons, List.length_cons, hlength]
      have htake : (first :: (operands ++ rest)).take i.size = first :: operands := by
        rw [hsize, ← List.cons_append, List.take_left]
      rw [htake]
      refine ⟨?_, ?_⟩
      · rw [hsize, ← List.cons_append, List.length_append]
        exact Nat.le_add_right _ _
      · rw [ignoredBits_eq_cons i, encode_eq_cons i, setBits_cons, setBits_cons, hfirst, hoperands]

/-- The decoder does not look further than the longest instruction reaches. -/
theorem decode_take {n : Nat} (hn : 6 ≤ n) (bytes : List UInt8) :
    decode (bytes.take n) = decode bytes := by
  obtain ⟨n, rfl⟩ : ∃ k, n = k + 1 := ⟨n - 1, by omega⟩
  cases bytes with
  | nil => rfl
  | cons first rest =>
      rw [List.take_succ_cons]
      by_cases hle : rest.length ≤ n
      · rw [List.take_of_length_le hle]
      · -- There are more bytes than any instruction has, so none is too short.
        have hread : ∀ op form, ∃ i,
            readOperands? op form (rest.take n) = some i ∧ readOperands? op form rest = some i := by
          intro op form
          have hsize := op.size_le form
          have hlength : (rest.take n).length = n := List.length_take_of_le (by omega)
          have henough : (readOperands? op form (rest.take n)).isSome = true :=
            isSome_readOperands?_iff.mpr (by omega)
          obtain ⟨i, hi⟩ := Option.isSome_iff_exists.mp henough
          have hmore := readOperands?_append hi (rest.drop n)
          rw [List.take_append_drop] at hmore
          exact ⟨i, hi, hmore⟩
        rw [decode, decode]
        cases Operation.ofNumber? (first.toNat / 2) with
        | none => rfl
        | some op =>
            obtain ⟨i, htake, hrest⟩ := hread op (OperandForm.ofBit first.toNat)
            simp only [htake, hrest]

/-! ### Other bytes behind an instruction -/

theorem decode_take_append {bytes : List UInt8} {i : Instruction} (h : decode bytes = .ok i)
    (more : List UInt8) : decode (bytes.take i.size ++ more) = .ok i := by
  have hle := (decode_eq_ok h).1
  obtain ⟨n, hn⟩ : ∃ n, i.size = n + 1 := ⟨i.size - 1, by have := i.size_pos; omega⟩
  cases bytes with
  | nil => contradiction
  | cons first rest =>
      obtain ⟨op, hop, hform, hread⟩ := decode_cons_eq_ok.mp h
      have hsize : i.size = op.size (OperandForm.ofBit first.toNat) :=
        (readOperands?_eq_some hread).2.1
      have hlength : (rest.take n).length = n :=
        List.length_take_of_le (by rw [hn, List.length_cons] at hle; omega)
      -- The operands alone are enough to be read, and what is read then is what was read.
      obtain ⟨j, hj⟩ : ∃ j,
          readOperands? op (OperandForm.ofBit first.toNat) (rest.take n) = some j :=
        Option.isSome_iff_exists.mp (isSome_readOperands?_iff.mpr (by omega))
      have hall := readOperands?_append hj (rest.drop n)
      rw [List.take_append_drop, hread] at hall
      obtain rfl := Option.some.inj hall
      rw [hn, List.take_succ_cons, List.cons_append]
      exact decode_cons_eq_ok.mpr ⟨op, hop, hform, readOperands?_append hj more⟩

/-- A first byte that is unassigned or misused is refused for the same reason whatever stands
behind it. -/
theorem decode_cons_of_error {first : UInt8} {rest : List UInt8} {cause : DecodeError}
    (h : decode (first :: rest) = .error cause)
    (hcause : ∀ needed available, cause ≠ .truncated needed available) (rest' : List UInt8) :
    decode (first :: rest') = .error cause := by
  rw [decode] at h ⊢
  cases hop : Operation.ofNumber? (first.toNat / 2) with
  | none =>
      rw [hop] at h
      exact h
  | some op =>
      simp only [hop] at h ⊢
      split at h
      · rename_i hrefused
        rw [if_pos hrefused]
        exact h
      · split at h
        · contradiction
        · exact absurd (Except.error.inj h).symm (hcause _ _)

end Instr

end RegisterMachine
