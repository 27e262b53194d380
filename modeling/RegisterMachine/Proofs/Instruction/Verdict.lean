/-
The decoder's verdict on every byte string.

Whether an instruction stands at the front of a byte string is a matter of its first byte and
of its length, and if none does, the reason is the first of four that applies.  `Complete` and
`Refused` say both without the decoder.

Which instruction it is, its encoding says.  A byte string is decoded to an instruction exactly
if the encoding stands at its front but for the ignored bits (`decode_eq_ok_iff`): the decoder
ignores these bits and no others.  `decode_eq_ok` is one half of it.  For the other, the
operands are read back from all bytes that differ from those of the encoding in ignored bits
only, and the first byte still names the operation when its selector means nothing.
-/
import RegisterMachine.Proofs.Instruction.Decoding

namespace RegisterMachine

/-! ### What may stand in a first byte -/

namespace Operation

/-- The operations on which the selector may be set: those that take an immediate, and those to
which the selector means nothing. -/
inductive MaySelect : Operation → Prop
  | mov : MaySelect .mov
  | alu (op : AluOp) : MaySelect (.alu op)
  | cmp : MaySelect .cmp
  | call : MaySelect .call
  | ret : MaySelect .ret
  | jump (c : Condition) : MaySelect (.jump c)

theorem maySelect_iff {op : Operation} :
    op.MaySelect ↔ op.hasImmediateForm = true ∨ op.ignoresSelector = true := by
  constructor
  · rintro (_ | _ | _ | _ | _ | _)
    case mov | alu | cmp => exact Or.inl rfl
    case call | ret | jump => exact Or.inr rfl
  · intro h
    cases op with
    | mov => exact .mov
    | alu op => exact .alu op
    | cmp => exact .cmp
    | call => exact .call
    | ret => exact .ret
    | jump c => exact .jump c
    | load | store | not | push | pop => rcases h with h | h <;> contradiction

instance (op : Operation) : Decidable op.MaySelect :=
  decidable_of_iff _ maySelect_iff.symm

theorem exists_number_iff {n : Nat} : (∃ op : Operation, n = op.number) ↔ 1 ≤ n ∧ n ≤ 23 := by
  constructor
  · rintro ⟨op, rfl⟩
    refine ⟨?_, op.number_le⟩
    cases op <;> simp only [number] <;> omega
  · rintro ⟨hlow, hhigh⟩
    have hall : ∀ n < 24, 1 ≤ n → ∃ op ∈ all, n = op.number := by decide
    obtain ⟨op, -, hop⟩ := hall n (by omega) hlow
    exact ⟨op, hop⟩

theorem number_inj {op op' : Operation} (h : op.number = op'.number) : op = op' := by
  have hop := ofNumber?_number op
  rw [h, ofNumber?_number] at hop
  exact (Option.some.inj hop).symm

end Operation

namespace OperandForm

theorem ofBit_eq_imm_iff {n : Nat} : ofBit n = .imm ↔ ¬n % 2 = 0 := by
  unfold ofBit
  split <;> simp_all

end OperandForm

namespace Instr

variable {first : UInt8} {rest bytes : List UInt8} {op : Operation} {i : Instruction}

theorem misused_iff :
    (OperandForm.ofBit first.toNat = .imm ∧ !op.hasImmediateForm ∧ !op.ignoresSelector) ↔
      ¬(first.toNat % 2 = 0 ∨ op.MaySelect) := by
  rw [OperandForm.ofBit_eq_imm_iff, Operation.maySelect_iff]
  simp

/-! ### Where an instruction stands -/

/-- A whole instruction stands at the front of a byte string. -/
inductive Complete : List UInt8 → Prop
  /-- The upper seven bits of the first byte are the number of an operation, the lowest bit is
  clear or may be set, and there are as many bytes as the instruction takes. -/
  | intro {first : UInt8} {rest : List UInt8} {op : Operation}
      (hassigned : 1 ≤ first.toNat / 2 ∧ first.toNat / 2 ≤ 23)
      (hnumber : first.toNat / 2 = op.number)
      (hselector : first.toNat % 2 = 0 ∨ op.MaySelect)
      (henough : op.size (.ofBit first.toNat) ≤ (first :: rest).length) : Complete (first :: rest)

/-- The reason why no instruction stands at the front of a byte string. -/
inductive Refused : List UInt8 → DecodeError → Prop
  | empty : Refused [] (.truncated 1 0)
  | unassigned {first : UInt8} {rest : List UInt8}
      (hnumber : ¬(1 ≤ first.toNat / 2 ∧ first.toNat / 2 ≤ 23)) :
      Refused (first :: rest) (.unknownOperation first)
  | misused {first : UInt8} {rest : List UInt8} {op : Operation}
      (hnumber : first.toNat / 2 = op.number)
      (hselector : ¬(first.toNat % 2 = 0 ∨ op.MaySelect)) :
      Refused (first :: rest) (.immediateNotAllowed op)
  /-- The bytes that the instruction takes and those that there are. -/
  | cutOff {first : UInt8} {rest : List UInt8} {op : Operation}
      (hnumber : first.toNat / 2 = op.number)
      (hselector : first.toNat % 2 = 0 ∨ op.MaySelect)
      (hshort : (first :: rest).length < op.size (.ofBit first.toNat)) :
      Refused (first :: rest)
        (.truncated (op.size (.ofBit first.toNat)) (first :: rest).length)

theorem decode_cons (hnumber : first.toNat / 2 = op.number) :
    decode (first :: rest) =
      if first.toNat % 2 = 0 ∨ op.MaySelect then
        match readOperands? op (.ofBit first.toNat) rest with
        | some i => .ok i
        | none => .error (.truncated (op.size (.ofBit first.toNat)) (first :: rest).length)
      else .error (.immediateNotAllowed op) := by
  rw [decode, hnumber, Operation.ofNumber?_number]
  by_cases hselector : first.toNat % 2 = 0 ∨ op.MaySelect
  · simp only [misused_iff, if_neg (not_not_intro hselector), if_pos hselector]
    rfl
  · simp only [misused_iff, if_pos hselector, if_neg hselector]

theorem decode_of_unassigned (h : ¬(1 ≤ first.toNat / 2 ∧ first.toNat / 2 ≤ 23)) :
    decode (first :: rest) = .error (.unknownOperation first) := by
  have hnone : Operation.ofNumber? (first.toNat / 2) = none := by
    rw [Option.eq_none_iff_forall_ne_some]
    intro op hop
    exact h (Operation.exists_number_iff.mp ⟨op, (Operation.number_of_ofNumber? hop).symm⟩)
  rw [decode, hnone]

/-- Every byte string is refused, or a whole instruction stands at its front. -/
theorem refused_or_complete (bytes : List UInt8) :
    (∃ cause, Refused bytes cause) ∨ Complete bytes := by
  cases bytes with
  | nil => exact Or.inl ⟨_, .empty⟩
  | cons first rest =>
      by_cases hassigned : 1 ≤ first.toNat / 2 ∧ first.toNat / 2 ≤ 23
      · obtain ⟨op, hnumber⟩ := Operation.exists_number_iff.mpr hassigned
        by_cases hselector : first.toNat % 2 = 0 ∨ op.MaySelect
        · by_cases henough : op.size (.ofBit first.toNat) ≤ (first :: rest).length
          · exact Or.inr ⟨hassigned, hnumber, hselector, henough⟩
          · exact Or.inl ⟨_, .cutOff hnumber hselector (Nat.lt_of_not_le henough)⟩
        · exact Or.inl ⟨_, .misused hnumber hselector⟩
      · exact Or.inl ⟨_, .unassigned hassigned⟩

theorem Complete.decode (h : Complete bytes) : ∃ i, decode bytes = .ok i := by
  obtain ⟨-, hnumber, hselector, henough⟩ := h
  obtain ⟨i, hi⟩ := Option.isSome_iff_exists.mp (isSome_readOperands?_iff.mpr henough)
  exact ⟨i, by rw [decode_cons hnumber, if_pos hselector, hi]⟩

theorem Refused.decode {cause : DecodeError} (h : Refused bytes cause) :
    decode bytes = .error cause := by
  cases h with
  | empty => rfl
  | unassigned hnumber => exact decode_of_unassigned hnumber
  | misused hnumber hselector => rw [decode_cons hnumber, if_neg hselector]
  | @cutOff first rest op hnumber hselector hshort =>
      have hnone : readOperands? op (.ofBit first.toNat) rest = none := by
        rw [← Option.not_isSome_iff_eq_none, isSome_readOperands?_iff]
        exact Nat.not_le_of_lt hshort
      rw [decode_cons hnumber, if_pos hselector, hnone]

/-- **An instruction is decoded exactly if a whole one stands there.** -/
theorem exists_decode_iff : (∃ i, decode bytes = .ok i) ↔ Complete bytes := by
  refine ⟨fun ⟨i, hi⟩ => ?_, Complete.decode⟩
  refine (refused_or_complete bytes).resolve_left fun ⟨cause, hcause⟩ => ?_
  rw [hcause.decode] at hi
  contradiction

/-- **The decoder reports the first reason that applies.** -/
theorem decode_eq_error_iff {cause : DecodeError} :
    decode bytes = .error cause ↔ Refused bytes cause := by
  refine ⟨fun h => ?_, Refused.decode⟩
  rcases refused_or_complete bytes with ⟨cause', hcause⟩ | hcomplete
  · rw [hcause.decode] at h
    obtain rfl := Except.error.inj h
    exact hcause
  · obtain ⟨i, hi⟩ := hcomplete.decode
    rw [hi] at h
    contradiction

/-! ### Which instruction stands there -/

theorem setBits_zeros (bytes : List UInt8) :
    setBits (List.replicate bytes.length 0) bytes = bytes := by
  induction bytes with
  | nil => rfl
  | cons b bytes ih =>
      rw [List.length_cons, List.replicate_succ, setBits_cons, ih, UInt8.or_zero]

theorem eq_of_setBits_zeros {bytes bytes' : List UInt8} {n : Nat} (hlength : bytes.length = n)
    (hlength' : bytes'.length = n)
    (h : setBits (List.replicate n 0) bytes = setBits (List.replicate n 0) bytes') :
    bytes = bytes' := by
  subst hlength
  rwa [setBits_zeros, ← hlength', setBits_zeros] at h

/-- The destination of an operand byte does not depend on the lower half. -/
theorem readSingle?_of_or {b : UInt8} {reg : Register}
    (h : b ||| Register.lowerHalf = Register.pairByte reg (.general 0) ||| Register.lowerHalf)
    (rest : List UInt8) : readSingle? (b :: rest) = some reg := by
  have hupper : ∀ n < 256, (Register.ofPairByte (UInt8.ofNat n ||| Register.lowerHalf)).1
      = (Register.ofPairByte (UInt8.ofNat n)).1 := by decide +kernel
  have hbyte : ∀ b, (Register.ofPairByte (b ||| Register.lowerHalf)).1
      = (Register.ofPairByte b).1 := by
    intro b
    have hb := hupper b.toNat b.toNat_lt
    rwa [UInt8.ofNat_toNat] at hb
  rw [readSingle?, readPair?, Option.map_some, ← hbyte, h, hbyte, Register.ofPairByte_pairByte]

variable {operands : List UInt8}

/-- Bytes that agree with those of an encoding's operands but for the ignored bits. -/
def SameOperands (i : Instruction) (operands : List UInt8) : Prop :=
  operands.length = i.encode.tail.length ∧
    setBits i.ignoredBits.tail operands = setBits i.ignoredBits.tail i.encode.tail

theorem readSource?_of_sameOperands {dst : Register} {src : Operand Word}
    (h : SameOperands (mov dst src) operands) (rest : List UInt8) :
    readSource? src.form (operands ++ rest) = some (dst, src) := by
  obtain ⟨hlength, hbits⟩ := h
  cases src with
  | reg r =>
      obtain rfl : operands = [Register.pairByte dst r] :=
        eq_of_setBits_zeros (n := 1) hlength rfl hbits
      simp [readSource?, Operand.form]
  | imm value =>
      cases operands with
      | nil => contradiction
      | cons b word =>
          obtain ⟨hb, hword⟩ := List.cons.inj hbits
          obtain rfl : word = value.bytes :=
            eq_of_setBits_zeros (n := 4) (Nat.succ.inj hlength) rfl hword
          simp [readSource?, Operand.form, readSingle?_of_or hb, Word.ofBytes?_bytes]

theorem readOperands?_of_sameOperands {form : OperandForm} (h : SameOperands i operands)
    (hform : i.operation.hasImmediateForm = true → form = i.form) (rest : List UInt8) :
    readOperands? i.operation form (operands ++ rest) = some i := by
  cases i with
  | load dst src | store dst src =>
      obtain rfl : operands = [Register.pairByte dst src] :=
        eq_of_setBits_zeros (n := 1) h.1 rfl h.2
      simp [readOperands?, operation]
  | mov dst src | alu op dst src | cmp dst src =>
      obtain rfl := hform rfl
      show (readSource? src.form (operands ++ rest)).map _ = _
      rw [readSource?_of_sameOperands h, Option.map_some]
  | not reg | push reg | pop reg =>
      obtain ⟨b, rfl⟩ := List.length_eq_one_iff.mp h.1
      show (readSingle? (b :: rest)).map _ = _
      rw [readSingle?_of_or (List.cons.inj h.2).1, Option.map_some]
  | call target | jump c target =>
      obtain rfl : operands = target.bytes := eq_of_setBits_zeros (n := 4) h.1 rfl h.2
      show (Word.ofBytes? (target.bytes ++ rest)).map _ = _
      rw [Word.ofBytes?_bytes, Option.map_some]
  | ret => rfl

/-- A first byte that agrees with that of an encoding names its operation, and it has the same
selector unless the selector means nothing. -/
theorem operation_of_or
    (h : first ||| (if i.operation.ignoresSelector then 1 else 0)
      = i.operation.byte i.form ||| (if i.operation.ignoresSelector then 1 else 0)) :
    first.toNat / 2 = i.operation.number ∧
      (i.operation.ignoresSelector = false → OperandForm.ofBit first.toNat = i.form) := by
  by_cases hignores : i.operation.ignoresSelector = true
  · have hupper : ∀ b : UInt8, (b ||| 1).toNat / 2 = b.toNat / 2 := by
      intro b
      rw [UInt8.toNat_or, Nat.or_div_two]
      exact Nat.or_zero _
    rw [if_pos hignores] at h
    refine ⟨?_, fun hcounts => absurd hignores (Bool.eq_false_iff.mp hcounts)⟩
    rw [← hupper first, h, hupper, Operation.byte_div_two]
  · rw [if_neg hignores, UInt8.or_zero, UInt8.or_zero] at h
    subst h
    exact ⟨Operation.byte_div_two _ _, fun _ => Operation.ofBit_byte _ _⟩

theorem selector_of_form
    (h : i.operation.ignoresSelector = false → OperandForm.ofBit first.toNat = i.form) :
    first.toNat % 2 = 0 ∨ i.operation.MaySelect := by
  refine Decidable.byContradiction fun hmisused => ?_
  obtain ⟨himm, hrest⟩ := misused_iff.mpr hmisused
  have hcounts : i.operation.ignoresSelector = false := by simpa using hrest.2
  exact selector_allowed i ⟨h hcounts ▸ himm, hrest⟩

theorem ignoresSelector_of_hasImmediateForm (h : op.hasImmediateForm = true) :
    op.ignoresSelector = false := by
  cases op with
  | mov | alu _ | cmp => rfl
  | _ => contradiction

/-- **A byte string is decoded to an instruction exactly if it starts with the encoding but for
the ignored bits.** -/
theorem decode_eq_ok_iff :
    decode bytes = .ok i ↔
      i.size ≤ bytes.length ∧
        setBits i.ignoredBits (bytes.take i.size) = setBits i.ignoredBits i.encode := by
  refine ⟨decode_eq_ok, fun ⟨hle, hbits⟩ => ?_⟩
  obtain ⟨n, hn⟩ : ∃ n, i.size = n + 1 := ⟨i.size - 1, by have := i.size_pos; omega⟩
  cases bytes with
  | nil =>
      rw [hn] at hle
      contradiction
  | cons first rest =>
      rw [ignoredBits_eq_cons, encode_eq_cons, hn, List.take_succ_cons, setBits_cons,
        setBits_cons] at hbits
      obtain ⟨hfirst, hoperands⟩ := List.cons.inj hbits
      obtain ⟨hnumber, hform⟩ := operation_of_or hfirst
      have hsame : SameOperands i (rest.take n) := by
        refine ⟨?_, hoperands⟩
        rw [List.length_tail, length_encode, hn, List.length_take_of_le]
        · rfl
        · rw [hn, List.length_cons] at hle
          omega
      have hread := readOperands?_of_sameOperands hsame
        (fun himm => hform (ignoresSelector_of_hasImmediateForm himm)) (rest.drop n)
      rw [List.take_append_drop] at hread
      rw [decode_cons hnumber, if_pos (selector_of_form hform), hread]

/-! ### The verdict -/

/-- What the decoder's answer says about a byte string. -/
structure Verdict (bytes : List UInt8) (answer : Except DecodeError Instruction) : Prop where
  /-- There is an instruction exactly if a whole one stands at the front. -/
  found : (∃ i, answer = .ok i) ↔ Complete bytes
  /-- If there is none, the answer is the first reason that applies. -/
  refused : ∀ cause, answer = .error cause ↔ Refused bytes cause
  /-- It is the instruction whose encoding stands at the front but for the ignored bits. -/
  exact : ∀ i, answer = .ok i ↔
    i.size ≤ bytes.length ∧
      setBits i.ignoredBits (bytes.take i.size) = setBits i.ignoredBits i.encode
  /-- Whatever stands behind its bytes, the instruction is the same. -/
  front : ∀ i, answer = .ok i → ∀ more, decode (bytes.take i.size ++ more) = .ok i
  /-- No bytes are missed where there are as many as the operation takes. -/
  enough : ∀ (first : UInt8) (rest : List UInt8) (op : Operation), bytes = first :: rest →
    first.toNat / 2 = op.number → op.size (.ofBit first.toNat) ≤ bytes.length →
    ∀ needed available, answer ≠ .error (.truncated needed available)
  /-- Where bytes are missed, there is an instruction as soon as there are as many as needed. -/
  completed : ∀ needed available, answer = .error (.truncated needed available) → bytes ≠ [] →
    ∀ more, needed ≤ (bytes ++ more).length → ∃ i, decode (bytes ++ more) = .ok i

/-- **The decoder's verdict on a byte string.** -/
theorem decode_verdict (bytes : List UInt8) : Verdict bytes (decode bytes) where
  found := exists_decode_iff
  refused _ := decode_eq_error_iff
  exact _ := decode_eq_ok_iff
  front _ h := decode_take_append h
  enough := by
    rintro first rest op rfl hnumber henough needed available h
    cases decode_eq_error_iff.mp h with
    | cutOff hnumber' _ hshort =>
        obtain rfl := Operation.number_inj (hnumber'.symm.trans hnumber)
        exact Nat.not_le_of_lt hshort henough
  completed := by
    intro needed available h hne more hmore
    cases decode_eq_error_iff.mp h with
    | empty => contradiction
    | cutOff hnumber hselector _ =>
        have hassigned := Operation.exists_number_iff.mp ⟨_, hnumber⟩
        exact exists_decode_iff.mpr (.intro hassigned hnumber hselector hmore)

/-- A jump with its selector clear, a `not` with its ignored half set, and a `push` that is
misused though it is cut off as well. -/
example :
    decode [30, 5, 0, 0, 0] = .ok (.jump .always 5) ∧
      decode [18, 0x3f, 7] = .ok (.not (.general 3)) ∧
      decode [23] = .error (.immediateNotAllowed .push) :=
  ⟨rfl, rfl, rfl⟩

end Instr

end RegisterMachine
