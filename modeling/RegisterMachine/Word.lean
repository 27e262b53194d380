/-
Machine words.

A word is an unsigned 32-bit number whose arithmetic wraps.  It is stored as four
bytes, least significant first, and a comparison reads it as a signed number in two's
complement.  The bytes are taken with division and remainder on natural numbers, so
that `ofBytes_bytes` and its converse are arithmetic.
-/

namespace RegisterMachine

/-- An unsigned 32-bit machine word. -/
abbrev Word := UInt32

namespace Word

/-- The number of bytes a word takes in memory. -/
def byteCount : Nat := 4

/-- The word's four bytes, least significant first. -/
def bytes (w : Word) : List UInt8 :=
  [UInt8.ofNat w.toNat, UInt8.ofNat (w.toNat / 0x100),
    UInt8.ofNat (w.toNat / 0x10000), UInt8.ofNat (w.toNat / 0x1000000)]

/-- The word with the given bytes, least significant first. -/
def ofBytes (b₀ b₁ b₂ b₃ : UInt8) : Word :=
  UInt32.ofNat (b₀.toNat + 0x100 * b₁.toNat + 0x10000 * b₂.toNat + 0x1000000 * b₃.toNat)

/-- Reads a word off the front of a byte string that has at least four bytes. -/
def ofBytes? : List UInt8 → Option Word
  | b₀ :: b₁ :: b₂ :: b₃ :: _ => some (ofBytes b₀ b₁ b₂ b₃)
  | _ => none

/-- The word read in two's complement. -/
def toSigned (w : Word) : Int :=
  Int.bmod w.toNat 0x100000000

/-- The word's least significant byte. -/
def lowByte (w : Word) : UInt8 :=
  UInt8.ofNat w.toNat

@[simp] theorem length_bytes (w : Word) : w.bytes.length = 4 := rfl

/-- A word is recovered from its bytes. -/
theorem ofBytes?_bytes (w : Word) (rest : List UInt8) :
    ofBytes? (w.bytes ++ rest) = some w := by
  simp only [bytes, List.cons_append, List.nil_append, ofBytes?, ofBytes, Option.some.injEq]
  apply UInt32.toNat_inj.1
  have h := w.toNat_lt
  simp only [UInt32.toNat_ofNat', UInt8.toNat_ofNat']
  omega

/-- Bytes are recovered from the word they make up. -/
theorem bytes_ofBytes (b₀ b₁ b₂ b₃ : UInt8) :
    bytes (ofBytes b₀ b₁ b₂ b₃) = [b₀, b₁, b₂, b₃] := by
  have h₀ := b₀.toNat_lt
  have h₁ := b₁.toNat_lt
  have h₂ := b₂.toNat_lt
  have h₃ := b₃.toNat_lt
  simp only [bytes, ofBytes, List.cons.injEq, and_true, ← UInt8.toNat_inj, UInt32.toNat_ofNat',
    UInt8.toNat_ofNat']
  omega

/-- A word can be read exactly from the byte strings that are long enough. -/
theorem ofBytes?_eq_none_iff (bytes : List UInt8) :
    ofBytes? bytes = none ↔ bytes.length < 4 := by
  unfold ofBytes?
  split
  · simp
  · rename_i h
    match bytes, h with
    | [], _ => simp
    | [_], _ => simp
    | [_, _], _ => simp
    | [_, _, _], _ => simp
    | b₀ :: b₁ :: b₂ :: b₃ :: r, h => exact absurd rfl (h b₀ b₁ b₂ b₃ r)

/-- A word is read as negative exactly if its top bit is set. -/
theorem toSigned_eq (w : Word) :
    w.toSigned = if 0x80000000 ≤ w.toNat then (w.toNat : Int) - 0x100000000 else w.toNat := by
  have hlt := w.toNat_lt
  unfold toSigned
  split
  · rw [Int.bmod_eq_iff (by omega)]
    omega
  · exact Int.bmod_eq_of_le (by omega) (by omega)

/-- No two words read as the same signed number. -/
theorem toSigned_inj {a b : Word} : a.toSigned = b.toSigned ↔ a = b := by
  refine ⟨fun h => UInt32.toNat_inj.1 ?_, congrArg _⟩
  have ha := a.toNat_lt
  have hb := b.toNat_lt
  rw [toSigned_eq, toSigned_eq] at h
  split at h <;> split at h <;> omega

end Word

end RegisterMachine
