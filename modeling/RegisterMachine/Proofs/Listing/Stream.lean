/-
A stream of instructions is read back one instruction after another.

No separator stands between the instructions of a program, so a reader finds the next one
only by knowing the size of the one before it.  `sweepFrom_encode_append` of
`Proofs/Listing/Rows.lean` says that one encoding makes one row, whatever follows it; here
the same is said of a whole stream.  Row `k` stands at the sum of the sizes of the `k`
instructions before it, and what follows the stream is swept from where the stream ends.

That a stream has only one reading is then a consequence: its rows tell the instructions.
-/
import RegisterMachine.Proofs.Listing.Rows
import Mathlib.Algebra.Ring.Nat

namespace RegisterMachine

namespace Instr

/-- The four sizes of an encoding: a return, two registers, a branch, an immediate. -/
theorem size_cases (i : Instruction) :
    i.size = 1 ∨ i.size = 2 ∨ i.size = 5 ∨ i.size = 6 := by
  unfold size Operation.size
  split
  · exact Or.inr (Or.inr (Or.inl rfl))
  · split
    · exact Or.inl rfl
    · split
      · exact Or.inr (Or.inr (Or.inr rfl))
      · exact Or.inr (Or.inl rfl)

end Instr

namespace Row

/-- The rows of a stream of instructions that starts at the given offset. -/
def ofStream (start : Nat) (is : List Instruction) : List Row :=
  is.mapIdx fun k i => ⟨start + ((is.take k).map Instr.size).sum, i.encode, some i⟩

@[simp] theorem ofStream_nil (start : Nat) : ofStream start [] = [] := rfl

theorem ofStream_cons (start : Nat) (i : Instruction) (is : List Instruction) :
    ofStream start (i :: is) = ⟨start, i.encode, some i⟩ :: ofStream (start + i.size) is := by
  simp [ofStream, List.mapIdx_cons, Nat.add_assoc]

theorem map_instr?_ofStream (start : Nat) (is : List Instruction) :
    (ofStream start is).map instr? = is.map some := by
  induction is generalizing start with
  | nil => rfl
  | cons i is ih => rw [ofStream_cons, List.map_cons, List.map_cons, ih]

/-- **A stream is swept into its instructions, and what follows it is swept from its end.** -/
theorem sweepFrom_stream_append (start : Nat) (is : List Instruction) (rest : List UInt8) :
    sweepFrom start (is.flatMap Instr.encode ++ rest)
      = ofStream start is ++ sweepFrom (start + (is.map Instr.size).sum) rest := by
  induction is generalizing start with
  | nil => simp
  | cons i is ih =>
      rw [List.flatMap_cons, List.append_assoc, sweepFrom_encode_append, ih, ofStream_cons,
        List.map_cons, List.sum_cons, Nat.add_assoc, List.cons_append]

theorem sweepFrom_stream (start : Nat) (is : List Instruction) :
    sweepFrom start (is.flatMap Instr.encode) = ofStream start is := by
  have h := sweepFrom_stream_append start is []
  rwa [List.append_nil, sweepFrom, List.append_nil] at h

theorem stream_inj {is js : List Instruction}
    (h : is.flatMap Instr.encode = js.flatMap Instr.encode) : is = js := by
  have hrows : ofStream 0 is = ofStream 0 js := by
    rw [← sweepFrom_stream, ← sweepFrom_stream, h]
  have hinstr := congrArg (List.map instr?) hrows
  rw [map_instr?_ofStream, map_instr?_ofStream] at hinstr
  exact (List.map_inj_right fun _ _ => Option.some.inj).mp hinstr

/-- **An instruction stream is uniquely decodable.**

Every encoding has the size of its instruction and is decoded to it, whatever follows.  The
encodings of a list of instructions are swept into exactly one row for each of them, in
order, every one at the sum of the sizes before it, and no other list has these bytes. -/
theorem stream_uniquely_decodable (start : Nat) (is js : List Instruction)
    (trailing : List UInt8) :
    (∀ i : Instruction,
        i.encode.length = i.size ∧
        (i.size = 1 ∨ i.size = 2 ∨ i.size = 5 ∨ i.size = 6) ∧
        Instr.decode (i.encode ++ trailing) = .ok i) ∧
      sweepFrom start (is.flatMap Instr.encode)
        = is.mapIdx (fun k i =>
            ⟨start + ((is.take k).map Instr.size).sum, i.encode, some i⟩) ∧
      (is.flatMap Instr.encode = js.flatMap Instr.encode ↔ is = js) := by
  refine ⟨fun i => ⟨?_, ?_, ?_⟩, ?_, ?_⟩
  · exact Instr.length_encode i
  · exact i.size_cases
  · exact Instr.decode_encode_append i trailing
  · exact sweepFrom_stream start is
  · exact ⟨stream_inj, congrArg _⟩

end Row

end RegisterMachine
