/-
Instructions.

An instruction is parametrised by what stands for its immediates and branch targets:
words in a program that runs, references to labels in one that is being assembled.  The
operation, the operand form and so the encoded size do not depend on that choice
(`size_mapExcept`), which is why an assembler can lay out a program before it knows the
addresses of its labels.
-/
import RegisterMachine.Operation
import RegisterMachine.Register

namespace RegisterMachine

/-- The source operand of an instruction with two operands. -/
inductive Operand (α : Type) where
  | reg (r : Register)
  /-- A value given in the instruction. -/
  | imm (value : α)
  deriving DecidableEq

namespace Operand

variable {α β : Type}

/-- The selector bit that tells the operand's kind. -/
def form : Operand α → OperandForm
  | reg _ => .reg
  | imm _ => .imm

/-- Replaces the value of an immediate, unless the replacement fails. -/
def mapExcept {ε : Type} (f : α → Except ε β) : Operand α → Except ε (Operand β)
  | reg r => .ok (reg r)
  | imm value => (f value).map imm

end Operand

/-- An instruction whose immediates and branch targets are of type `α`. -/
inductive Instr (α : Type) where
  /-- Reads the word at the address in `src` into `dst`. -/
  | load (dst src : Register)
  /-- Writes `src` to the word at the address in `dst`. -/
  | store (dst src : Register)
  /-- Copies the source into `dst`. -/
  | mov (dst : Register) (src : Operand α)
  /-- Combines `dst` with the source and keeps the result in `dst`. -/
  | alu (op : AluOp) (dst : Register) (src : Operand α)
  | not (reg : Register)
  /-- Compares `dst` with the source. -/
  | cmp (dst : Register) (src : Operand α)
  /-- Puts a register on the stack. -/
  | push (reg : Register)
  /-- Takes a register from the stack. -/
  | pop (reg : Register)
  | call (target : α)
  | ret
  /-- Goes to the target if the condition holds. -/
  | jump (condition : Condition) (target : α)
  deriving DecidableEq

/-- An instruction of a program that can run. -/
abbrev Instruction := Instr Word

namespace Instr

variable {α β : Type}

/-- What the instruction does. -/
def operation : Instr α → Operation
  | load .. => .load
  | store .. => .store
  | mov .. => .mov
  | alu op .. => .alu op
  | not _ => .not
  | cmp .. => .cmp
  | push _ => .push
  | pop _ => .pop
  | call _ => .call
  | ret => .ret
  | jump c _ => .jump c

/-- The selector bit as the encoder writes it; branches carry the immediate selector. -/
def form : Instr α → OperandForm
  | mov _ src | alu _ _ src | cmp _ src => src.form
  | call _ | jump .. => .imm
  | _ => .reg

/-- The size of the encoded instruction in bytes. -/
def size (i : Instr α) : Nat :=
  i.operation.size i.form

/-- The address operand of a call or jump. -/
def branchTarget? : Instr α → Option α
  | call target | jump _ target => some target
  | _ => none

/-- Replaces the immediate or the branch target, unless the replacement fails. -/
def mapExcept {ε : Type} (f : α → Except ε β) : Instr α → Except ε (Instr β)
  | load dst src => .ok (load dst src)
  | store dst src => .ok (store dst src)
  | mov dst src => (src.mapExcept f).map (mov dst)
  | alu op dst src => (src.mapExcept f).map (alu op dst)
  | not reg => .ok (not reg)
  | cmp dst src => (src.mapExcept f).map (cmp dst)
  | push reg => .ok (push reg)
  | pop reg => .ok (pop reg)
  | call target => (f target).map call
  | ret => .ok ret
  | jump c target => (f target).map (jump c)

theorem size_pos (i : Instr α) : 0 < i.size := by
  unfold size Operation.size
  split
  · decide
  · split
    · decide
    · split <;> decide

theorem size_le (i : Instr α) : i.size ≤ 6 := by
  unfold size Operation.size
  split
  · decide
  · split
    · decide
    · split <;> decide

private theorem form_of_map_ok {ε : Type} {f : α → Except ε β} {src : Operand α}
    {g : Operand β → Instr β} {j : Instr β} (h : (src.mapExcept f).map g = .ok j) :
    ∃ src', j = g src' ∧ src'.form = src.form := by
  cases src with
  | reg r => cases h; exact ⟨_, rfl, rfl⟩
  | imm v =>
    cases hv : f v with
    | error e => simp [Operand.mapExcept, hv, Except.map] at h
    | ok w =>
      simp only [Operand.mapExcept, hv, Except.map, Except.ok.injEq] at h
      exact ⟨_, h.symm, rfl⟩

/-- Replacing immediates and targets keeps the size. -/
theorem size_mapExcept {ε : Type} {f : α → Except ε β} {i : Instr α} {j : Instr β}
    (h : i.mapExcept f = .ok j) : j.size = i.size := by
  cases i with
  | mov _ _ | alu _ _ _ | cmp _ _ =>
    obtain ⟨src, rfl, hform⟩ := form_of_map_ok h
    simp [size, operation, form, hform]
  | call t | jump _ t =>
    cases ht : f t with
    | error e => simp [mapExcept, ht, Except.map] at h
    | ok w =>
      simp only [mapExcept, ht, Except.map, Except.ok.injEq] at h
      subst h
      rfl
  | _ => cases h; rfl

end Instr

end RegisterMachine
