/-
The operations of the instruction set.

An operation has a number from 1 to 23, which the upper seven bits of an instruction's
first byte hold, and a mnemonic.  The lowest bit of that byte selects whether the
source operand is a register or an immediate word.  Arithmetic operations and jumps are
families: the number of a member is that of the family's first plus its place in it.
-/
import RegisterMachine.Flags
import RegisterMachine.Text.Split

namespace RegisterMachine

/-- An operation that combines the destination with a source and keeps the result. -/
inductive AluOp where
  | add
  | sub
  | and
  | or
  | xor
  deriving DecidableEq

namespace AluOp

/-- All arithmetic operations in the order of their numbers. -/
def all : List AluOp := [add, sub, and, or, xor]

/-- The operation's place in its family. -/
def index : AluOp → Nat
  | add => 0
  | sub => 1
  | and => 2
  | or => 3
  | xor => 4

def mnemonic : AluOp → String
  | add => "add"
  | sub => "sub"
  | and => "and"
  | or => "or"
  | xor => "xor"

/-- The result of the operation; sums and differences wrap. -/
def apply : AluOp → Word → Word → Word
  | add, dst, src => dst + src
  | sub, dst, src => dst - src
  | and, dst, src => dst &&& src
  | or, dst, src => dst ||| src
  | xor, dst, src => dst ^^^ src

end AluOp

/-- The condition under which a jump is taken. -/
inductive Condition where
  | always
  | zero
  | notZero
  | equal
  | notEqual
  | greater
  | less
  | greaterEqual
  | lessEqual
  deriving DecidableEq

namespace Condition

/-- All conditions in the order of their jumps' numbers. -/
def all : List Condition :=
  [always, zero, notZero, equal, notEqual, greater, less, greaterEqual, lessEqual]

/-- The condition's place in its family. -/
def index : Condition → Nat
  | always => 0
  | zero => 1
  | notZero => 2
  | equal => 3
  | notEqual => 4
  | greater => 5
  | less => 6
  | greaterEqual => 7
  | lessEqual => 8

/-- The name in assembly text of the jump with this condition. -/
def mnemonic : Condition → String
  | always => "jmp"
  | zero => "jmpz"
  | notZero => "jmpnz"
  | equal => "jmpeq"
  | notEqual => "jmpne"
  | greater => "jmpgt"
  | less => "jmplt"
  | greaterEqual => "jmpge"
  | lessEqual => "jmple"

/-- Whether the condition holds of the given flags. -/
def holds (flags : Flags) : Condition → Bool
  | always => true
  | zero => flags.has .zero
  | notZero => !flags.has .zero
  | equal => flags.has .equal
  | notEqual => !flags.has .equal
  | greater => flags.has .greater
  | less => flags.has .less
  | greaterEqual => flags.has .greater || flags.has .equal
  | lessEqual => flags.has .less || flags.has .equal

end Condition

/-- The selector bit of an instruction: where its source operand is. -/
inductive OperandForm where
  | reg
  /-- The source is a word that follows the operand byte. -/
  | imm
  deriving DecidableEq

namespace OperandForm

def bit : OperandForm → Nat
  | reg => 0
  | imm => 1

/-- The form that the lowest bit of a number selects. -/
def ofBit (n : Nat) : OperandForm :=
  if n % 2 = 0 then reg else imm

end OperandForm

/-- What an instruction does, its operands left out. -/
inductive Operation where
  | load
  | store
  | mov
  | alu (op : AluOp)
  | not
  | cmp
  | push
  | pop
  | call
  | ret
  | jump (condition : Condition)
  deriving DecidableEq

namespace Operation

/-- All operations in the order of their numbers. -/
def all : List Operation :=
  [load, store, mov] ++ AluOp.all.map alu ++ [not, cmp, push, pop, call, ret] ++
    Condition.all.map jump

def number : Operation → Nat
  | load => 1
  | store => 2
  | mov => 3
  | alu op => 4 + op.index
  | not => 9
  | cmp => 10
  | push => 11
  | pop => 12
  | call => 13
  | ret => 14
  | jump c => 15 + c.index

/-- The operation with the given number; 0 and everything above 23 are unassigned. -/
def ofNumber? (n : Nat) : Option Operation :=
  if n = 0 then none else all[n - 1]?

def mnemonic : Operation → String
  | load => "load"
  | store => "store"
  | mov => "mov"
  | alu op => op.mnemonic
  | not => "not"
  | cmp => "cmp"
  | push => "push"
  | pop => "pop"
  | call => "call"
  | ret => "ret"
  | jump c => c.mnemonic

/-- The operation with the given mnemonic, in whatever case its letters are. -/
def ofMnemonic? (name : List Char) : Option Operation :=
  all.find? fun op => Text.sameIgnoringCase op.mnemonic.toList name

/-- Whether the operation is a jump, conditional or not. -/
def isJump : Operation → Bool
  | jump _ => true
  | _ => false

/-- Whether the operation has an address as its only operand. -/
def isBranch : Operation → Bool
  | call => true
  | op => op.isJump

/-- Whether the source operand may be an immediate. -/
def hasImmediateForm : Operation → Bool
  | mov | alu _ | cmp => true
  | _ => false

/-- Whether the selector bit means nothing to the decoder. -/
def ignoresSelector : Operation → Bool
  | ret => true
  | op => op.isBranch

/-- The size of the encoded instruction in bytes. -/
def size (op : Operation) (form : OperandForm) : Nat :=
  if op.isBranch then 5
  else if op = ret then 1
  else if form = .imm ∧ op.hasImmediateForm then 6
  else 2

/-- The first byte of an instruction: the operation's number and the selector bit. -/
def byte (op : Operation) (form : OperandForm) : UInt8 :=
  UInt8.ofNat (2 * op.number + form.bit)

/-! ### Numbers and bytes -/

theorem mem_all (op : Operation) : op ∈ all := by
  cases op with
  | alu op => cases op <;> decide
  | jump c => cases c <;> decide
  | _ => decide

theorem number_le (op : Operation) : op.number ≤ 23 := by
  cases op with
  | alu op => cases op <;> decide
  | jump c => cases c <;> decide
  | _ => decide

/-- An operation is found under its number. -/
theorem ofNumber?_number (op : Operation) : ofNumber? op.number = some op := by
  cases op with
  | alu op => cases op <;> rfl
  | jump c => cases c <;> rfl
  | _ => rfl

/-- The numbers 1 to 23 are assigned, each to the operation that has it. -/
theorem number_of_ofNumber? {n : Nat} {op : Operation} (h : ofNumber? n = some op) :
    op.number = n := by
  by_cases hn : n < 24
  · revert h
    have : ∀ m < 24, ∀ op ∈ all, ofNumber? m = some op → op.number = m := by decide
    exact this n hn op (mem_all op)
  · have : all[n - 1]? = none :=
      List.getElem?_eq_none (by simp [all, AluOp.all, Condition.all]; omega)
    rw [ofNumber?, if_neg (by omega), this] at h
    contradiction

/-- The first byte of an instruction holds the operation's number. -/
theorem byte_div_two (op : Operation) (form : OperandForm) :
    (op.byte form).toNat / 2 = op.number := by
  have := op.number_le
  have : form.bit ≤ 1 := by cases form <;> decide
  rw [byte, UInt8.toNat_ofNat']
  omega

/-- The first byte of an instruction holds the selector bit. -/
theorem ofBit_byte (op : Operation) (form : OperandForm) :
    OperandForm.ofBit (op.byte form).toNat = form := by
  have := op.number_le
  have : (op.byte form).toNat % 2 = form.bit := by
    have : form.bit ≤ 1 := by cases form <;> decide
    rw [byte, UInt8.toNat_ofNat']
    omega
  rw [OperandForm.ofBit, this]
  cases form <;> rfl

end Operation

end RegisterMachine
