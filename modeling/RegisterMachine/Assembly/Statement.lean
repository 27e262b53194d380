/-
What a line of assembly source says.

A line defines any number of labels and may hold one statement: an instruction with its
operands as written, or a directive with a value.  A value is a number or the name of a
label whose address is found out later.
-/
import RegisterMachine.Instruction.Basic

namespace RegisterMachine.Assembly

/-- A number, or the address of a label. -/
inductive Value where
  | number (n : Word)
  /-- The address of the label with this name. -/
  | label (name : String)
  deriving DecidableEq

inductive Argument where
  | reg (r : Register)
  /-- The word at the address in a register, written in brackets. -/
  | deref (r : Register)
  | value (v : Value)
  deriving DecidableEq

inductive Directive where
  /-- The next statement goes to the given address. -/
  | org
  /-- Four bytes that hold the value. -/
  | word
  /-- One byte that holds the value. -/
  | byte
  deriving DecidableEq

namespace Directive

/-- The directive's name, without the dot before it. -/
def name : Directive → String
  | org => "org"
  | word => "word"
  | byte => "byte"

def all : List Directive := [org, word, byte]

/-- The directive with the given name, in whatever case its letters are. -/
def ofName? (name : List Char) : Option Directive :=
  all.find? fun d => Text.sameIgnoringCase d.name.toList name

end Directive

inductive Statement where
  /-- An instruction; its operands may not fit the operation. -/
  | instr (op : Operation) (args : List Argument)
  | directive (d : Directive) (v : Value)
  deriving DecidableEq

structure Line where
  /-- The names that the line defines, in order. -/
  labels : List String
  /-- The statement that follows them. -/
  statement? : Option Statement
  deriving DecidableEq

namespace Argument

/-- The argument as a source operand; memory is none. -/
def operand? : Argument → Option (Operand Value)
  | reg r => some (.reg r)
  | value v => some (.imm v)
  | deref _ => none

end Argument

/-- The instruction that an operation makes with its operands, if they have the shape
that the operation requires. -/
def instr? : Operation → List Argument → Option (Instr Value)
  | .load, [.reg dst, .deref src] => some (.load dst src)
  | .store, [.deref dst, .reg src] => some (.store dst src)
  | .mov, [.reg dst, src] => src.operand?.map (.mov dst)
  | .alu op, [.reg dst, src] => src.operand?.map (.alu op dst)
  | .not, [.reg r] => some (.not r)
  | .cmp, [.reg dst, src] => src.operand?.map (.cmp dst)
  | .push, [.reg r] => some (.push r)
  | .pop, [.reg r] => some (.pop r)
  | .call, [.value v] => some (.call v)
  | .ret, [] => some .ret
  | .jump c, [.value v] => some (.jump c v)
  | _, _ => none

/-- How the operation is written, for a reader whose operands did not fit. -/
def usageText (op : Operation) : String :=
  match op with
  | .load => op.mnemonic ++ " REG, [REG]"
  | .store => op.mnemonic ++ " [REG], REG"
  | .not | .push | .pop => op.mnemonic ++ " REG"
  | .ret => op.mnemonic
  | .call | .jump _ => op.mnemonic ++ " ADDR"
  | .mov | .alu _ | .cmp => op.mnemonic ++ " REG, REG|IMM"

/-- An instruction does what its statement names. -/
theorem operation_of_instr? {op : Operation} {args : List Argument} {i : Instr Value}
    (h : instr? op args = some i) : i.operation = op := by
  unfold instr? at h
  split at h
  all_goals first
    | (obtain rfl := Option.some.inj h; rfl)
    | (obtain ⟨_, _, rfl⟩ := Option.map_eq_some_iff.1 h; rfl)
    | contradiction

end RegisterMachine.Assembly
