/-
Instructions are read back.

The text of an instruction is its mnemonic and its operands, each of them a token, so a
line that holds it is read as the operation with the operands.  Put together and with its
names looked up, that is the instruction: the only thing that a text may leave open is
the target of a branch, which is shown by name where it has one.
-/
import RegisterMachine.Assembly.Program
import RegisterMachine.Instruction.Text
import RegisterMachine.Proofs.Assembly.Reading
import RegisterMachine.Proofs.Except

namespace RegisterMachine.Instr

open Assembly

/-! ### An instruction as a source has it -/

/-- The operands of the instruction's text. -/
def operandTexts (targetName? : Option String) : Instruction → List (List Char)
  | load dst src => [dst.name.toList, '[' :: (src.name.toList ++ [']'])]
  | store dst src => ['[' :: (dst.name.toList ++ [']']), src.name.toList]
  | mov dst src | alu _ dst src | cmp dst src => [dst.name.toList, (src.render .off).toList]
  | not reg | push reg | pop reg => [reg.name.toList]
  | call target | jump _ target => [(targetName?.getD target.addressText).toList]
  | ret => []

/-- What a branch target's text stands for. -/
def targetValue (targetName? : Option String) (target : Word) : Value :=
  match targetName? with
  | some name => .label name
  | none => .number target

/-- A source operand as it is read. -/
def sourceArgument : Operand Word → Argument
  | .reg r => .reg r
  | .imm value => .value (.number value)

/-- The operands as they are read. -/
def arguments (targetName? : Option String) : Instruction → List Argument
  | load dst src => [.reg dst, .deref src]
  | store dst src => [.deref dst, .reg src]
  | mov dst src | alu _ dst src | cmp dst src => [.reg dst, sourceArgument src]
  | not reg | push reg | pop reg => [.reg reg]
  | call target | jump _ target => [.value (targetValue targetName? target)]
  | ret => []

/-- The instruction as it is read, names still in it. -/
def asRead (targetName? : Option String) : Instruction → Instr Value
  | load dst src => load dst src
  | store dst src => store dst src
  | mov dst src => mov dst (numberOperand src)
  | alu op dst src => alu op dst (numberOperand src)
  | not reg => not reg
  | cmp dst src => cmp dst (numberOperand src)
  | push reg => push reg
  | pop reg => pop reg
  | call target => call (targetValue targetName? target)
  | ret => ret
  | jump c target => jump c (targetValue targetName? target)
where
  /-- A source operand with its immediate as a number. -/
  numberOperand : Operand Word → Operand Value
    | .reg r => .reg r
    | .imm value => .imm (.number value)

variable {targetName? : Option String}

theorem toList_render (targetName? : Option String) (i : Instruction) :
    (i.render .off targetName?).toList
      = written i.operation.mnemonic.toList (i.operandTexts targetName?) := by
  cases i with
  | load | store | mov | alu | cmp =>
      simp [render, operandTexts, written, operation, List.intercalate_cons_cons]
  | not | push | pop | call | ret | jump =>
      simp [render, operandTexts, written, operation]

/-- The operands have the shape that the operation requires. -/
theorem instr?_arguments (targetName? : Option String) (i : Instruction) :
    instr? i.operation (i.arguments targetName?) = some (i.asRead targetName?) := by
  cases i with
  | mov _ src | alu _ _ src | cmp _ src => cases src <;> rfl
  | _ => rfl

theorem size_asRead (targetName? : Option String) (i : Instruction) :
    (i.asRead targetName?).size = i.size := by
  cases i with
  | mov _ src | alu _ _ src | cmp _ src => cases src <;> rfl
  | _ => rfl

/-- Looking the names up gives the instruction. -/
theorem mapExcept_asRead {defs : Definitions} {i : Instruction}
    (h : ∀ name, targetName? = some name → ∀ target, i.branchTarget? = some target →
      defs.address? name = some target) :
    (i.asRead targetName?).mapExcept (Value.resolve defs) = .ok i := by
  have htarget : ∀ target, i.branchTarget? = some target →
      (targetValue targetName? target).resolve defs = .ok target := by
    intro target hbranch
    cases targetName? with
    | none => rfl
    | some name => simp [targetValue, Value.resolve, h name rfl target hbranch]
  cases i with
  | mov _ src | alu _ _ src | cmp _ src => cases src <;> rfl
  | call target | jump _ target => exact map_eq_ok.mpr ⟨target, htarget target rfl, rfl⟩
  | _ => rfl

/-! ### Reading it -/

theorem token_of_mem_operandTexts {i : Instruction}
    (h : ∀ name, targetName? = some name → Nameable name) :
    ∀ text ∈ i.operandTexts targetName?, Token text := by
  have hsource : ∀ src : Operand Word, Token (src.render .off).toList := by
    intro src
    cases src with
    | reg r => exact token_name r
    | imm value => exact token_decimal value.toNat
  have htarget : ∀ target : Word, Token (targetName?.getD target.addressText).toList := by
    intro target
    cases targetName? with
    | none => exact token_hex 8 target.toNat
    | some name => exact (h name rfl).1
  cases i with
  | load dst src => simp [operandTexts, token_name, token_bracketed]
  | store dst src => simp [operandTexts, token_name, token_bracketed]
  | mov dst src | alu _ dst src | cmp dst src => simp [operandTexts, token_name, hsource]
  | not reg | push reg | pop reg => simp [operandTexts, token_name]
  | call target | jump _ target => simp [operandTexts, htarget]
  | ret => simp [operandTexts]

theorem mapM_parse_operandTexts {i : Instruction}
    (h : ∀ name, targetName? = some name → Nameable name) :
    (i.operandTexts targetName?).mapM Argument.parse = .ok (i.arguments targetName?) := by
  have hsource : ∀ src : Operand Word,
      Argument.parse (src.render .off).toList = .ok (sourceArgument src) := by
    intro src
    cases src with
    | reg r => exact Argument.parse_name r
    | imm value => exact Argument.parse_decimal value
  have htarget : ∀ target : Word, Argument.parse (targetName?.getD target.addressText).toList
      = .ok (.value (targetValue targetName? target)) := by
    intro target
    cases targetName? with
    | none => exact Argument.parse_hex 8 target
    | some name =>
        refine (Argument.parse_label (h name rfl).2).trans ?_
        rw [String.ofList_toList]
        rfl
  cases i with
  | load dst src | store dst src =>
      simp only [operandTexts, arguments, List.mapM_cons, List.mapM_nil, Argument.parse_name,
        Argument.parse_bracketed]
      rfl
  | mov dst src | alu _ dst src | cmp dst src =>
      simp only [operandTexts, arguments, List.mapM_cons, List.mapM_nil, Argument.parse_name,
        hsource]
      rfl
  | not reg | push reg | pop reg =>
      simp only [operandTexts, arguments, List.mapM_cons, List.mapM_nil, Argument.parse_name]
      rfl
  | call target | jump _ target =>
      simp only [operandTexts, arguments, List.mapM_cons, List.mapM_nil, htarget]
      rfl
  | ret => rfl

/-- **An instruction is read back from its text.** -/
theorem parse_render {i : Instruction} (h : ∀ name, targetName? = some name → Nameable name) :
    Line.parse (i.render .off targetName?).toList
      = .ok ⟨[], some (.instr i.operation (i.arguments targetName?))⟩ := by
  have hdot : ∀ op ∈ Operation.all, op.mnemonic.toList.head? ≠ some '.' := by decide
  have htokens : ∀ text ∈ i.operandTexts targetName?, Token text := token_of_mem_operandTexts h
  rw [toList_render, Line.parse_written (token_mnemonic _) htokens,
    Statement.parse_instr (writtenAs_written _ _) (token_mnemonic _)
      (fun o ho => (htokens o ho).phrase) (Operation.ofMnemonic?_mnemonic _)
      (hdot _ (Operation.mem_all _)) (mapM_parse_operandTexts h)]
  rfl

end RegisterMachine.Instr
