/-
Why a source is not assembled.

Each cause carries what its message shows.  An error is a cause with the number of the
line it was found on.
-/
import RegisterMachine.Assembly.Statement
import RegisterMachine.Text.Numeral

namespace RegisterMachine.Assembly

/-- Why a line cannot be assembled. -/
inductive Cause where
  | unknownMnemonic (word : String)
  /-- No directive has this name; the name is given with its dot. -/
  | unknownDirective (word : String)
  /-- An operand is no register, number or name. -/
  | invalidOperand (text : String)
  /-- What stands in brackets is no register. -/
  | expectedRegister (text : String)
  /-- What starts like a number is none, or does not fit in a word. -/
  | invalidNumber (text : String)
  | byteOutOfRange (value : Word)
  /-- What stands before a colon cannot name a label. -/
  | invalidLabel (text : String)
  | duplicateLabel (name : String)
  /-- A label is nowhere defined, or not yet where its address is needed at once. -/
  | undefinedLabel (name : String)
  /-- A statement would be put behind the current address. -/
  | orgBackwards (current target : Word)
  | operandShape (op : Operation)
  | directiveShape (d : Directive)
  deriving DecidableEq

namespace Cause

def message : Cause → String
  | unknownMnemonic word => "unknown mnemonic `" ++ word ++ "`"
  | unknownDirective word => "unknown directive `" ++ word ++ "`"
  | invalidOperand text => "invalid operand `" ++ text ++ "`"
  | expectedRegister text => "expected register, found `" ++ text ++ "`"
  | invalidNumber text => "invalid number `" ++ text ++ "`"
  | byteOutOfRange value => "value " ++ Text.hex 1 value.toNat ++ " does not fit in a byte"
  | invalidLabel text => "invalid label name `" ++ text ++ "`"
  | duplicateLabel name => "label `" ++ name ++ "` is already defined"
  | undefinedLabel name => "undefined label `" ++ name ++ "`"
  | orgBackwards current target =>
    ".org " ++ Text.hex 1 target.toNat ++ " is behind the current address " ++
      Text.hex 1 current.toNat
  | operandShape op => "usage: " ++ usageText op
  | directiveShape d => "usage: ." ++ d.name ++ " VALUE"

end Cause

/-- A cause and the line it was found on. -/
structure Error where
  line : Nat
  cause : Cause
  deriving DecidableEq

namespace Error

def message (e : Error) : String :=
  "line " ++ Text.decimal e.line ++ ": " ++ e.cause.message

end Error

/-- Reports a cause on the line with the given number. -/
def onLine {α : Type} (line : Nat) : Except Cause α → Except Error α
  | .ok a => .ok a
  | .error cause => .error ⟨line, cause⟩

end RegisterMachine.Assembly
