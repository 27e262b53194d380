/-
Reading a line of assembly source.

    label:  mnemonic operand, operand   ; comment

A comment runs from the first semicolon or hash to the end of the line, wherever that
stands.  What is left is cut at its first colon as long as a single word stands before
it, which must then be fit to name a label.  The word that follows names an operation or
a directive, and commas separate the operands behind it.
-/
import RegisterMachine.Assembly.Error

namespace RegisterMachine.Assembly

/-- Whether a character starts a comment. -/
def startsComment (c : Char) : Bool :=
  c == ';' || c == '#'

/-- Whether a character may start a name: an ASCII letter, an underscore or a dot. -/
def startsName (c : Char) : Bool :=
  c.isAlpha || c == '_' || c == '.'

/-- Whether a text is a name: names go on with ASCII letters, digits, underscores and dots. -/
def isName : List Char → Bool
  | [] => false
  | c :: rest => startsName c && rest.all fun c => startsName c || c.isDigit

/-- Whether a text may name a label: it is a name, and no register has it. -/
def isLabelName (text : List Char) : Bool :=
  isName text && (Register.ofName? text).isNone

namespace Value

/-- Reads the digits of a number, hexadecimal if they follow `0x`. -/
def readMagnitude? : List Char → Option Nat
  | '0' :: 'x' :: digits => Text.readUnsigned? 16 digits
  | '0' :: 'X' :: digits => Text.readUnsigned? 16 digits
  | digits => Text.readUnsigned? 10 digits

/-- Reads a number.  A negative one stands for the word that is its two's complement. -/
def readNumber? : List Char → Option Word
  | '-' :: digits =>
    ((readMagnitude? digits).filter (· ≤ 0x80000000)).map fun n => -UInt32.ofNat n
  | digits => ((readMagnitude? digits).filter (· < UInt32.size)).map UInt32.ofNat

/-- Reads a value; what starts with a digit or a minus sign is taken for a number. -/
def parse (text : List Char) : Except Cause Value :=
  if (text.head?.any fun c => c.isDigit || c == '-') then
    match readNumber? text with
    | some n => .ok (number n)
    | none => .error (.invalidNumber (String.ofList text))
  else if isName text then .ok (label (String.ofList text))
  else .error (.invalidOperand (String.ofList text))

end Value

namespace Argument

/-- What stands between an opening bracket at the front and a closing one at the end. -/
def bracketed? : List Char → Option (List Char)
  | '[' :: rest => if rest.getLast? = some ']' then some rest.dropLast else none
  | _ => none

def parse (text : List Char) : Except Cause Argument :=
  match bracketed? text with
  | some inner =>
    match Register.ofName? (Text.trim inner) with
    | some r => .ok (deref r)
    | none => .error (.expectedRegister (String.ofList (Text.trim inner)))
  | none =>
    match Register.ofName? text with
    | some r => .ok (reg r)
    | none => (Value.parse text).map value

end Argument

namespace Statement

/-- The operands of a statement: what stands between commas, without blanks around it. -/
def splitOperands (text : List Char) : List (List Char) :=
  let operands := Text.trim text
  if operands.isEmpty then [] else (Text.splitWhere (· == ',') operands).map Text.trim

/-- Reads a directive with the given name, which must have exactly one value. -/
def parseDirective (name : List Char) (operands : List (List Char)) : Except Cause Statement :=
  match Directive.ofName? name with
  | none => .error (.unknownDirective (String.ofList ('.' :: name)))
  | some d =>
    match operands with
    | [value] => (Value.parse value).map (directive d)
    | _ => .error (.directiveShape d)

/-- Reads a statement.  The text starts with a character that is not blank. -/
def parse (text : List Char) : Except Cause Statement :=
  let (word, rest) := (Text.cutWhere? Text.isBlank text).getD (text, [])
  let operands := splitOperands rest
  match word with
  | '.' :: name => parseDirective name operands
  | _ =>
    match Operation.ofMnemonic? word with
    | none => .error (.unknownMnemonic (String.ofList word))
    | some op => (operands.mapM Argument.parse).map (instr op)

end Statement

namespace Line

/-- Takes the labels off the front of a text and returns them with what is left. -/
def splitLabels (text : List Char) : Except Cause (List String × List Char) :=
  match _hcut : Text.cutWhere? (· == ':') text with
  | none => .ok ([], text)
  | some (head, tail) =>
    let name := Text.trim head
    if name.any Text.isBlank then .ok ([], text)
    else if isLabelName name then do
      let (names, rest) ← splitLabels (Text.trim tail)
      return (String.ofList name :: names, rest)
    else .error (.invalidLabel (String.ofList name))
termination_by text.length
decreasing_by
  have := Text.length_of_cutWhere? _hcut
  have := Text.length_trim_le tail
  omega

/-- The line without its comment and the blanks around it. -/
def uncomment (text : List Char) : List Char :=
  Text.trim (text.takeWhile (!startsComment ·))

def parse (text : List Char) : Except Cause Line := do
  let (labels, rest) ← splitLabels (uncomment text)
  if rest.isEmpty then return ⟨labels, none⟩
  else return ⟨labels, some (← Statement.parse rest)⟩

end Line

end RegisterMachine.Assembly
