/-
Reading command lines.

The first word names a command; what follows are options, which may stand in any order,
and the arguments that are known by their places.  Long options start with two dashes and take
their value behind an equals sign or as the next word.  Short options start with one dash, and
several of them may share it; the value of the last may follow at once.  Behind a bare double
dash there are no options.

A value that is a word of its own is only judged when the next argument that the command
knows is accepted, or at the end.  So an argument that the command does not know is
reported before a bad value in front of it.
-/
import RegisterMachine.CommandLine.Reader
import RegisterMachine.Text.Numeral
import RegisterMachine.Text.Split

namespace RegisterMachine.CommandLine

/-! ### Values -/

namespace ValueKind

/-- Reads a number below 2^32.  It may have a sign, so minus zero is one. -/
def readU32? (value : String) : Option Nat :=
  match value.toList with
  | '-' :: digits => (Text.readDigits? 10 digits).filter (· = 0)
  | digits => (Text.readUnsigned? 10 digits).filter (· < UInt32.size)

def readU64? (value : String) : Option Nat :=
  (Text.readUnsigned? 10 value.toList).filter (· < UInt64.size)

/-- The value that a text denotes. -/
def read (value : String) : ValueKind → Except UsageError ArgValue
  | path => if value.isEmpty then .error .invalidValue else .ok (.path value)
  | text => .ok (.text value)
  | u32 =>
    match readU32? value with
    | some n => .ok (.u32 (UInt32.ofNat n))
    | none => .error .invalidNumber
  | u64 =>
    match readU64? value with
    | some n => .ok (.u64 (UInt64.ofNat n))
    | none => .error .invalidNumber
  | choice words => if value ∈ words then .ok (.text value) else .error .invalidValue

end ValueKind

namespace Param

/-- The option that every command takes. -/
def help : Param := { id := "help", action := .help, long? := some "help", short? := some 'h' }

def takesValue (param : Param) : Bool :=
  match param.action with
  | .set _ => true
  | .setTrue | .count | .help => false

/-- Whether the argument is known by its place. -/
def isPositional (param : Param) : Bool :=
  param.long?.isNone && param.short?.isNone

end Param

namespace Matches

def has (m : Matches) (id : String) : Bool :=
  (m.value? id).isSome

/-- Gives an argument a value, whatever it had before. -/
def put (m : Matches) (id : String) (value : ArgValue) : Matches :=
  ⟨(id, value) :: m.values⟩

/-- Accepts an argument that has a value. -/
def acceptValue (m : Matches) (value : String) (param : Param) : Except UsageError Matches := do
  match param.action with
  | .set kind =>
    if m.has param.id then .error .repeatedArgument
    else return m.put param.id (← kind.read value)
  | .setTrue | .count | .help => .error .unexpectedValue

/-- Accepts an argument without a value. -/
def acceptSwitch (m : Matches) (param : Param) : Except UsageError Matches :=
  match param.action with
  | .set _ => .error .invalidValue
  | .setTrue =>
    if m.has param.id then .error .repeatedArgument else .ok (m.put param.id (.flag true))
  | .count =>
    .ok (m.put param.id (.count (UInt8.ofNat (min 255 ((m.count param.id).toNat + 1)))))
  | .help => .error .helpRequested

/-- Gives an argument that has not been given the value that it has then. -/
def complete (m : Matches) (param : Param) : Except UsageError Matches := do
  if m.has param.id then return m
  match param.action, param.default? with
  | .set kind, some text => return m.put param.id (← kind.read text)
  | .set _, none => if param.required then .error .missingPath else return m
  | .setTrue, _ => return m.put param.id (.flag false)
  | .count, _ => return m.put param.id (.count 0)
  | .help, _ => return m

end Matches

/-! ### The arguments of a command -/

/-- An argument that is not yet accepted. -/
structure Pending where
  param : Param
  /-- Its value, if that has been seen. -/
  value? : Option String
  deriving DecidableEq

/-- How far the arguments have been read. -/
structure Progress where
  accepted : Matches := {}
  /-- What is still to be accepted. -/
  pending? : Option Pending := none
  deriving DecidableEq

namespace Progress

/-- Accepts what is pending. -/
def settle (p : Progress) : Except UsageError Matches :=
  match p.pending? with
  | none => .ok p.accepted
  | some ⟨param, some value⟩ => p.accepted.acceptValue value param
  | some ⟨_, none⟩ => .error .invalidValue

/-- Whether the argument has been seen. -/
def hasSeen (p : Progress) (param : Param) : Bool :=
  p.accepted.has param.id || p.pending?.any (·.param = param)

/-- Takes a word for the next argument that is known by its place. -/
def takePlace (params : List Param) (word : String) (p : Progress) :
    Except UsageError Progress :=
  match params.find? fun param => param.isPositional && !p.hasSeen param with
  | none => .error .unknownArgument
  | some param => do return ⟨← p.settle, some ⟨param, some word⟩⟩

/-- Takes a word, which is the value that an option waits for or else stands for itself. -/
def takeWord (params : List Param) (word : String) (p : Progress) : Except UsageError Progress :=
  match p.pending? with
  | some ⟨param, none⟩ => .ok { p with pending? := some ⟨param, some word⟩ }
  | _ => p.takePlace params word

/-- Takes an option and the value that is attached to it, if there is one. -/
def takeParam (param : Param) (attached? : Option String) (p : Progress) :
    Except UsageError Progress := do
  if param.takesValue then
    match attached? with
    | some value => return ⟨← (← p.settle).acceptValue value param, none⟩
    | none => return ⟨← p.settle, some ⟨param, none⟩⟩
  else
    match attached? with
    | some _ => .error .unexpectedValue
    | none => return ⟨← (← p.settle).acceptSwitch param, none⟩

/-- Takes an option behind two dashes. -/
def takeLong (params : List Param) (text : List Char) (p : Progress) :
    Except UsageError Progress :=
  let (name, attached?) := match Text.cutWhere? (· == '=') text with
    | some (name, value) => (name, some (String.ofList value))
    | none => (text, none)
  match params.find? fun param => param.long? = some (String.ofList name) with
  | some param => p.takeParam param attached?
  | none => .error .unknownArgument

/-- The value that follows the letter of an option at once; an equals sign before it does not
belong to it. -/
def attachedValue? : List Char → Option String
  | [] => none
  | '=' :: value => some (String.ofList value)
  | value => some (String.ofList value)

/-- Takes the options behind one dash. -/
def takeShort (params : List Param) : List Char → Progress → Except UsageError Progress
  | [], p => .ok p
  | letter :: rest, p =>
    match params.find? fun param => param.short? = some letter with
    | none => .error .unknownArgument
    | some param =>
      if param.takesValue then p.takeParam param (attachedValue? rest)
      else do takeShort params rest (← p.takeParam param none)

/-- Takes arguments behind a bare double dash. -/
def takePlaces (params : List Param) (words : List String) (p : Progress) :
    Except UsageError Progress :=
  words.foldlM (fun p word => p.takePlace params word) p

/-- Takes the arguments of a command. -/
def takeAll (params : List Param) : List String → Progress → Except UsageError Progress
  | [], p => .ok p
  | arg :: rest, p =>
    match arg.toList with
    | ['-', '-'] => p.takePlaces params rest
    | '-' :: '-' :: text => do takeAll params rest (← p.takeLong params text)
    | '-' :: letter :: text => do takeAll params rest (← p.takeShort params (letter :: text))
    | _ => do takeAll params rest (← p.takeWord params arg)

end Progress

/-- Reads the arguments of a command. -/
def readCommand (command : CommandDecl) (args : List String) : Except UsageError Matches := do
  let progress ← Progress.takeAll (command.params ++ [.help]) args {}
  command.params.foldlM Matches.complete (← progress.settle)

/-! ### Commands -/

/-- The word that asks for help, with the names of commands behind it. -/
def helpWord : String := "help"

/-- Whether a word names a command or asks for help. -/
def isCommandWord (commands : List CommandDecl) (word : String) : Bool :=
  word = helpWord || commands.any (·.name = word)

/-- Answers a request for help: there is help on every command and on help itself, and on
nothing else. -/
def answerHelp (commands : List CommandDecl) : List String → UsageError
  | [] => .helpRequested
  | [name] => if isCommandWord commands name then .helpRequested else .unknownCommand
  | _ => .unknownCommand

/-- Answers options that stand before any command: only help can be asked for there. -/
def answerLeadingOption (text : List Char) : UsageError :=
  match text with
  | '-' :: name =>
    if name = "help".toList then .helpRequested
    else if "help=".toList.isPrefixOf name then .unexpectedValue
    else .unknownArgument
  | letter :: _ => if letter = 'h' then .helpRequested else .unknownArgument
  | [] => .unknownCommand

/-- Answers a command line that starts with no command. -/
def answerOther (commands : List CommandDecl) (word : String) (args : List String) : UsageError :=
  if word = helpWord then answerHelp commands args
  else
    match word.toList with
    | ['-', '-'] =>
      match args with
      | [] => .nothingGiven
      | word :: _ => if isCommandWord commands word then .unknownArgument else .unknownCommand
    | '-' :: option => answerLeadingOption option
    | _ => .unknownCommand

/-- Reads the words behind the name of the program. -/
def readWords (commands : List CommandDecl) :
    List String → Except UsageError (String × Matches)
  | [] => .error .nothingGiven
  | word :: args =>
    match commands.find? (·.name = word) with
    | some command => do return (command.name, ← readCommand command args)
    | none => .error (answerOther commands word args)

/-- The reader that the program uses. -/
def Reader.standard : Reader where
  getMatches := readWords
  readArgs := readCommand
  status := UsageError.exitCode

/-- Reads a command line as the program does. -/
def parse (args : List String) : Except UsageError Command :=
  Reader.standard.parse args

end RegisterMachine.CommandLine
