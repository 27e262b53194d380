/-
The system calls that write to a console.

Call 1 writes the low byte of its argument.  Call 2 writes its argument as a signed
number in base ten on a line of its own.
-/
import RegisterMachine.Machine.Step

namespace RegisterMachine.Console

def putByte : Word := 1

def putNumber : Word := 2

/-- The bytes of a text in ASCII. -/
def asciiBytes (text : String) : List UInt8 :=
  text.toList.map fun c => UInt8.ofNat c.toNat

/-- What a call writes for its argument; other calls are not provided. -/
def output? (id : Word) : Option (Word → List UInt8) :=
  if id = putByte then some fun argument => [argument.lowByte]
  else if id = putNumber then
    some fun argument => asciiBytes (Text.signedDecimal argument.toSigned ++ "\n")
  else none

/-- Serves the calls that write, with `write` for putting bytes into the world. -/
def handler {ω : Type} (write : List UInt8 → ω → ω) : SyscallHandler ω :=
  fun id guest world =>
    match output? id with
    | none => (.error .unhandled, guest, world)
    | some output =>
      match guest.argument 0 with
      | .error fault => (.error (.fault fault), guest, world)
      | .ok argument => (.ok (), guest, write (output argument) world)

end RegisterMachine.Console
