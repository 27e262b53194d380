/-
Engines and runs.

An engine is a machine with its parameters and a counter of the fetches that its runs
have made.  `run` makes steps until one halts or faults or the budget is used up.  A run
without a budget may never end, so it also takes a number of steps after which it stops
unfinished; `resume` takes it up again from there.  A run with a budget needs no such
number, as its budget bounds it.
-/
import RegisterMachine.Machine.Step

namespace RegisterMachine

/-- An engine in a world of type `ω`. -/
structure Engine (ω : Type) where
  config : EngineConfig
  machine : Machine ω
  /-- The fetches that runs have made since the engine was last reset.  The number has no bound
  here; as a word of 64 bits it is the same for the first 2^64 - 1 fetches. -/
  executed : Nat

inductive Ending where
  | halted
  | faulted (fault : Fault)
  | unfinished
  deriving DecidableEq

inductive RunResult where
  | halted (registers : RegisterFile)
  | rejected (error : SetupError)
  | faulted (fault : Fault)
  | unfinished
  deriving DecidableEq

namespace Engine

variable {ω : Type}

/-- An engine before it is initialised: without memory and with all registers at zero. -/
def create (config : EngineConfig) (world : ω) : Engine ω :=
  ⟨config, ⟨⟨.zero, .zeroed 0⟩, world⟩, 0⟩

def kind (_ : Engine ω) : EngineKind := .interpreter

def tell (env : Environment ω) (event : Event) (e : Engine ω) : Engine ω :=
  { e with machine := e.machine.tell env event }

/-- Sets up zeroed memory, resets the registers with the stack pointer at the end of memory,
and sets the counter to zero. -/
def init (env : Environment ω) (e : Engine ω) : Engine ω :=
  let length := e.config.ramBytes
  let e := e.tell env (.initMemory length)
  let registers := RegisterFile.reset (UInt32.ofNat length)
  { e with machine.guest := ⟨registers, .zeroed length⟩, executed := 0 }.tell env
    (.initRegisters registers)

/-- Copies an image to the front of memory. -/
def load (env : Environment ω) (image : List UInt8) (e : Engine ω) :
    Except SetupError Unit × Engine ω :=
  let e := e.tell env (.loadProgram image.length)
  match e.machine.guest.memory.loadImage image with
  | .error error => (.error error, e)
  | .ok memory => (.ok (), { e with machine.guest.memory := memory })

/-- Makes one step that is not counted. -/
def step (env : Environment ω) (e : Engine ω) : Except Fault Progress × Engine ω :=
  let (result, machine) := e.machine.step env
  (result, { e with machine })

/-- The fetches that the budget still allows; without a budget there is no bound. -/
def remaining? (e : Engine ω) : Option Nat :=
  e.config.budget?.map (· - e.executed)

/-- Makes one step that is counted, however it ends. -/
def countedStep (env : Environment ω) (e : Engine ω) : Except Fault Progress × Engine ω :=
  { e with executed := e.executed + 1 }.step env

/-- The fault that ends a run whose budget is used up. -/
def budgetFault? (e : Engine ω) : Option Fault :=
  match e.config.budget? with
  | some budget => if budget ≤ e.executed then some (.budgetExhausted budget) else none
  | none => none

/-- Makes counted steps until the run ends, at most the given number. -/
def resume (env : Environment ω) : Nat → Engine ω → Ending × Engine ω
  | 0, e => (.unfinished, e)
  | steps + 1, e =>
    match e.budgetFault? with
    | some fault => (.faulted fault, e)
    | none =>
      match e.countedStep env with
      | (.error fault, e) => (.faulted fault, e)
      | (.ok .halted, e) => (.halted, e)
      | (.ok .continues, e) => resume env steps e

/-- The number of steps after which a run must have ended: with a budget, what it still
allows and one more, which finds the budget used up. -/
def stepBound (patience : Nat) (e : Engine ω) : Nat :=
  match e.remaining? with
  | some n => n + 1
  | none => patience

/-- Runs the program in memory.  Without a budget it stops unfinished after `patience` steps. -/
def run (env : Environment ω) (patience : Nat) (e : Engine ω) : Ending × Engine ω :=
  (e.tell env .start).resume env (e.stepBound patience)

/-- Sets the engine up and loads a program. -/
def prepare (env : Environment ω) (image : List UInt8) (e : Engine ω) :
    Except SetupError Unit × Engine ω :=
  ((e.tell env (.configure e.kind image.length e.config.ramMib)).init env).load env image

/-- The final registers, which the environment is told. -/
def finish (env : Environment ω) (e : Engine ω) : RegisterFile × Engine ω :=
  let registers := e.machine.guest.registers
  (registers, e.tell env (.halt registers))

/-- The result that an ending gives.  A run that has reached its exit is finished. -/
def conclude (env : Environment ω) (ending : Ending) (e : Engine ω) : RunResult × Engine ω :=
  match ending with
  | .halted =>
    let (registers, e) := e.finish env
    (.halted registers, e)
  | .faulted fault => (.faulted fault, e)
  | .unfinished => (.unfinished, e)

/-- Executes a program from a fresh start. -/
def execute (env : Environment ω) (patience : Nat) (image : List UInt8) (e : Engine ω) :
    RunResult × Engine ω :=
  match e.prepare env image with
  | (.error error, e) => (.rejected error, e)
  | (.ok (), e) =>
    let (ending, e) := e.run env patience
    e.conclude env ending

end Engine

/-- How a program is to be run. -/
structure RunOptions where
  ramMib : Nat := 4
  engine : EngineKind := .interpreter
  /-- The most fetches that the run may make. -/
  budget? : Option Nat := none

/-- Runs a program on a new engine.  Without a budget it stops unfinished after `patience`
steps. -/
def runProgram {ω : Type} (options : RunOptions) (env : Environment ω) (patience : Nat)
    (image : List UInt8) (world : ω) : RunResult × ω :=
  match EngineConfig.ofRequest options.ramMib options.budget? with
  | .error error => (.rejected error, world)
  | .ok config =>
    let (result, e) := (Engine.create config world).execute env patience image
    (result, e.machine.world)

/-- The status with which a command reports the result to its caller: 0 for a run that
reached its exit, 1 for a program that was not run, 2 for a run that did not get there. -/
def RunResult.exitCode : RunResult → Nat
  | .halted _ => 0
  | .rejected _ => 1
  | .faulted _ | .unfinished => 2

end RegisterMachine
