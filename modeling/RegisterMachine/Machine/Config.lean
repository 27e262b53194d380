/-
Engines and their parameters.

The memory of an engine is a power of two of MiB between four and 2048; a request is
rounded up to the next of these sizes.  The largest size is 2^31 bytes, so the length of
a memory is a word, which the stack pointer starts at.
-/
import RegisterMachine.Machine.Fault
import RegisterMachine.Text.Split

namespace RegisterMachine

inductive EngineKind where
  /-- Decodes and executes one instruction after another. -/
  | interpreter
  deriving DecidableEq

namespace EngineKind

def name : EngineKind → String
  | interpreter => "interpreter"

def all : List EngineKind := [interpreter]

/-- The engine with the given name, in whatever case its letters are. -/
def ofName (name : String) : Except SetupError EngineKind :=
  match all.find? fun kind => Text.sameIgnoringCase kind.name.toList name.toList with
  | some kind => .ok kind
  | none => .error (.unknownEngine name)

end EngineKind

/-- The memory sizes that an engine can have, in MiB. -/
def ramSizes : List Nat := [4, 8, 16, 32, 64, 128, 256, 512, 1024, 2048]

/-- The memory size for a request: the smallest that is large enough. -/
def roundRam (requested : Nat) : Except SetupError Nat :=
  match ramSizes.find? (requested ≤ ·) with
  | some mib => .ok mib
  | none => .error (.ramTooLarge requested)

structure EngineConfig where
  ramMib : Nat
  /-- The most fetches that a run may make; without one it may go on forever.  Budgets are meant
  to be words of 64 bits, but nothing here depends on it. -/
  budget? : Option Nat
  /-- The memory size is one that engines can have. -/
  ramMib_mem : ramMib ∈ ramSizes
  deriving DecidableEq

namespace EngineConfig

/-- The smallest memory and no budget. -/
def standard : EngineConfig := ⟨4, none, by decide⟩

/-- The parameters for a requested memory size. -/
def ofRequest (requested : Nat) (budget? : Option Nat) : Except SetupError EngineConfig :=
  match h : roundRam requested with
  | .ok mib => .ok ⟨mib, budget?, by
      unfold roundRam at h
      split at h
      · obtain rfl := Except.ok.inj h
        exact List.mem_of_find?_eq_some ‹_›
      · contradiction⟩
  | .error e => .error e

def ramBytes (config : EngineConfig) : Nat :=
  config.ramMib * 0x100000

/-- The length of a memory is a word, and at most half of the address space. -/
theorem ramBytes_le (config : EngineConfig) : config.ramBytes ≤ 0x80000000 := by
  have h : ∀ mib ∈ ramSizes, mib * 0x100000 ≤ 0x80000000 := by decide
  exact h _ config.ramMib_mem

end EngineConfig

end RegisterMachine
