/-
Where the statements of a source go.

The first pass gives every statement its address and every label its own.  It needs the
sizes of the instructions, which do not depend on what their labels stand for, and the
values of `.org` directives, which may therefore only name labels that are already
defined.  What it keeps is a list of items, each with the line and the address it
belongs to.
-/
import RegisterMachine.Assembly.Line
import RegisterMachine.LabelTable

namespace RegisterMachine.Assembly

/-- The labels of a source with their addresses, in the order of their definitions. -/
abbrev Definitions := List (String × Word)

namespace Definitions

def address? (defs : Definitions) (name : String) : Option Word :=
  defs.lookup name

/-- Adds the labels of a line, all at one address; none of them may be defined already. -/
def define (addr : Word) (defs : Definitions) : List String → Except Cause Definitions
  | [] => .ok defs
  | name :: names =>
    match defs.address? name with
    | some _ => .error (.duplicateLabel name)
    | none => define addr (defs ++ [(name, addr)]) names

end Definitions

namespace Value

/-- The word that a value stands for. -/
def resolve (defs : Definitions) : Value → Except Cause Word
  | number n => .ok n
  | label name =>
    match defs.address? name with
    | some addr => .ok addr
    | none => .error (.undefinedLabel name)

end Value

/-- What a statement contributes to the image. -/
inductive Item where
  /-- An instruction whose labels are still names. -/
  | instr (i : Instr Value)
  /-- The four bytes of a value. -/
  | word (v : Value)
  | byte (v : Value)
  /-- Zeros up to an address. -/
  | skip (target : Word)
  deriving DecidableEq

structure Placed where
  /-- The number of the line that holds the statement. -/
  line : Nat
  /-- The address of the item's first byte. -/
  addr : Word
  item : Item
  deriving DecidableEq

structure Layout where
  defs : Definitions
  items : List Placed
  /-- The address behind the last item. -/
  stop : Word
  deriving DecidableEq

/-- What a statement at the given address contributes, and the address behind it. -/
def Statement.place (defs : Definitions) (addr : Word) : Statement → Except Cause (Item × Word)
  | instr op args =>
    match instr? op args with
    | some i => .ok (.instr i, addr + UInt32.ofNat i.size)
    | none => .error (.operandShape op)
  | directive .word v => .ok (.word v, addr + 4)
  | directive .byte v => .ok (.byte v, addr + 1)
  | directive .org v => do
    let target ← v.resolve defs
    if target < addr then .error (.orgBackwards addr target) else return (.skip target, target)

namespace Layout

/-- Places the statements of numbered lines from the given address on. -/
def ofLines (defs : Definitions) (addr : Word) : List (Line × Nat) → Except Error Layout
  | [] => .ok ⟨defs, [], addr⟩
  | (line, n) :: rest => do
    let defs ← onLine n (defs.define addr line.labels)
    match line.statement? with
    | none => ofLines defs addr rest
    | some statement =>
      let (item, next) ← onLine n (statement.place defs addr)
      let layout ← ofLines defs next rest
      return { layout with items := ⟨n, addr, item⟩ :: layout.items }

/-- The label table of a layout: of several labels at one address, the one defined first. -/
def labelTable (layout : Layout) : LabelTable :=
  layout.defs.foldl
    (fun table (name, addr) => if table.contains addr then table else table.insert addr name)
    .empty

end Layout

end RegisterMachine.Assembly
