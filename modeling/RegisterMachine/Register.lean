/-
The sixteen registers.

Thirteen registers are general purpose; the other three hold the condition flags, the
stack pointer and the program counter.  Their order is the order of the four-bit
numbers that name them in an instruction, and `ofIndex` and `index` are inverse.
-/
import RegisterMachine.Text.Numeral
import RegisterMachine.Text.Split

namespace RegisterMachine

inductive Register where
  /-- One of the registers `r0` to `r12`. -/
  | general (n : Fin 13)
  /-- The condition flags that a comparison sets. -/
  | flags
  | sp
  | pc
  deriving DecidableEq

namespace Register

/-- The four-bit number that names the register in an instruction. -/
def index : Register → Fin 16
  | general n => ⟨n.val, by omega⟩
  | flags => 13
  | sp => 14
  | pc => 15

/-- The register that a four-bit number names. -/
def ofIndex (i : Fin 16) : Register :=
  if h : i.val < 13 then general ⟨i.val, h⟩
  else if i = 13 then flags
  else if i = 14 then sp
  else pc

/-- The register that the low four bits of a number name. -/
def ofNibble (n : Nat) : Register :=
  ofIndex (Fin.ofNat 16 n)

/-- All registers in the order of their numbers. -/
def all : List Register :=
  (List.finRange 16).map ofIndex

def name : Register → String
  | general n => "r" ++ Text.decimal n.val
  | flags => "flags"
  | sp => "sp"
  | pc => "pc"

/-- The register with the given name, in whatever case its letters are. -/
def ofName? (name : List Char) : Option Register :=
  all.find? fun r => Text.sameIgnoringCase r.name.toList name

@[simp] theorem ofIndex_index (r : Register) : ofIndex r.index = r := by
  cases r with
  | general n => simp [index, ofIndex, n.isLt]
  | _ => rfl

@[simp] theorem index_ofIndex (i : Fin 16) : (ofIndex i).index = i := by
  revert i
  decide

theorem mem_all (r : Register) : r ∈ all :=
  List.mem_map.2 ⟨r.index, List.mem_finRange _, ofIndex_index r⟩

/-- A register's number is read back from any number that ends in it. -/
theorem ofNibble_index (r : Register) (n : Nat) : ofNibble (16 * n + r.index.val) = r := by
  have h : Fin.ofNat 16 (16 * n + r.index.val) = r.index :=
    Fin.ext (by simp [Fin.ofNat, Nat.add_mod, Nat.mod_eq_of_lt r.index.isLt])
  rw [ofNibble, h, ofIndex_index]

end Register

end RegisterMachine
