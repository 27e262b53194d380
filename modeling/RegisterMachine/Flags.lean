/-
Condition flags.

A comparison sets the flag for a zero destination and exactly one of the three flags
for the signed order of its operands.  The other bits of the flags register mean
nothing to a jump, but a program may keep values there, so flags are a whole word.
-/
import RegisterMachine.Word

namespace RegisterMachine

inductive Flag where
  /-- The destination of the comparison was zero. -/
  | zero
  /-- The operands were equal. -/
  | equal
  /-- The destination was less than the source, as signed numbers. -/
  | less
  /-- The destination was greater than the source, as signed numbers. -/
  | greater
  deriving DecidableEq

namespace Flag

/-- The bit that holds the flag. -/
def mask : Flag → Word
  | zero => 1
  | equal => 2
  | less => 4
  | greater => 8

/-- The flag's name where flags are printed. -/
def name : Flag → String
  | zero => "Z"
  | equal => "EQ"
  | less => "LT"
  | greater => "GT"

/-- All flags, the lowest bit first. -/
def all : List Flag := [zero, equal, less, greater]

/-- The flag that says how two words compare as signed numbers. -/
def ofOrder (dst src : Word) : Flag :=
  if dst.toSigned < src.toSigned then less
  else if dst.toSigned = src.toSigned then equal
  else greater

theorem ofOrder_ne_zero (dst src : Word) : ofOrder dst src ≠ zero := by
  unfold ofOrder
  repeat' split
  all_goals decide

end Flag

/-- The contents of the flags register. -/
structure Flags where
  bits : Word
  deriving DecidableEq

namespace Flags

def has (flags : Flags) (flag : Flag) : Bool :=
  flags.bits &&& flag.mask != 0

/-- The flags that a comparison of `dst` with `src` leaves. -/
def compare (dst src : Word) : Flags :=
  ⟨(if dst = 0 then Flag.zero.mask else 0) ||| (Flag.ofOrder dst src).mask⟩

/-- The names of the flags that are set, or a dash when none is. -/
def text (flags : Flags) : String :=
  match Flag.all.filter flags.has with
  | [] => "-"
  | set => " ".intercalate (set.map Flag.name)

/-- The zero flag and one order flag together set just these two bits. -/
theorem has_zero_or_order (z : Bool) (order flag : Flag) (h : order ≠ .zero) :
    Flags.has ⟨(if z then Flag.zero.mask else 0) ||| order.mask⟩ flag =
      if flag = .zero then z else decide (flag = order) := by
  cases z <;> cases order <;> cases flag <;> first | rfl | exact absurd rfl h

/-- A comparison sets the order flag that tells how its operands stand, and the zero flag
if the destination is zero. -/
theorem has_compare (dst src : Word) (flag : Flag) :
    (compare dst src).has flag =
      if flag = .zero then decide (dst = 0) else decide (flag = Flag.ofOrder dst src) := by
  have h := has_zero_or_order (decide (dst = 0)) (Flag.ofOrder dst src) flag
    (Flag.ofOrder_ne_zero dst src)
  simpa [compare] using h

end Flags

end RegisterMachine
