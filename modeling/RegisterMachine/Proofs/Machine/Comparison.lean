/-
A jump behind a comparison decides how its operands stand.

A comparison replaces the whole flags register, so it does not matter what was there before.
It sets the zero flag and one of three flags for the signed order, and the condition of a jump
asks for one or two of these; `Condition.holds_compare` says which relation of the operands
each condition comes to.  In between the flags keep, as no instruction changes them that is
neither a comparison nor told to put its result there.  The handler of system calls could; it
is asked not to, and nothing else is asked of it.
-/
import RegisterMachine.Proofs.Machine.Subroutine

namespace RegisterMachine

/-! ### What a condition says of the operands -/

namespace Flag

variable (dst src : Word)

theorem ofOrder_eq_less_iff : ofOrder dst src = less ↔ dst.toSigned < src.toSigned := by
  unfold ofOrder
  split
  · simp [*]
  · split <;> simp [*]

theorem ofOrder_eq_equal_iff : ofOrder dst src = equal ↔ dst = src := by
  rw [← Word.toSigned_inj]
  unfold ofOrder
  split
  · simp
    omega
  · split <;> simp [*]

theorem ofOrder_eq_greater_iff : ofOrder dst src = greater ↔ src.toSigned < dst.toSigned := by
  unfold ofOrder
  split
  · simp
    omega
  · split
    · simp [*]
    · simp
      omega

end Flag

namespace Condition

/-- How the operands of a comparison stand if a jump with the condition follows and is taken.
The order is that of signed numbers. -/
def Relates (dst src : Word) : Condition → Prop
  | always => True
  | zero => dst = 0
  | notZero => dst ≠ 0
  | equal => dst = src
  | notEqual => dst ≠ src
  | greater => dst.toSigned > src.toSigned
  | less => dst.toSigned < src.toSigned
  | greaterEqual => dst.toSigned ≥ src.toSigned
  | lessEqual => dst.toSigned ≤ src.toSigned

instance (dst src : Word) : DecidablePred (Relates dst src)
  | always => inferInstanceAs (Decidable True)
  | zero => inferInstanceAs (Decidable (dst = 0))
  | notZero => inferInstanceAs (Decidable (dst ≠ 0))
  | equal => inferInstanceAs (Decidable (dst = src))
  | notEqual => inferInstanceAs (Decidable (dst ≠ src))
  | greater => inferInstanceAs (Decidable (dst.toSigned > src.toSigned))
  | less => inferInstanceAs (Decidable (dst.toSigned < src.toSigned))
  | greaterEqual => inferInstanceAs (Decidable (dst.toSigned ≥ src.toSigned))
  | lessEqual => inferInstanceAs (Decidable (dst.toSigned ≤ src.toSigned))

/-- **The flags of a comparison satisfy a condition exactly if its operands stand so.** -/
theorem holds_compare (dst src : Word) (c : Condition) :
    c.holds (Flags.compare dst src) = true ↔ c.Relates dst src := by
  have hless := Flag.ofOrder_eq_less_iff dst src
  have hequal := Flag.ofOrder_eq_equal_iff dst src
  have hgreater := Flag.ofOrder_eq_greater_iff dst src
  rw [eq_comm] at hless hequal hgreater
  -- The conditions that ask for two flags are those whose relation is not strict.
  have hweak : dst.toSigned ≤ src.toSigned ↔ dst.toSigned < src.toSigned ∨ dst = src := by
    rw [← Word.toSigned_inj, Int.le_iff_lt_or_eq]
  have hweak' : src.toSigned ≤ dst.toSigned ↔ src.toSigned < dst.toSigned ∨ dst = src := by
    rw [← Word.toSigned_inj, Int.le_iff_lt_or_eq, @eq_comm _ src.toSigned]
  cases c <;>
    simp only [holds, Relates, Flags.has_compare, hless, hequal, hgreater, hweak, hweak', gt_iff_lt,
      Bool.or_eq_true, Bool.not_eq_true', decide_eq_true_eq, decide_eq_false_iff_not,
      reduceCtorEq, if_true, if_false]

end Condition

/-! ### From the comparison to the jump -/

namespace Machine

variable {ω : Type} {env : Environment ω} {m before : Machine ω}

/-- What the next step must not do so that the flags stay as they are. -/
structure LeavesFlags (env : Environment ω) (m : Machine ω) : Prop where
  /-- It is not a comparison. -/
  not_compares (dst : Register) (src : Operand Word) : m.guest.executes? ≠ some (.cmp dst src)
  /-- Its instruction is not told to put a result in the flags. -/
  not_names : m.guest.names? ≠ some .flags
  /-- The handler of system calls keeps them. -/
  handler : (m.handled env).get .flags = m.guest.get .flags

theorem flags_step (h : m.LeavesFlags env) :
    (m.step env).2.guest.get .flags = m.guest.get .flags := by
  refine (register_step env (by decide) (by decide) fun i hi hmem => ?_).trans h.handler
  rcases Instr.flags_mem_changed.mp hmem with ⟨dst, src, rfl⟩ | hdestination
  · exact h.not_compares dst src hi
  · exact h.not_names (by rw [Guest.names?, hi]; exact hdestination)

theorem step_of_compare (env : Environment ω) {dst : Register} {src : Operand Word}
    (h : m.guest.executes? = some (.cmp dst src)) :
    (m.step env).1 = .ok .continues ∧ (m.step env).2.guest.registers.flags
      = Flags.compare (m.guest.get dst) (src.value m.guest.registers) := by
  obtain ⟨m', hstep, hguest⟩ := step_of_perform env h rfl
  rw [hstep, hguest]
  exact ⟨rfl, rfl⟩

theorem step_of_jump (env : Environment ω) {c : Condition} {target : Word}
    (h : m.guest.executes? = some (.jump c target)) :
    (m.step env).1 = .ok .continues ∧ (m.step env).2.guest = m.guest.set .pc
      (if c.holds m.guest.registers.flags then target else m.guest.get .pc + 5) := by
  obtain ⟨m', hstep, hguest⟩ := step_of_perform env h rfl
  rw [hstep, hguest]
  refine ⟨rfl, ?_⟩
  split <;> rfl

/-- **A jump behind a comparison is taken exactly if the operands stand as its condition says.**

Let `dst` be compared with `src`, let any number of steps follow that leave the flags alone, and
then a jump.  The comparison and the jump succeed.  The jump goes to its target if the values
that have been compared are related as its condition says, and otherwise to what stands
behind it; nothing else of the guest changes. -/
theorem jump_decides_comparison {dst : Register} {src : Operand Word} {c : Condition}
    {target : Word} {n : Nat} (hcompares : m.guest.executes? = some (.cmp dst src))
    (hsteps : Steps env n (m.step env).2 before)
    (hleaves : ∀ mid ∈ (m.step env).2.visited env n, mid.LeavesFlags env)
    (hjumps : before.guest.executes? = some (.jump c target)) :
    let a := m.guest.get dst
    let b := src.value m.guest.registers
    (m.step env).1 = .ok .continues ∧ (before.step env).1 = .ok .continues ∧
      (before.step env).2.guest
        = before.guest.set .pc (if c.Relates a b then target else before.guest.get .pc + 5) := by
  intro a b
  obtain ⟨hcompared, hflags⟩ := step_of_compare env hcompares
  obtain ⟨hjumped, hguest⟩ := step_of_jump env hjumps
  have hkept : before.guest.registers.flags = Flags.compare a b := by
    rw [← hsteps.later_eq]
    exact later_keeps (P := fun mid => mid.guest.registers.flags = Flags.compare a b)
      (fun mid hmid hmidflags => (congrArg Flags.mk (flags_step hmid)).trans hmidflags)
      hleaves hflags
  refine ⟨hcompared, hjumped, ?_⟩
  rw [hguest, hkept]
  simp only [Condition.holds_compare]

/-- A program that fills the flags with ones, compares 0 with -1, makes the system call 1 and
then jumps if greater. -/
def comparesAndCalls : List UInt8 :=
  [0x1f, 0, 0, 0, 0] ++ [0x07, 0xd0, 0xff, 0xff, 0xff, 0xff] ++
    [0x15, 0x10, 0xff, 0xff, 0xff, 0xff] ++ [0x07, 0x20, 1, 0, 0, 0] ++ [0x16, 0x20] ++
    [0x1b, 0, 0, 0, 0] ++ [0x29, 0x30, 0, 0, 0]

theorem jump_decides_comparison_comparesAndCalls :
    let env : Environment Unit := .silent fun _ => Service.nothing
    let start := (((Engine.create .standard ()).init env).load env comparesAndCalls).2.started env
    let m := start.later env 1
    let before := (m.step env).2.later env 4
    m.guest.executes? = some (.cmp (.general 1) (.imm 0xffffffff)) ∧
      m.guest.get .flags = 0xffffffff ∧ Steps env 4 (m.step env).2 before ∧
      (∀ mid ∈ (m.step env).2.visited env 4, mid.LeavesFlags env) ∧
      ((m.step env).2.visited env 4).any (·.guest.calls?.isSome) ∧
      before.guest.executes? = some (.jump .greater 0x30) ∧
      (m.step env).1 = .ok .continues ∧ (before.step env).1 = .ok .continues ∧
      (before.step env).2.guest = before.guest.set .pc 0x30 := by
  intro env start m before
  have hcompares : m.guest.executes? = some (.cmp (.general 1) (.imm 0xffffffff)) := by
    decide +kernel
  have hzero : m.guest.get (.general 1) = 0 := by decide +kernel
  have hsteps : Steps env 4 (m.step env).2 before := steps_later (by decide +kernel)
  have hhandled : ∀ mid : Machine Unit, mid.handled env = mid.guest := by
    intro mid
    unfold handled
    split <;> rfl
  have hquiet : ∀ mid ∈ (m.step env).2.visited env 4,
      mid.guest.executes?.map Instr.operation ≠ some .cmp ∧ mid.guest.names? ≠ some .flags := by
    decide +kernel
  have hleaves : ∀ mid ∈ (m.step env).2.visited env 4, mid.LeavesFlags env := fun mid hmid =>
    { not_compares := fun _ _ h => (hquiet mid hmid).1 (by rw [h]; rfl)
      not_names := (hquiet mid hmid).2
      handler := by rw [hhandled] }
  have hjumps : before.guest.executes? = some (.jump .greater 0x30) := by decide +kernel
  obtain ⟨hcompared, hjumped, hguest⟩ := jump_decides_comparison hcompares hsteps hleaves hjumps
  have hminus : (Operand.imm 0xffffffff).value m.guest.registers = 0xffffffff := rfl
  have hgreater : Condition.Relates 0 0xffffffff .greater := by decide
  rw [hzero, hminus, if_pos hgreater] at hguest
  exact ⟨hcompares, by decide +kernel, hsteps, hleaves, by decide +kernel, hjumps, hcompared,
    hjumped, hguest⟩

end Machine

end RegisterMachine
