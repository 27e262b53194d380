/-
The register file.

A register file holds one word for each register.  It is pinned down by what `get`
returns: setting a register changes that register alone (`get_set`), and two files that
agree on all registers are the same (`RegisterFile.ext_get`).
-/
import RegisterMachine.Flags
import RegisterMachine.Register
import RegisterMachine.Slot

namespace RegisterMachine

/-- The values of the sixteen registers. -/
structure RegisterFile where
  /-- The registers `r0` to `r12`. -/
  general : Vector Word 13
  flagBits : Word
  sp : Word
  pc : Word
  deriving DecidableEq

namespace RegisterFile

def zero : RegisterFile := ⟨Vector.replicate 13 0, 0, 0, 0⟩

def get (f : RegisterFile) : Register → Word
  | .general n => f.general.get n
  | .flags => f.flagBits
  | .sp => f.sp
  | .pc => f.pc

/-- The file with another value in one register. -/
def set (f : RegisterFile) (r : Register) (value : Word) : RegisterFile :=
  match r with
  | .general n => { f with general := f.general.set n.val value n.isLt }
  | .flags => { f with flagBits := value }
  | .sp => { f with sp := value }
  | .pc => { f with pc := value }

/-- The file at the start of a run: the stack pointer as given, the program counter at the
entry point and the other registers at zero. -/
def reset (sp : Word) : RegisterFile :=
  { zero with sp := sp, pc := entryPoint }

/-- What the flags register tells. -/
def flags (f : RegisterFile) : Flags := ⟨f.flagBits⟩

/-- The registers whose values differ from those of an earlier file, in order. -/
def changedSince (f before : RegisterFile) : List Register :=
  Register.all.filter fun r => f.get r != before.get r

/-- Setting a register changes that register alone. -/
theorem get_set (f : RegisterFile) (r s : Register) (value : Word) :
    (f.set r value).get s = if s = r then value else f.get s := by
  cases r with
  | general n =>
    cases s with
    | general k =>
      by_cases h : k = n
      · subst h
        rw [if_pos rfl]
        exact Vector.getElem_set_self k.isLt
      · have h' : n.val ≠ k.val := fun e => h (Fin.ext e.symm)
        rw [if_neg fun e => h (Register.general.inj e)]
        exact Vector.getElem_set_ne n.isLt k.isLt h'
    | _ => rfl
  | _ => cases s <;> simp [set, get]

/-- Two register files that agree on all registers are the same. -/
theorem ext_get {f g : RegisterFile} (h : ∀ r, f.get r = g.get r) : f = g := by
  cases f with
  | mk general flagBits sp pc =>
    cases g with
    | mk general' flagBits' sp' pc' =>
      have h₁ : general = general' := Vector.ext fun i hi => h (.general ⟨i, hi⟩)
      have h₂ : flagBits = flagBits' := h .flags
      have h₃ : sp = sp' := h .sp
      have h₄ : pc = pc' := h .pc
      rw [h₁, h₂, h₃, h₄]

/-- A register has changed exactly if its values differ. -/
theorem mem_changedSince {f before : RegisterFile} {r : Register} :
    r ∈ f.changedSince before ↔ f.get r ≠ before.get r := by
  simp [changedSince, Register.mem_all]

end RegisterFile

end RegisterMachine
