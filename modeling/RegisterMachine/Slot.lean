/-
The slot at the front of an image.

The first five bytes of an image are set aside.  Control that reaches address 0 is not
executed but enters a system call, and a program starts right behind the slot.
-/
import RegisterMachine.Word

namespace RegisterMachine

def slotSize : Nat := 5

/-- The address at which control enters a system call. -/
def syscallEntry : Word := 0

/-- The address at which a program starts. -/
def entryPoint : Word := 5

/-- The system call that ends a run. -/
def exitSyscall : Word := 0

end RegisterMachine
