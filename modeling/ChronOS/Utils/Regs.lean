/-
  Utils/Regs.lean --- `regs_t`, the register frame the interrupt stubs build.
-/
import ChronOS.Foundation.Memory

set_option autoImplicit false

namespace ChronOS.Utils

open ChronOS.Foundation

/-- `regs_t`, in the order of its fields. -/
@[ext] structure Regs where
  r15 : Word
  r14 : Word
  r13 : Word
  r12 : Word
  r11 : Word
  r10 : Word
  r9 : Word
  r8 : Word
  rdi : Word
  rsi : Word
  rbp : Word
  rbx : Word
  rdx : Word
  rcx : Word
  rax : Word
  rsp : Word
  rip : Word
  cs : Word
  rflags : Word
  deriving DecidableEq, Repr

/-- `memset(&regs, 0, sizeof(regs_t))`. -/
def Regs.zero : Regs := ⟨0, 0, 0, 0, 0, 0, 0, 0, 0, 0, 0, 0, 0, 0, 0, 0, 0, 0, 0⟩

end ChronOS.Utils
