import Muse.Library.X86Interrupt

/-!
# The entry of system calls

`syscall_isr` (`src/kernel/syscall_isr.asm`) is behind the gate of vector `0x80`. It saves the
registers of the user program on the kernel stack, calls `handle_syscall` (`src/kernel/syscall.c`)
with a pointer to the saved `eax`, which `ebx`, `ecx` and `edx` follow, and restores all but `eax`.
-/

namespace Muse.Syscall

open Muse.Library Muse.Library.X86

/-- `syscall_isr` up to the call (`syscall_isr.asm:5-13`). -/
def syscallIsrEntry : List Insn :=
  [.push (.seg .gs), .push (.seg .fs), .push (.seg .es), .push (.seg .ds), .push (.reg .edx),
    .push (.reg .ecx), .push (.reg .ebx), .push (.reg .eax), .push (.reg .esp)]

/-- `syscall_isr` behind the call (`syscall_isr.asm:15-23`). -/
def syscallIsrExit : List Insn :=
  [.addImm 8#32 .esp, .pop (.reg .ebx), .pop (.reg .ecx), .pop (.reg .edx), .pop (.seg .ds),
    .pop (.seg .es), .pop (.seg .fs), .pop (.seg .gs), .iret]

/-- The instruction `int $0x80` of a user program, up to the first instruction of
    `handle_syscall`; `ret` is the address behind the call. -/
def toHandler {μ : Type} [Memory μ] (gate : Gate) (stack : InnerStack) (ret : BitVec 32)
    (c : Cpu μ) : Option (Cpu μ) := do
  let c ← c.enterInner gate stack
  let c ← c.run syscallIsrEntry
  c.push ret

/-- A system call: `handleSyscall` is the code of `handle_syscall`, up to its return. -/
def syscall {μ : Type} [Memory μ] (handleSyscall : Cpu μ → Option (Cpu μ)) (gate : Gate)
    (stack : InnerStack) (ret : BitVec 32) (c : Cpu μ) : Option (Cpu μ) := do
  let c ← toHandler gate stack ret c
  let c ← handleSyscall c
  c.run syscallIsrExit

/-- The words at and behind the argument of `handle_syscall`. -/
def args (m : ByteMem) (c : Cpu Space) : List (BitVec 32) :=
  let p := readWord m (c.reg .esp + 4#32)
  [readWord m p, readWord m (p + 4#32), readWord m (p + 8#32), readWord m (p + 12#32)]

/-- What the code of a C function leaves alone when it returns: the registers that its caller
    does not save, the address space and the `n` bytes behind its argument. -/
structure Returns (L : Layout) (n : Nat) (c c' : Cpu Space) : Prop where
  fits : L.Fits c'.mem.mem
  cr3 : c'.mem.cr3 = c.mem.cr3
  kept : ∀ r ∈ [Reg.ebx, .esi, .edi, .ebp], c'.reg r = c.reg r
  esp : c'.reg .esp = c.reg .esp + 4#32
  seg : c'.seg = c.seg
  stack : ∀ k : BitVec 32, k.toNat < n → L.view c'.mem.mem c'.mem.cr3 (c.reg .esp + 8#32 + k) =
    L.view c.mem.mem c.mem.cr3 (c.reg .esp + 8#32 + k)

end Muse.Syscall
