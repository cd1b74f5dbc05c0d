import Muse.Library.Transition
import Muse.Library.X86
import Muse.Scheduler.Context

/-!
# The context switch

`context_switch` of `src/common/context_switch.asm`, instruction by instruction, and runs of the
contexts that it switches between. The first two words of a `struct context` are the fields `esp`
and `page_directory`, and `activeCtx` is the address of the variable `active_ctx`.

Every context has an address space of its own, with its stack among the private addresses and the
structures of the contexts among the shared ones. Between two switches the active context does as it
likes (`Own`), except that it leaves alone what the others have saved; it may also create contexts.
-/

namespace Muse.Scheduler

open Muse.Library Muse.Library.X86

/-- `context_switch` (`context_switch.asm:4-24`). -/
def contextSwitchCode (activeCtx : BitVec 32) : List Insn :=
  [.push (.reg .ebx), .push (.reg .esi), .push (.reg .edi), .push (.reg .ebp),
    .load ⟨none, activeCtx⟩ .esi, .store .esp ⟨some .esi, 0#32⟩,
    .load ⟨some .esp, 20#32⟩ .edi, .store .edi ⟨none, activeCtx⟩,
    .load ⟨some .edi, 0#32⟩ .esp, .load ⟨some .edi, 4#32⟩ .eax, .movCr3 .eax,
    .pop (.reg .ebp), .pop (.reg .edi), .pop (.reg .esi), .pop (.reg .ebx), .ret]

/-- What a caller expects to find again when a function returns: the registers that it does not
    save itself, the stack pointer and the address at which it goes on. -/
structure Kept where
  ebx : BitVec 32
  esi : BitVec 32
  edi : BitVec 32
  ebp : BitVec 32
  esp : BitVec 32
  eip : BitVec 32
  deriving DecidableEq, Repr

/-- The processor as it is. -/
def Kept.now {μ : Type} (c : Cpu μ) : Kept :=
  ⟨c.reg .ebx, c.reg .esi, c.reg .edi, c.reg .ebp, c.reg .esp, c.eip⟩

/-- At the first instruction of a function: the return address is on the stack. -/
def Kept.atCall {μ : Type} (c : Cpu μ) (mem : ByteMem) : Kept :=
  ⟨c.reg .ebx, c.reg .esi, c.reg .edi, c.reg .ebp, c.reg .esp + 4#32, readWord mem (c.reg .esp)⟩

/-- What the end of `context_switch` takes off a stack. -/
def Kept.onStack (mem : ByteMem) (esp : BitVec 32) : Kept :=
  ⟨readWord mem (esp + 12#32), readWord mem (esp + 8#32), readWord mem (esp + 4#32),
    readWord mem esp, esp + 20#32, readWord mem (esp + 16#32)⟩

/-- The processor, the contexts that were created, and where their address spaces are. -/
structure Tasks where
  layout : Layout
  ctxs : Set CtxPtr
  cpu : Cpu Space

namespace Tasks

variable (activeCtx : BitVec 32) (s t : Tasks) (c d : CtxPtr)

/-- What the active address space sees. -/
def view : ByteMem := s.layout.view s.cpu.mem.mem s.cpu.mem.cr3

/-- `active_ctx`. -/
def active : CtxPtr := readWord s.view activeCtx

/-- The field `esp` of a context. -/
def espOf : BitVec 32 := readWord s.view c

/-- The page directory that the field `page_directory` names. -/
def dirOf : BitVec 20 := frame (readWord s.view (c + 4#32))

/-- What a context sees. -/
def memOf : ByteMem := s.layout.view s.cpu.mem.mem (s.dirOf c)

/-- The addresses of a context that no other context shares. -/
def own : Set (BitVec 32) := { v | v ∈ s.layout.addrs (s.dirOf c) ∧ v ∉ s.layout.shared }

/-- What a suspended context has saved. -/
def saved : Kept := Kept.onStack (s.memOf c) (s.espOf c)

/-- What the active context expects of the function that it has just called. -/
def called : Kept := Kept.atCall s.cpu s.view

/-- The argument of `context_switch`. -/
def target : CtxPtr := readWord s.view (s.cpu.reg .esp + 4#32)

/-- The fields of a context are shared, apart from `active_ctx`. -/
structure Placed : Prop where
  dir : s.dirOf c ∈ s.layout.dirs
  esp : WordIn s.layout.shared c
  pageDirectory : WordIn s.layout.shared (c + 4#32)
  behind : 4 ≤ (c - activeCtx).toNat
  before : (c - activeCtx).toNat + 8 ≤ 2 ^ 32

/-- Two contexts have different structures and different directories. -/
structure Apart : Prop where
  dir : s.dirOf c ≠ s.dirOf d
  behind : 8 ≤ (d - c).toNat
  before : (d - c).toNat + 8 ≤ 2 ^ 32

/-- The five words that a suspended context has saved are its own. -/
def Framed : Prop := ∀ k : BitVec 32, k < 20#32 → s.espOf c + k ∈ s.own c

/-- The invariant. -/
structure Sound : Prop where
  fits : s.layout.Fits s.cpu.mem.mem
  variable_shared : WordIn s.layout.shared activeCtx
  active : s.active activeCtx ∈ s.ctxs
  cr3 : s.cpu.mem.cr3 = s.dirOf (s.active activeCtx)
  placed : ∀ c ∈ s.ctxs, s.Placed activeCtx c
  apart : ∀ c ∈ s.ctxs, ∀ d ∈ s.ctxs, c ≠ d → s.Apart c d
  framed : ∀ c ∈ s.ctxs, c ≠ s.active activeCtx → s.Framed c

/-- Work of the active context. It leaves `active_ctx`, the page directories and what the other
    contexts saved and own; the contexts that it creates are as `create_context` leaves them. -/
structure Own : Prop where
  cr3 : t.cpu.mem.cr3 = s.cpu.mem.cr3
  fits : t.layout.Fits t.cpu.mem.mem
  dirs : s.layout.dirs ⊆ t.layout.dirs
  addrs : ∀ d ∈ s.layout.dirs, s.layout.addrs d ⊆ t.layout.addrs d
  shared : ∀ d ∈ s.layout.dirs, ∀ v ∈ s.layout.addrs d,
    v ∈ t.layout.shared ↔ v ∈ s.layout.shared
  ctxs : s.ctxs ⊆ t.ctxs
  active : t.active activeCtx = s.active activeCtx
  dir : ∀ c ∈ s.ctxs, t.dirOf c = s.dirOf c
  esp : ∀ c ∈ s.ctxs, c ≠ s.active activeCtx → t.espOf c = s.espOf c
  mem : ∀ c ∈ s.ctxs, c ≠ s.active activeCtx → ∀ v ∈ s.own c, t.memOf c v = s.memOf c v
  created : ∀ c ∈ t.ctxs, c ∉ s.ctxs → t.Placed activeCtx c ∧ t.Framed c ∧
    ∀ d ∈ t.ctxs, d ≠ c → t.Apart c d ∧ t.Apart d c

/-- `context_switch` was called for a context, and there is room on the stack. -/
structure CanSwitch : Prop where
  target : s.target ∈ s.ctxs
  room : ∀ k : BitVec 32, k < 24#32 →
    s.cpu.reg .esp - 16#32 + k ∈ s.own (s.active activeCtx)

/-- What happens next: work of the active context, up to the state `t`, or a switch. -/
inductive Op where
  | own (t : Tasks)
  | switch

def step : Op → Option Tasks
  | .own t => some t
  | .switch => (s.cpu.run (contextSwitchCode activeCtx)).map fun cpu => { s with cpu }

def Allowed : Op → Prop
  | .own t => s.Own activeCtx t
  | .switch => s.CanSwitch activeCtx

end Tasks

end Muse.Scheduler
