import Muse.Paging.TaskDirectory

/-!
# Address spaces of several contexts

The part of a context that matters for translation is its `page_directory`. A run mixes
`create_context` (`src/common/context.c`), which builds a directory, context switches, which
load the directory of another context into `cr3`, and calls to `map_page` and `unmap_page`. What
`kmalloc` maps inside `create_context` when the heap grows are `map_page` steps of their own.
-/

namespace Muse.Paging

open Muse.Library

/-- The machine and the page directories of the contexts. -/
structure System where
  vm : Vm
  dirs : List (BitVec 20)

namespace System

inductive Op where
  | createContext (funcPtr : BitVec 32) (user : Bool) (scrolls : List Scroll)
  | contextSwitch (dir : BitVec 20)
  | mapPage (vaddr paddr : BitVec 32)
  | unmapPage (vaddr : BitVec 32)
  deriving DecidableEq

def step (s : System) : Op → Option System
  | .createContext funcPtr user scrolls =>
      (s.vm.createTaskDirectory funcPtr user scrolls).map fun p =>
        ⟨p.2, pageOf p.1 :: s.dirs⟩
  | .contextSwitch dir => some { s with vm.space.cr3 := dir }
  | .mapPage vaddr paddr => (s.vm.mapPage vaddr paddr).map fun vm => { s with vm }
  | .unmapPage vaddr => (s.vm.unmapPage vaddr).map fun vm => { s with vm }

/-- The entry of an address in the kernel half, below the stack of the task. -/
def KernelAddr (v : BitVec 32) : Prop := 0x80000000#32 ≤ v ∧ v < 0xFF800000#32

instance (v : BitVec 32) : Decidable (KernelAddr v) := inferInstanceAs (Decidable (_ ∧ _))

/-- The entries 512 to 1021 of all directories are equal. -/
def SameKernelHalf (s : System) : Prop :=
  ∀ d ∈ s.dirs, ∀ d' ∈ s.dirs, ∀ i : BitVec 10, 512 ≤ i.toNat → i.toNat ≤ 1021 →
    s.vm.space.mem d i = s.vm.space.mem d' i

/-- Kernel addresses are translated in the same way whichever context is active. -/
def SameTranslation (s : System) : Prop :=
  ∀ d ∈ s.dirs, ∀ d' ∈ s.dirs, ∀ v, KernelAddr v →
    (Space.mk s.vm.space.mem d).frameOf v = (Space.mk s.vm.space.mem d').frameOf v

/-- A page at or above `0x80000000` is present and accessible to the user in the directory `d`: both
    of its entries have the user bit. -/
def ExposedIn (mem : PhysMem) (d : BitVec 20) (v : BitVec 32) : Prop :=
  0x80000000#32 ≤ v ∧
    present ((Space.mk mem d).pde v) = true ∧ (Space.mk mem d).pde v &&& pagingBitUser ≠ 0#32 ∧
    present ((Space.mk mem d).pte v) = true ∧ (Space.mk mem d).pte v &&& pagingBitUser ≠ 0#32

/-- No kernel page is accessible to the user in the directory `d`. -/
def Isolated (mem : PhysMem) (d : BitVec 20) : Prop := ∀ v, ¬ ExposedIn mem d v

end System

end Muse.Paging
