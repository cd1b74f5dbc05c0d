import Muse.Library.CString
import Muse.Syscall.Files
import Muse.Vfs.Lookup

/-!
# Opening a file

`syscall_open` (`src/kernel/syscall.c`) as a whole: the check of the path in user memory, the
lookup, which may register nodes, and the search for a slot. The nodes are at addresses, where their
inodes are among those of the kernel.
-/

namespace Muse.Syscall

open Muse.Library Muse.Paging

/-- The mount points and the kernel. -/
structure System where
  mounts : List Vfs.MountPoint
  kernel : Kernel

/-- What a call of `syscall_open` meets. `addr` is where the inodes of the nodes are, and `child`
    what a registration stores in one, whose `refs` the constructor does not set
    (`ext2.c:425-444`). -/
structure OpenEnv where
  checkUser : BitVec 32 → Option Bool
  memory : BitVec 32 → BitVec 8
  drivers : Drivers
  addr : Vfs.InodePtr → InodePtr
  child : Vfs.InodePtr → Inode

namespace OpenEnv

variable (env : OpenEnv)

/-- The characters from an address on. -/
def pointer (path : BitVec 32) : List (BitVec 8) := bytesAt env.memory path (2 ^ 32 - path.toNat)

/-- The inodes that a lookup registers are overwritten (`vfs.c:72`). -/
def register (registered : List Vfs.InodePtr) (s : Kernel) : Kernel :=
  registered.foldl (fun s p => s.setInode (env.addr p) (env.child p)) s

/-- `syscall_open` from the call of `vfs_open` on (`syscall.c:67-91`). -/
def openPath (s : System) (path mode : BitVec 32) : Option (BitVec 32 × System) := do
  let r ← Vfs.lookup s.mounts (env.pointer path)
  let inode := r.found.elim 0#32 env.addr
  let (fd, kernel) ← (env.register r.registered s.kernel).syscallOpen env.drivers inode mode
  some (fd, ⟨r.mounts, kernel⟩)

/-- `syscall_open` (`syscall.c:57-92`). -/
def syscallOpen (s : System) (arg mode : BitVec 32) : Option (BitVec 32 × System) := do
  let (path, _) ← cleanString env.checkUser env.memory arg
  if path = 0#32 then some (-1#32, s) else env.openPath s path mode

/-- The inodes of different nodes are at different addresses, and none is at 0. -/
structure Placed (mounts : List Vfs.MountPoint) : Prop where
  distinct : ∀ p q, Vfs.IsInode mounts p → Vfs.IsInode mounts q → env.addr p = env.addr q → p = q
  nonzero : ∀ p, Vfs.IsInode mounts p → env.addr p ≠ 0#32

/-- The file tables and the reference counts are as before. -/
structure Unchanged (s t : System) : Prop where
  files : t.kernel.files = s.kernel.files
  refs : ∀ inode, (t.kernel.inodes inode).refs = (s.kernel.inodes inode).refs

/-- A call that fails has changed nothing. -/
def FailsUnchanged (s : System) (arg mode : BitVec 32) : Prop :=
  ∀ t, env.syscallOpen s arg mode = some (-1#32, t) → Unchanged s t

/-- The nodes that are registered get the count that they had, and an inode that is found is one of
    them and gets one less. -/
structure CountsKept (s : System) (r : Vfs.Lookup) : Prop where
  registered : ∀ p ∈ r.registered, r.found ≠ some p →
    (env.child p).refs = (s.kernel.inodes (env.addr p)).refs
  found : ∀ p, r.found = some p → p ∈ r.registered ∧
    (env.child p).refs + 1#32 = (s.kernel.inodes (env.addr p)).refs

/-- What a path that is accepted meets, if it leads to no inode or no slot is free. -/
def KeepsCounts (s : System) (arg : BitVec 32) : Prop :=
  ∀ path reads r, cleanString env.checkUser env.memory arg = some (path, reads) → path ≠ 0#32 →
    Vfs.lookup s.mounts (env.pointer path) = some r →
    r.found = none ∨ s.kernel.freeSlot = none → env.CountsKept s r

end OpenEnv

end Muse.Syscall
