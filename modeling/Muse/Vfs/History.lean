import Muse.Library.Transition
import Muse.Vfs.Open

/-!
# Opening and closing files

What runs of `vfs_open` and `syscall_close` (`src/kernel/syscall.c`) do to the nodes. Closing an
inode may mark it as not present, which is the case if it drops the last reference; then it is
registered again when a path leads through it. A registration finds the children of the directory.
If the local `child` of `ext2_register_inode` points to other nodes before, these stand behind them.
-/

namespace Muse.Vfs

open Muse.Library

/-- The node at `steps` is not present any more (`syscall.c:157`). -/
def forget : List Tnode → List Nat → List Tnode
  | children, [] => children
  | children, [k] => children.modify k fun tnode => { tnode with present := false }
  | children, k :: steps =>
      children.modify k fun tnode => { tnode with firstChild := forget tnode.firstChild steps }

/-- The mount point, as long as the registration of the inode number `i` finds the nodes `left i`
    behind the children. -/
def MountPoint.leaving (left : BitVec 32 → List Tnode) (m : MountPoint) : MountPoint :=
  { m with registerInode := fun i => m.registerInode i ++ left i }

/-- A call of `vfs_open` with such registrations. -/
def openLeaving (mounts : List MountPoint) (path : CString) (left : BitVec 32 → List Tnode) :
    Option (Option InodePtr × List MountPoint) :=
  (vfsOpen (mounts.map (·.leaving left)) path).map fun (inode, after) =>
    (inode, List.zipWith (fun m o => { m with firstChild := o.firstChild }) mounts after)

inductive FileOp where
  | open (path : CString) (left : BitVec 32 → List Tnode)
  | close (inode : InodePtr)

/-- The mount points after a call. -/
def fileStep (mounts : List MountPoint) : FileOp → Option (List MountPoint)
  | .open path left => (openLeaving mounts path left).map Prod.snd
  | .close inode =>
      some (mounts.modify inode.mountPoint fun m =>
        { m with firstChild := forget m.firstChild inode.children })

/-- The registrations of the call find nothing behind the children. -/
def FileOp.Exact : FileOp → Prop
  | .open _ left => ∀ i, left i = []
  | .close _ => True

/-- The inode number of the inode at `steps` below one with the number `own`. -/
def numberAt (own : Option (BitVec 32)) : List Tnode → List Nat → Option (BitVec 32)
  | _, [] => own
  | children, k :: steps => children[k]?.bind fun tnode =>
      numberAt (some tnode.inodeId) tnode.firstChild steps

/-- The inode that `vfs_open` returns, with its number, or `none` for a null pointer. -/
def opened (mounts : List MountPoint) (path : CString) :
    Option (Option (InodePtr × Option (BitVec 32))) :=
  (vfsOpen mounts path).map fun (inode, after) => inode.map fun p =>
    (p, after[p.mountPoint]?.bind fun m => numberAt none m.firstChild p.children)

/-- No node is present yet, neither below the mount point nor when it is created. -/
structure Unopened (m : MountPoint) : Prop where
  root : ∀ tnode ∈ m.firstChild, tnode.present = false
  registered : ∀ i, ∀ tnode ∈ m.registerInode i, tnode.present = false

/-- The nodes `children` are those of `base`, apart from registered inodes, which have the children
    that their registration finds, up to registered ones again. -/
inductive Grown (registerInode : BitVec 32 → List Tnode) : List Tnode → List Tnode → Prop
  | nil : Grown registerInode [] []
  | absent {b t : Tnode} {base children : List Tnode} : t.name = b.name → t.inodeId = b.inodeId →
      t.present = false → Grown registerInode base children →
      Grown registerInode (b :: base) (t :: children)
  | present {b t : Tnode} {base children : List Tnode} : t.name = b.name → t.inodeId = b.inodeId →
      t.present = true → Grown registerInode (registerInode b.inodeId) t.firstChild →
      Grown registerInode base children → Grown registerInode (b :: base) (t :: children)

/-- The mount point with nodes that have grown. -/
structure GrownMount (m o : MountPoint) : Prop where
  path : o.path = m.path
  registerInode : o.registerInode = m.registerInode
  grown : Grown m.registerInode m.firstChild o.firstChild

end Muse.Vfs
