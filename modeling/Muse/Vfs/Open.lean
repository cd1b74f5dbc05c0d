import Mathlib.Data.List.Basic

/-!
# Paths

`mount` and `vfs_open` of `src/common/vfs.c`. A pointer into a string is the list of the characters
from there on, including the null character at the end; behind that one there is nothing to read,
and reading there has no value.
-/

namespace Muse.Vfs

/-- `'/'`. -/
def separator : BitVec 8 := 47#8

/-- The characters of a string that a null character ends. -/
structure CString where
  chars : List (BitVec 8)
  noNull : 0#8 ∉ chars
  deriving DecidableEq

/-- The pointer to the first character. -/
def CString.pointer (s : CString) : List (BitVec 8) := s.chars ++ [0#8]

/-- `struct vfs_tnode` with the fields of its inode that `vfs_open` uses. `first_child` and
    everything below are set once the inode is `present`. -/
structure Tnode where
  name : List (BitVec 8)
  inodeId : BitVec 32
  present : Bool
  firstChild : List Tnode

/-- `struct vfs_mount_point`. `registerInode` is the function at `register_inode`: the children that
    it finds for the inode of a node. -/
structure MountPoint where
  path : CString
  firstChild : List Tnode
  registerInode : BitVec 32 → List Tnode

/-- Where an inode is: in which mount point of the list, and which child on each level. -/
structure InodePtr where
  mountPoint : Nat
  children : List Nat
  deriving DecidableEq

/-- `mount` (`vfs.c:7-18`). -/
def mount (firstMountPoint : List MountPoint) (mountPoint : MountPoint) : List MountPoint :=
  mountPoint :: firstMountPoint

/-- The comparison of the path with that of a mount point (`vfs.c:25-37`): `match`, and `i`. -/
def comparePath : List (BitVec 8) → List (BitVec 8) → Nat → Option (Bool × Nat)
  | c :: path, d :: mountPath, i =>
      if c ≠ 0#8 ∧ d ≠ 0#8 then
        if c ≠ d then some (false, i) else comparePath path mountPath (i + 1)
      else some (decide (d = 0#8), i)
  | _, _, _ => none

/-- The search for a mount point (`vfs.c:24-44`): its number, counted from `n` on, the mount point,
    and `i`. -/
def findMount (path : List (BitVec 8)) :
    List MountPoint → Nat → Option (Option (Nat × MountPoint × Nat))
  | [], _ => some none
  | mountPoint :: mounts, n => do
      let (found, i) ← comparePath path mountPoint.path.pointer 0
      if found then some (some (n, mountPoint, i)) else findMount path mounts (n + 1)

/-- The loop that compares the characters of a name (`vfs.c:63-68`). -/
def compareName : List (BitVec 8) → List (BitVec 8) → Option Bool
  | [], _ => some true
  | _ :: _, [] => none
  | c :: name, d :: start => if c ≠ d then some false else compareName name start

/-- The search for a child whose name are the `len` characters from `start` on (`vfs.c:56-79`): its
    number, counted from `k` on, and the child. -/
def findChild (start : List (BitVec 8)) (len : Nat) :
    List Tnode → Nat → Option (Option (Nat × Tnode))
  | [], _ => some none
  | tnode :: children, k => do
      let same ← compareName tnode.name start
      if tnode.name.length = len ∧ same then some (some (k, tnode))
      else findChild start len children (k + 1)

/-- What is done with a child before it is entered (`vfs.c:74-76`). -/
def Tnode.register (registerInode : BitVec 32 → List Tnode) (tnode : Tnode) : Tnode :=
  if tnode.present then tnode
  else { tnode with present := true, firstChild := registerInode tnode.inodeId }

/-- The loop over the names in the path (`vfs.c:50-87`), from the inode with `children` on. `len` is
    `end - start`, and the last argument is `end`. The value is `inode`, or `none` for a null
    pointer, and the children with what was registered. -/
def walk (registerInode : BitVec 32 → List Tnode) (children : List Tnode)
    (start : List (BitVec 8)) (len : Nat) :
    List (BitVec 8) → Option (Option (List Nat) × List Tnode)
  | [] => none
  | c :: rest =>
      if c ≠ 0#8 ∧ c ≠ separator then walk registerInode children start (len + 1) rest
      else do
        match ← findChild start len children 0 with
        | none => some (none, children)
        | some (k, tnode) =>
            let child := tnode.register registerInode
            if c = 0#8 then some (some [k], children.set k child)
            else do
              let (inode, below) ← walk registerInode child.firstChild rest 0 rest
              some (inode.map (k :: ·), children.set k { child with firstChild := below })

/-- `vfs_open` (`vfs.c:20-89`): the inode, or `none` for a null pointer, and the mount points. -/
def vfsOpen (mounts : List MountPoint) (path : CString) :
    Option (Option InodePtr × List MountPoint) := do
  match ← findMount path.pointer mounts 0 with
  | none => some (none, mounts)
  | some (n, mountPoint, i) =>
      let start := path.pointer.drop (1 + i)
      let (inode, below) ← walk mountPoint.registerInode mountPoint.firstChild start 0 start
      some (inode.map (InodePtr.mk n), mounts.set n { mountPoint with firstChild := below })

end Muse.Vfs
