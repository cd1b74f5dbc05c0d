import Mathlib.Data.List.TakeWhile
import Muse.Vfs.Open

/-!
# Lookups and what they register

`vfs_open` (`src/common/vfs.c`) for a pointer into any memory, also one in which characters stand
behind the path. The nodes that it registers are kept: a registration stores a new inode in
a node, whatever was there before.
-/

namespace Muse.Vfs

/-- `walk` with the nodes that it registers, in order. -/
def walkRegistering (registerInode : BitVec 32 → List Tnode) (children : List Tnode)
    (start : List (BitVec 8)) (len : Nat) :
    List (BitVec 8) → Option (Option (List Nat) × List Tnode × List (List Nat))
  | [] => none
  | c :: rest =>
      if c ≠ 0#8 ∧ c ≠ separator then walkRegistering registerInode children start (len + 1) rest
      else do
        match ← findChild start len children 0 with
        | none => some (none, children, [])
        | some (k, tnode) =>
            let child := tnode.register registerInode
            let registered := if tnode.present then [] else [[k]]
            if c = 0#8 then some (some [k], children.set k child, registered)
            else do
              let (inode, below, more) ← walkRegistering registerInode child.firstChild rest 0 rest
              some (inode.map (k :: ·), children.set k { child with firstChild := below },
                registered ++ more.map (k :: ·))

/-- What a call of `vfs_open` finds, the mount points behind it, and the inodes that it
    registers. -/
structure Lookup where
  found : Option InodePtr
  mounts : List MountPoint
  registered : List InodePtr

/-- `vfs_open` (`vfs.c:20-89`) for the characters from a pointer on. -/
def lookup (mounts : List MountPoint) (path : List (BitVec 8)) : Option Lookup := do
  match ← findMount path mounts 0 with
  | none => some ⟨none, mounts, []⟩
  | some (n, mountPoint, i) =>
      let start := path.drop (1 + i)
      let (inode, below, registered) ←
        walkRegistering mountPoint.registerInode mountPoint.firstChild start 0 start
      some ⟨inode.map (InodePtr.mk n), mounts.set n { mountPoint with firstChild := below },
        registered.map (InodePtr.mk n)⟩

/-- The string at the beginning of a row of characters. -/
def CString.ofBytes (bytes : List (BitVec 8)) : CString where
  chars := bytes.takeWhile (· ≠ 0#8)
  noNull := fun h => by simpa using List.mem_takeWhile_imp h

/-- There is a node at `steps` below an inode with `children`. -/
def IsNode : List Tnode → List Nat → Prop
  | _, [] => True
  | children, k :: steps => ∃ tnode, children[k]? = some tnode ∧ IsNode tnode.firstChild steps

/-- There is an inode at `p`. -/
def IsInode (mounts : List MountPoint) (p : InodePtr) : Prop :=
  ∃ m, mounts[p.mountPoint]? = some m ∧ IsNode m.firstChild p.children

/-- The node at `steps` and those on the way there are present. -/
def IsPresent : List Tnode → List Nat → Prop
  | _, [] => True
  | children, k :: steps =>
      ∃ tnode, children[k]? = some tnode ∧ tnode.present ∧ IsPresent tnode.firstChild steps

end Muse.Vfs
