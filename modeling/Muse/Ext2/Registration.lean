import Muse.Ext2.Directory
import Muse.Library.Links

/-!
# Children in memory

`enumerate_children` and `ext2_register_inode` of `src/common/ext2.c` once more, with the nodes in
memory: each new one is linked in front of the list that `first_child` points to. The `first_child`
of the local `child` is not set before, so the list goes on wherever it points.
-/

namespace Muse.Ext2.Linked

open Muse.Library
open Muse.Vfs (Tnode)

/-- The nodes at their addresses, and their fields `next`. -/
structure Nodes where
  tnode : BitVec 32 → Tnode
  next : BitVec 32 → BitVec 32

/-- The node `tnode` is written to `p`, in front of the one at `next` (`ext2.c:270-279`). -/
def Nodes.push (mem : Nodes) (p : BitVec 32) (tnode : Tnode) (next : BitVec 32) : Nodes where
  tnode := Function.update mem.tnode p tnode
  next := Function.update mem.next p next

/-- A `first_child`, the nodes in memory, and those of them that were created, the last one
    first. -/
structure Children where
  firstChild : BitVec 32
  mem : Nodes
  created : List (BitVec 32)

/-- The loop over the entries (`ext2.c:266-281`). The addresses `free` are those that `kmalloc`
    returns for the nodes. -/
def walkEntries (buf : Bytes) (size : BitVec 32) :
    Nat → BitVec 32 → List (BitVec 32) → Children → Option Children
  | 0, _, _, _ => none
  | fuel + 1, off, free, c =>
      if off < size - 1#32 then
        if size.toNat < off.toNat + 4 then none
        else if entryInode buf off.toNat = 0#32 then some c
        else if size.toNat < off.toNat + entryReads buf off.toNat then none
        else
          match free with
          | [] => none
          | p :: free =>
              walkEntries buf size fuel (off + (entryLen buf off.toNat).setWidth 32) free
                ⟨p, c.mem.push p (entryNode buf off.toNat) c.firstChild, p :: c.created⟩
      else some c

/-- `enumerate_children` (`ext2.c:244-284`) for an inode with this `first_child`. -/
def enumerateChildren (fuel : Nat) (sb : Superblock) (bdev : Bdev) (inodeI : BitVec 32)
    (inode : Inode) (free : List (BitVec 32)) (firstChild : BitVec 32) (mem : Nodes) :
    Option (DriveRes × Children × Bdev) :=
  if inode.mode &&& ext2Dir = 0#16 then some (.success, ⟨0#32, mem, []⟩, bdev)
  else if sb.blockSize = 0#32 then none
  else do
    let t ← readBlocks sb inodeI (dirBlocks sb inode).toNat 0#32 ⟨.success, inode, fresh, bdev⟩
    if t.err ≠ .success then some (t.err, ⟨firstChild, mem, []⟩, t.bdev)
    else do
      let c ← walkEntries t.data (dirBytes sb inode) fuel 0#32 free ⟨firstChild, mem, []⟩
      some (.success, c, t.bdev)

/-- What is stored in the node that is registered. -/
structure Registered where
  inode : Inode
  err : DriveRes
  children : Children
  bdev : Bdev

/-- `ext2_register_inode` (`ext2.c:425-444`) for the inode number `inodeI`. Before, the memory of
    the payload holds `inode`, and the `first_child` of the local `child` is `firstChild`. -/
def ext2RegisterInode (fuel : Nat) (sb : Superblock) (bdev : Bdev) (inodeI : BitVec 32)
    (inode : Inode) (free : List (BitVec 32)) (firstChild : BitVec 32) (mem : Nodes) :
    Option Registered := do
  let (_, inode, bdev) ← inodeTransfer sb bdev inodeI inode .read
  let (err, children, bdev) ← enumerateChildren fuel sb bdev inodeI inode free firstChild mem
  some ⟨inode, err, children, bdev⟩

/-- The list at `first_child` is finite and has exactly the nodes that were created. -/
def Children.Exact (c : Children) : Prop :=
  ∃ l, Chain c.mem.next 0#32 c.firstChild l ∧ ∀ p, p ∈ l ↔ p ∈ c.created

end Muse.Ext2.Linked
