import Mathlib.Data.Set.Defs
import Mathlib.Logic.Function.Basic
import Muse.Ext2.File

/-!
# Files on one volume

The files that are in use on a mounted volume: each has an inode number and an inode in memory, and
all are on the one block device. `ext2_transfer` on one of them finds the payload of its inode
there. A call below the end of the file transfers the bytes up to the end, as the length is cut off
there for a read and for a write.
-/

namespace Muse.Ext2

open Muse.Library

variable {ι : Type}

/-- What the payloads of the files have, and the device. -/
structure Volume (ι : Type) where
  sb : Superblock
  number : ι → BitVec 32
  inode : ι → Inode
  bdev : Bdev

namespace Volume

/-- Byte `k` of a file. -/
def byte (v : Volume ι) (p : ι) (k : Nat) : BitVec 8 := v.sb.fileByte v.bdev.disk (v.inode p) k

/-- The size of a file. -/
def size (v : Volume ι) (p : ι) : Nat := (v.inode p).sizeLo.toNat

variable [DecidableEq ι]

/-- `ext2_transfer` on one of the files, in at most `n` rounds: the bytes transferred, the caller's
    buffer and the volume. -/
def transfer (n : Nat) (v : Volume ι) (p : ι) (offset len : BitVec 32) (data : Bytes)
    (dir : DataDir) : Option (BitVec 32 × Bytes × Volume ι) := do
  let (moved, t) ← ext2Transfer n v.sb v.bdev (v.number p) (v.inode p) offset len data dir
  some (moved, t.data, { v with inode := Function.update v.inode p t.inode, bdev := t.bdev })

/-- No block of `p` is one of `q`. -/
structure Apart (v : Volume ι) (p q : ι) : Prop where
  blocks : ∀ k < 12 + v.sb.entriesPerBlock, ∀ l < 12 + v.sb.entriesPerBlock,
    v.sb.mapped v.bdev.disk (v.inode p) k ≠ 0#32 →
    v.sb.mapped v.bdev.disk (v.inode p) k ≠ v.sb.mapped v.bdev.disk (v.inode q) l
  indirect : ∀ k < 12 + v.sb.entriesPerBlock, v.sb.mapped v.bdev.disk (v.inode p) k ≠ 0#32 →
    v.sb.mapped v.bdev.disk (v.inode p) k ≠ (v.inode q).indirectBlockSingle

/-- The files are whole ones, apart from each other, on a device without errors. -/
structure Sound (v : Volume ι) (files : Set ι) : Prop where
  whole : ∀ p ∈ files, WholeFile v.sb v.bdev.disk (v.number p) (v.inode p)
  apart : ∀ p ∈ files, ∀ q ∈ files, p ≠ q → v.Apart p q
  ok : ∀ k, v.bdev.result k = .success

/-- What a transfer of `m` bytes at `offset` does to the contents of the files. -/
def moved (p : ι) (offset : BitVec 32) (m : Nat) (data : Bytes) (dir : DataDir)
    (contents : ι → Bytes) : ι → Bytes :=
  match dir with
  | .read => contents
  | .write => Function.update contents p ((contents p).splice offset.toNat m data)

/-- The caller's buffer behind it. -/
def received (file : Bytes) (offset : BitVec 32) (m : Nat) (data : Bytes) : DataDir → Bytes
  | .read => data.splice 0 m fun k => file (offset.toNat + k)
  | .write => data

end Volume

end Muse.Ext2
