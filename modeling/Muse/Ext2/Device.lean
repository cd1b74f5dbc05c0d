import Muse.Library.Bytes

/-!
# Block devices

The block device below a file system: `bdev->transfer` of `include/muse/vfs.h` moves whole sectors
of `SECTOR_SIZE` bytes (`include/muse/ata.h`) between the disk and a buffer. Any transfer may fail;
one that fails moves nothing. Next to the disk, the sectors that `DIR_WRITE` transfers have written
are recorded.
-/

namespace Muse.Ext2

open Muse.Library

/-- `SECTOR_SIZE` (`include/muse/ata.h:16`). -/
def sectorSize : Nat := 512

/-- `enum hal_drive_res` (`include/muse/hal.h`). -/
inductive DriveRes where
  | success
  | errNoDrive
  | errNoSupportedMode
  | errIoFailed
  | errBadArgs
  | errTimeout
  deriving DecidableEq, Repr

/-- The number of an enumerator. -/
def DriveRes.toWord : DriveRes → BitVec 32
  | .success => 0#32
  | .errNoDrive => 1#32
  | .errNoSupportedMode => 2#32
  | .errIoFailed => 3#32
  | .errBadArgs => 4#32
  | .errTimeout => 5#32

/-- `enum data_dir` (`include/muse/vfs.h:10-13`). -/
inductive DataDir where
  | read
  | write
  deriving DecidableEq, Repr

/-- Whose buffer a `DIR_WRITE` transfer takes its sectors from. -/
inductive Source where
  | data
  | indirectBlock
  | bitmap
  | inodes
  deriving DecidableEq, Repr

/-- A `DIR_WRITE` transfer of `count` sectors from the sector `lba` on. -/
structure Write where
  source : Source
  lba : Nat
  count : Nat
  deriving DecidableEq, Repr

/-- The sector is one of those written. -/
def Write.Covers (w : Write) (s : Nat) : Prop := w.lba ≤ s ∧ s < w.lba + w.count

/-- A block device. `result k` is what its transfer number `k` returns. -/
structure Bdev where
  disk : Bytes
  result : Nat → DriveRes
  transfers : Nat
  written : List Write

/-- A buffer from `kmalloc`. What it holds before the first transfer into it is not used. -/
def fresh : Bytes := fun _ => 0#8

namespace Bdev

/-- The result of the next transfer. -/
def next (bdev : Bdev) : DriveRes := bdev.result bdev.transfers

/-- The device after a transfer that left the disk as it was. -/
def tick (bdev : Bdev) : Bdev := { bdev with transfers := bdev.transfers + 1 }

/-- `bdev->transfer(bdev, lba, count, buf, DIR_READ)`. -/
def read (bdev : Bdev) (lba count : BitVec 32) (buf : Bytes) : DriveRes × Bytes × Bdev :=
  if bdev.next = .success then
    let n := sectorSize * count.toNat
    (.success, buf.splice 0 n (bdev.disk.slice (sectorSize * lba.toNat) n), bdev.tick)
  else (bdev.next, buf, bdev.tick)

/-- The device after a write that went through. -/
def wrote (bdev : Bdev) (source : Source) (lba count : BitVec 32) (buf : Bytes) : Bdev :=
  { bdev.tick with
    disk := bdev.disk.splice (sectorSize * lba.toNat) (sectorSize * count.toNat) buf
    written := ⟨source, lba.toNat, count.toNat⟩ :: bdev.written }

/-- `bdev->transfer(bdev, lba, count, buf, DIR_WRITE)`. -/
def write (bdev : Bdev) (source : Source) (lba count : BitVec 32) (buf : Bytes) :
    DriveRes × Bdev :=
  if bdev.next = .success then (.success, bdev.wrote source lba count buf)
  else (bdev.next, bdev.tick)

variable {bdev : Bdev}

@[simp] theorem tick_disk : bdev.tick.disk = bdev.disk := rfl

@[simp] theorem tick_written : bdev.tick.written = bdev.written := rfl

@[simp] theorem tick_result : bdev.tick.result = bdev.result := rfl

@[simp] theorem tick_transfers : bdev.tick.transfers = bdev.transfers + 1 := rfl

/-- A read into a new buffer. -/
theorem read_fresh (h : bdev.next = .success) (lba count : BitVec 32) :
    bdev.read lba count fresh =
      (.success, bdev.disk.slice (sectorSize * lba.toNat) (sectorSize * count.toNat),
        bdev.tick) := by
  have hbuf : ∀ (m : Bytes) (a n : Nat), fresh.splice 0 n (m.slice a n) = m.slice a n := by
    intro m a n
    funext i
    by_cases hi : i < n
    · rw [Bytes.splice_of_mem (Nat.zero_le i) (by omega), Nat.sub_zero]
    · rw [Bytes.splice_of_not_mem (by omega), Bytes.slice, if_neg hi, fresh]
  rw [read, if_pos h]
  simp only [hbuf]

theorem read_failed (h : bdev.next ≠ .success) (lba count : BitVec 32) (buf : Bytes) :
    bdev.read lba count buf = (bdev.next, buf, bdev.tick) := by
  rw [read, if_neg h]

@[simp] theorem read_written (lba count : BitVec 32) (buf : Bytes) :
    (bdev.read lba count buf).2.2.written = bdev.written := by
  unfold read
  split <;> rfl

/-- A transfer adds to what has been written. -/
theorem write_written (source : Source) (lba count : BitVec 32) (buf : Bytes) :
    ∃ back, (bdev.write source lba count buf).2.written = back ++ bdev.written := by
  unfold write
  split
  · exact ⟨[_], rfl⟩
  · exact ⟨[], rfl⟩

theorem write_failed (h : bdev.next ≠ .success) (source : Source) (lba count : BitVec 32)
    (buf : Bytes) : bdev.write source lba count buf = (bdev.next, bdev.tick) := by
  rw [write, if_neg h]

theorem write_ok (h : bdev.next = .success) (source : Source) (lba count : BitVec 32)
    (buf : Bytes) : bdev.write source lba count buf =
      (.success, bdev.wrote source lba count buf) := by
  rw [write, if_pos h]

end Bdev

end Muse.Ext2
