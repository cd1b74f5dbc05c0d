import Muse.Drive.Device
import Muse.Library.Replies

/-!
# Partitions as block devices

The file systems on the partitions of a drive send their requests through `gpt_transfer`. To each of
them its partition is the block device of `Muse.Ext2.Bdev`: bytes that a `DIR_READ` transfer copies
to a buffer and a `DIR_WRITE` transfer replaces. Words are stored lowest byte first.
-/

namespace Muse.Drive

open Muse.Library Muse.Ext2

/-- A request of the file system on the partition `part`. -/
structure Request (ι : Type) where
  part : ι
  offset : BitVec 32
  size : BitVec 32
  data : Nat → BitVec 16
  dir : DataDir
  source : Source

/-- The bytes of a buffer of words. -/
def dataBytes (data : Nat → BitVec 16) : Bytes :=
  fun k => (data (k / 2)).extractLsb' (8 * (k % 2)) 8

/-- The bytes of a drive. -/
def sectorBytes (sectors : Nat → Nat → BitVec 16) : Bytes :=
  fun k => (sectors (k / 512) (k % 512 / 2)).extractLsb' (8 * (k % 2)) 8

variable {ι : Type}

/-- A request to the drive. -/
def Disk.serve (dev : AtaDev) (parts : ι → Partition) (d : Disk) (r : Request ι) :
    (DriveRes × Bytes) × Disk :=
  let (res, d, data) := gptTransfer d dev (parts r.part) r.offset r.size r.data r.dir
  ((res, dataBytes data), d)

/-- A request to a block device. -/
def serveBdev (bdev : Bdev) (r : Request ι) : (DriveRes × Bytes) × Bdev :=
  match r.dir with
  | .read =>
      let (res, buf, bdev) := bdev.read r.offset r.size (dataBytes r.data)
      ((res, buf), bdev)
  | .write =>
      let (res, bdev) := bdev.write r.source r.offset r.size (dataBytes r.data)
      ((res, dataBytes r.data), bdev)

/-- A request to one of several block devices. -/
def serveBdevs [DecidableEq ι] (bdevs : ι → Bdev) (r : Request ι) :
    (DriveRes × Bytes) × (ι → Bdev) :=
  let (reply, bdev) := serveBdev (bdevs r.part) r
  (reply, Function.update bdevs r.part bdev)

/-- The request is for at most 255 sectors, all of them in the partition. -/
structure Request.Proper (parts : ι → Partition) (r : Request ι) : Prop where
  pos : 1 ≤ r.size.toNat
  small : r.size.toNat ≤ 255
  inside : (parts r.part).start.toNat + r.offset.toNat + r.size.toNat ≤ (parts r.part).limit.toNat

/-- The partitions lie apart from each other, on sectors that the drive has and that LBA28
    reaches. -/
structure Placed (parts : ι → Partition) (spec : DriveSpec) : Prop where
  capacity : ∀ i, (parts i).limit.toNat ≤ spec.capacity
  lba28 : ∀ i, (parts i).limit.toNat ≤ 2 ^ 28
  apart : ∀ i j, i ≠ j → (parts i).limit.toNat ≤ (parts j).start.toNat ∨
    (parts j).limit.toNat ≤ (parts i).start.toNat

end Muse.Drive
