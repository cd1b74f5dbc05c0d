import Muse.Drive.Gpt

/-!
# A partition table and the devices made from it

The table that a GPT header describes: where it begins, how long an entry is and how many there are.
`init_gpt` (`src/common/gpt.c`) reads only the number. It is repeated here with the place on the
disk of the entry that each block device is made from.
-/

namespace Muse.Drive

open Muse.Library

/-- `dev->transfer` of one sector of the whole drive without an error: `partition_raw` starts at 0,
    and its limit is the largest sector number (`gpt.c:17-20`, `ata.c:110-113`). -/
def errorFree (disk : Bytes) (lba : BitVec 32) : Option Bytes :=
  if lba < 0xFFFFFFFF#32 then some (disk.slice (512 * lba.toNat) 512) else none

/-! ## The table of the header -/

/-- `struct gpt_table_header` in sector 1. -/
def tableHeader (disk : Bytes) : Bytes := disk.slice 512 512

/-- `entry_table_lba`. -/
def entryTableLba (header : Bytes) : BitVec 64 := word64 header 72

/-- `partition_count`. -/
def partitionCount (header : Bytes) : BitVec 32 := header.word32 80

/-- `entry_size`. -/
def entrySize (header : Bytes) : BitVec 32 := header.word32 84

/-- Where entry `k` of the table begins. -/
def entryAddr (disk : Bytes) (k : Nat) : Nat :=
  512 * (entryTableLba (tableHeader disk)).toNat + k * (entrySize (tableHeader disk)).toNat

/-- The entry that begins at the byte `a`. -/
def diskEntry (disk : Bytes) (a : Nat) : GptPartition := entryAt (fun i => disk (a + i)) 0

/-- `partition_type_guid` of the entry at the byte `a` is not zero. -/
def TypeNonzero (disk : Bytes) (a : Nat) : Prop := ∃ i < 16, disk (a + i) ≠ 0#8

instance (disk : Bytes) (a : Nat) : Decidable (TypeNonzero disk a) :=
  inferInstanceAs (Decidable (∃ i < 16, _))

/-- Where the used entries of the table begin. -/
def usedEntries (disk : Bytes) : List Nat :=
  ((List.range (partitionCount (tableHeader disk)).toNat).map (entryAddr disk)).filter
    fun a => decide (TypeNonzero disk a)

/-! ## The devices -/

/-- A block device that is passed to `detect_ext2`, with the place of its entry. -/
structure BlockDevice where
  entry : Nat
  part : Partition

/-- `sectorPartitions` for the sector that begins at the byte `addr`. -/
def sectorDevices (sector : Bytes) (addr : Nat) : List BlockDevice :=
  (List.range 4).filterMap fun j =>
    let e := entryAt sector j
    if e.guidNonzero then some ⟨addr + 128 * j, e.partition⟩ else none

/-- `initGptLoop` with the places. -/
def initGptDevicesLoop (readSector : BitVec 32 → Option Bytes) : Nat → BitVec 32 → List BlockDevice
  | 0, _ => []
  | n + 1, i =>
      match readSector (2#32 + i) with
      | none => []
      | some sector =>
          sectorDevices sector (512 * (2#32 + i).toNat) ++
            initGptDevicesLoop readSector n (i + 1#32)

/-- `num_sectors` (`gpt.c:35`). -/
def numSectors (header : Bytes) : BitVec 32 := (partitionCount header + 3#32) / 4#32

/-- `initGpt` with the places. -/
def initGptDevices (readSector : BitVec 32 → Option Bytes) : List BlockDevice :=
  match readSector 1#32 with
  | none => []
  | some header =>
      if (List.range 8).map header ≠ signature then []
      else initGptDevicesLoop readSector (numSectors header).toNat 0#32

/-! ## What the devices should be -/

/-- The sector is in the partition, and its number is below the limit. -/
def Partition.Admits (p : Partition) (sector : Nat) : Prop :=
  p.start.toNat ≤ sector ∧ sector < p.limit.toNat

/-- The partition is the one that the entry describes. -/
structure GptPartition.Describes (e : GptPartition) (p : Partition) : Prop where
  start : p.start.toNat = e.startLba.toNat
  admits : ∀ sector, p.Admits sector ↔ e.startLba.toNat ≤ sector ∧ sector ≤ e.endLba.toNat

/-- One block device for each used entry of the table, and none for anything else. -/
structure ReadsTable (disk : Bytes) : Prop where
  entries : ((initGptDevices (errorFree disk)).map BlockDevice.entry).Perm (usedEntries disk)
  describes : ∀ d ∈ initGptDevices (errorFree disk), (diskEntry disk d.entry).Describes d.part

/-- `init_gpt` looks for an entry at the byte `a`: the sectors from number 2 on, four entries in
    each. -/
def LookedAt (disk : Bytes) (a : Nat) : Prop :=
  ∃ j < 4 * (numSectors (tableHeader disk)).toNat, a = 1024 + 128 * j

/-- The disks on which `init_gpt` finds the table, all of whose used entries are empty ones. -/
structure TableMet (disk : Bytes) : Prop where
  seen : ∀ a ∈ usedEntries disk, LookedAt disk a ∧ (diskEntry disk a).guidNonzero
  others : ∀ a, LookedAt disk a → (diskEntry disk a).guidNonzero → a ∈ usedEntries disk
  empty : ∀ a ∈ usedEntries disk,
    (diskEntry disk a).endLba < (diskEntry disk a).startLba ∧
      (diskEntry disk a).startLba.toNat < 2 ^ 32

end Muse.Drive
