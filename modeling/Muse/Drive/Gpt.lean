import Muse.Drive.Ata

/-!
# GPT partitions

`init_gpt` and `gpt_transfer` of `src/common/gpt.c`. The table on the disk has 64-bit sector numbers
and partitions that include their last sector; `struct partition` keeps the low 32 bits of both.
-/

namespace Muse.Drive

open Muse.Library Muse.Ext2

/-- The bytes of `struct gpt_partition` (`include/muse/gpt.h`) that `init_gpt` reads. -/
structure GptPartition where
  partitionGuid : Fin 16 → BitVec 8
  startLba : BitVec 64
  endLba : BitVec 64

def word64 (m : Bytes) (a : Nat) : BitVec 64 := m.word32 (a + 4) ++ m.word32 a

/-- Entry `j` of a sector of the table. -/
def entryAt (sector : Bytes) (j : Nat) : GptPartition where
  partitionGuid k := sector (128 * j + 16 + k)
  startLba := word64 sector (128 * j + 32)
  endLba := word64 sector (128 * j + 40)

/-- `guid_nonzero` (`gpt.c:44-47`). -/
def GptPartition.guidNonzero (e : GptPartition) : Bool := decide (∃ k, e.partitionGuid k ≠ 0#8)

/-- The partition that is registered for an entry (`gpt.c:57-59`). -/
def GptPartition.partition (e : GptPartition) : Partition :=
  ⟨e.startLba.setWidth 32, e.endLba.setWidth 32⟩

/-- `"EFI PART"`. -/
def signature : List (BitVec 8) :=
  [0x45#8, 0x46#8, 0x49#8, 0x20#8, 0x50#8, 0x41#8, 0x52#8, 0x54#8]

/-- The partitions in a sector of the table (`gpt.c:43-69`). -/
def sectorPartitions (sector : Bytes) : List Partition :=
  (List.range 4).filterMap fun j =>
    let e := entryAt sector j
    if e.guidNonzero then some e.partition else none

/-- The loop of `init_gpt` (`gpt.c:38-70`), from sector `i` of the table on. `readSector` is
    `dev->transfer` of one sector of the whole drive; after an error the partitions of the sectors
    before stay registered. -/
def initGptLoop (readSector : BitVec 32 → Option Bytes) : Nat → BitVec 32 → List Partition × Bool
  | 0, _ => ([], true)
  | n + 1, i =>
      match readSector (2#32 + i) with
      | none => ([], false)
      | some sector =>
          let (parts, ok) := initGptLoop readSector n (i + 1#32)
          (sectorPartitions sector ++ parts, ok)

/-- `init_gpt` (`gpt.c:16-74`): the partitions that it passes on, and what it returns. -/
def initGpt (readSector : BitVec 32 → Option Bytes) : List Partition × Bool :=
  match readSector 1#32 with
  | none => ([], false)
  | some header =>
      if (List.range 8).map header ≠ signature then ([], false)
      else
        let numSectors := (header.word32 80 + 3#32) / 4#32
        initGptLoop readSector numSectors.toNat 0#32

/-- `gpt_transfer` (`gpt.c:10-14`). The count loses all but its low 8 bits. -/
def gptTransfer {β : Type} [Ports β] (b : β) (dev : AtaDev) (part : Partition)
    (offset size : BitVec 32) (data : Nat → BitVec 16) (dir : DataDir) :
    DriveRes × β × (Nat → BitVec 16) :=
  Ports.ataTransfer b dev part offset (size.setWidth 8) data dir

end Muse.Drive
