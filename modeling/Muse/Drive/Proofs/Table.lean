import Mathlib.Data.List.Nodup
import Mathlib.Data.List.Perm.Lattice
import Muse.Drive.Table

/-!
# Which partition tables are read right

Without errors the devices of `init_gpt` are the entries with a partition GUID among those at the
bytes 1024, 1152, 1280 and so on. The last sector of a partition is never admitted, so an entry is
described only where it has no sector.
-/

namespace Muse.Drive

open Muse.Library

/-! ## The places are an addition -/

theorem sectorDevices_part (sector : Bytes) (addr : Nat) :
    (sectorDevices sector addr).map BlockDevice.part = sectorPartitions sector := by
  rw [sectorDevices, sectorPartitions, List.map_filterMap]
  congr 1
  funext j
  dsimp only
  split <;> rfl

theorem initGptDevicesLoop_part (readSector : BitVec 32 → Option Bytes) (n : Nat) (i : BitVec 32) :
    (initGptDevicesLoop readSector n i).map BlockDevice.part = (initGptLoop readSector n i).1 := by
  induction n generalizing i with
  | zero => rfl
  | succ n ih =>
    rw [initGptDevicesLoop, initGptLoop]
    cases readSector (2#32 + i) with
    | none => rfl
    | some sector =>
      dsimp only
      rw [List.map_append, sectorDevices_part, ih]

/-- The devices are those of `initGpt`. -/
theorem initGptDevices_part (readSector : BitVec 32 → Option Bytes) :
    (initGptDevices readSector).map BlockDevice.part = (initGpt readSector).1 := by
  rw [initGptDevices, initGpt]
  cases readSector 1#32 with
  | none => rfl
  | some header =>
    dsimp only
    split
    · rfl
    · exact initGptDevicesLoop_part ..

/-! ## The devices of a disk -/

/-- The device for an entry, if it has a partition GUID. -/
def deviceAt (disk : Bytes) (a : Nat) : Option BlockDevice :=
  if (diskEntry disk a).guidNonzero then some ⟨a, (diskEntry disk a).partition⟩ else none

variable {disk : Bytes}

theorem errorFree_of_lt {lba : BitVec 32} (h : lba.toNat < 2 ^ 32 - 1) :
    errorFree disk lba = some (disk.slice (512 * lba.toNat) 512) := by
  rw [errorFree, if_pos]
  exact BitVec.lt_def.mpr h

/-- An entry depends on its 128 bytes. -/
theorem entryAt_congr {s t : Bytes} {j k : Nat}
    (h : ∀ i < 128, s (128 * j + i) = t (128 * k + i)) : entryAt s j = entryAt t k := by
  have hword : ∀ n, n + 4 ≤ 128 → s.word32 (128 * j + n) = t.word32 (128 * k + n) := by
    intro n hn
    apply Bytes.word32_congr
    intro i hi
    rw [Nat.add_assoc, Nat.add_assoc]
    exact h (n + i) (by omega)
  have hguid : (entryAt s j).partitionGuid = (entryAt t k).partitionGuid := by
    funext i
    show s (128 * j + 16 + i) = t (128 * k + 16 + i)
    rw [Nat.add_assoc, Nat.add_assoc]
    exact h (16 + i) (by omega)
  have hstart : (entryAt s j).startLba = (entryAt t k).startLba := by
    show word64 s (128 * j + 32) = word64 t (128 * k + 32)
    rw [word64, word64, Nat.add_assoc, Nat.add_assoc, hword 36 (by omega), hword 32 (by omega)]
  have hend : (entryAt s j).endLba = (entryAt t k).endLba := by
    show word64 s (128 * j + 40) = word64 t (128 * k + 40)
    rw [word64, word64, Nat.add_assoc, Nat.add_assoc, hword 44 (by omega), hword 40 (by omega)]
  rw [entryAt, entryAt, GptPartition.mk.injEq]
  exact ⟨hguid, hstart, hend⟩

/-- An entry of a sector. -/
theorem entryAt_slice {j : Nat} (hj : j < 4) (a : Nat) :
    entryAt (disk.slice a 512) j = diskEntry disk (a + 128 * j) := by
  apply entryAt_congr
  intro i hi
  rw [Bytes.slice_of_lt (by omega), Nat.mul_zero, Nat.zero_add, Nat.add_assoc]

theorem sectorDevices_slice (a : Nat) : sectorDevices (disk.slice a 512) a =
    ((List.range 4).map fun j => a + 128 * j).filterMap (deviceAt disk) := by
  rw [sectorDevices, List.filterMap_map]
  apply List.filterMap_congr
  intro j hj
  dsimp only
  rw [entryAt_slice (List.mem_range.mp hj), Function.comp_apply, deviceAt]

/-- The loop finds the entries of its sectors. -/
theorem initGptDevicesLoop_errorFree (n : Nat) {i : BitVec 32} (hsmall : i.toNat + n ≤ 2 ^ 30) :
    initGptDevicesLoop (errorFree disk) n i =
      ((List.range (4 * n)).map fun j => 1024 + 512 * i.toNat + 128 * j).filterMap
        (deviceAt disk) := by
  induction n generalizing i with
  | zero => rfl
  | succ n ih =>
    have hlba : (2#32 + i).toNat = 2 + i.toNat := by
      rw [BitVec.toNat_add, BitVec.toNat_ofNat]
      omega
    have hnext : (i + 1#32).toNat = i.toNat + 1 := by
      rw [BitVec.toNat_add, BitVec.toNat_ofNat]
      omega
    rw [initGptDevicesLoop, errorFree_of_lt (by omega)]
    dsimp only
    rw [sectorDevices_slice, ih (by omega), hlba, hnext, ← List.filterMap_append,
      show 4 * (n + 1) = 4 + 4 * n by omega, List.range_add, List.map_append, List.map_map]
    congr 2
    · apply List.map_congr_left
      intro j _
      omega
    · apply List.map_congr_left
      intro j _
      rw [Function.comp_apply]
      omega

/-- The places where `init_gpt` looks for an entry. -/
def slots (disk : Bytes) : List Nat :=
  (List.range (4 * (numSectors (tableHeader disk)).toNat)).map fun j => 1024 + 128 * j

theorem mem_slots {a : Nat} : a ∈ slots disk ↔ LookedAt disk a := by
  rw [slots, List.mem_map]
  constructor
  · rintro ⟨j, hj, rfl⟩
    exact ⟨j, List.mem_range.mp hj, rfl⟩
  · rintro ⟨j, hj, rfl⟩
    exact ⟨j, List.mem_range.mpr hj, rfl⟩

theorem initGptDevices_errorFree (hsig : (List.range 8).map (tableHeader disk) = signature) :
    initGptDevices (errorFree disk) = (slots disk).filterMap (deviceAt disk) := by
  have hcount : (numSectors (tableHeader disk)).toNat ≤ 2 ^ 30 := by
    have hlt := (partitionCount (tableHeader disk) + 3#32).isLt
    rw [numSectors, BitVec.toNat_udiv]
    show _ / 4 ≤ _
    omega
  rw [initGptDevices, errorFree_of_lt (by decide)]
  show (if (List.range 8).map (tableHeader disk) ≠ signature then [] else
    initGptDevicesLoop _ (numSectors (tableHeader disk)).toNat 0#32) = _
  rw [if_neg (not_not.mpr hsig)]
  exact initGptDevicesLoop_errorFree _ (by simpa using hcount)

theorem mem_filterMap_deviceAt {l : List Nat} {d : BlockDevice} :
    d ∈ l.filterMap (deviceAt disk) ↔ d.entry ∈ l ∧ (diskEntry disk d.entry).guidNonzero ∧
      d.part = (diskEntry disk d.entry).partition := by
  rw [List.mem_filterMap]
  constructor
  · rintro ⟨a, ha, hd⟩
    rw [deviceAt, Option.ite_none_right_eq_some, Option.some_inj] at hd
    obtain ⟨hguid, rfl⟩ := hd
    exact ⟨ha, hguid, rfl⟩
  · rintro ⟨ha, hguid, hpart⟩
    refine ⟨d.entry, ha, ?_⟩
    rw [deviceAt, if_pos hguid, ← hpart]

theorem map_entry_filterMap (l : List Nat) : (l.filterMap (deviceAt disk)).map BlockDevice.entry =
    l.filter fun a => (diskEntry disk a).guidNonzero := by
  rw [List.map_filterMap, ← List.filterMap_eq_filter]
  congr 1
  funext a
  rw [deviceAt, Option.guard]
  split <;> rfl

/-! ## The sectors of a partition -/

/-- The limit never admits the last sector. -/
theorem describes_iff (e : GptPartition) :
    e.Describes e.partition ↔ e.endLba < e.startLba ∧ e.startLba.toNat < 2 ^ 32 := by
  have hstart : e.partition.start.toNat = e.startLba.toNat % 2 ^ 32 := BitVec.toNat_setWidth ..
  have hlimit : e.partition.limit.toNat = e.endLba.toNat % 2 ^ 32 := BitVec.toNat_setWidth ..
  constructor
  · intro h
    have heq := h.start
    refine ⟨?_, by omega⟩
    rw [BitVec.lt_def]
    by_contra hle
    obtain ⟨-, hlt⟩ := (h.admits e.endLba.toNat).mpr ⟨Nat.le_of_not_lt hle, Nat.le_refl _⟩
    rw [hlimit] at hlt
    exact absurd hlt (Nat.not_lt.mpr (Nat.mod_le _ _))
  · rintro ⟨hempty, hsmall⟩
    rw [BitVec.lt_def] at hempty
    refine ⟨by omega, fun sector => ?_⟩
    rw [Partition.Admits, hstart, hlimit]
    omega

/-! ## The table -/

theorem entryAddr_injective (hsize : 0 < (entrySize (tableHeader disk)).toNat) :
    Function.Injective (entryAddr disk) := by
  intro j k h
  exact Nat.eq_of_mul_eq_mul_right hsize (Nat.add_left_cancel h)

theorem usedEntries_nodup (hsize : 0 < (entrySize (tableHeader disk)).toNat) :
    (usedEntries disk).Nodup :=
  (List.nodup_range.map (entryAddr_injective hsize)).filter _

theorem slots_nodup : (slots disk).Nodup := by
  apply List.nodup_range.map
  intro j k h
  have heq : 1024 + 128 * j = 1024 + 128 * k := h
  omega

/-- The devices and the used entries are at the same places. -/
theorem entries_perm_iff (hsig : (List.range 8).map (tableHeader disk) = signature)
    (hsize : 0 < (entrySize (tableHeader disk)).toNat) :
    ((initGptDevices (errorFree disk)).map BlockDevice.entry).Perm (usedEntries disk) ↔
      ∀ a, LookedAt disk a ∧ (diskEntry disk a).guidNonzero ↔ a ∈ usedEntries disk := by
  rw [initGptDevices_errorFree hsig, map_entry_filterMap,
    List.perm_ext_iff_of_nodup (slots_nodup.filter _) (usedEntries_nodup hsize)]
  simp only [List.mem_filter, mem_slots]

theorem tableMet_of_reads (hsig : (List.range 8).map (tableHeader disk) = signature)
    (hsize : 0 < (entrySize (tableHeader disk)).toNat) (h : ReadsTable disk) : TableMet disk := by
  have hplaces := (entries_perm_iff hsig hsize).mp h.entries
  refine ⟨fun a ha => (hplaces a).mpr ha, fun a ha hguid => (hplaces a).mp ⟨ha, hguid⟩, ?_⟩
  intro a ha
  obtain ⟨hlooked, hguid⟩ := (hplaces a).mpr ha
  have hmem : (⟨a, (diskEntry disk a).partition⟩ : BlockDevice) ∈
      initGptDevices (errorFree disk) := by
    rw [initGptDevices_errorFree hsig]
    exact mem_filterMap_deviceAt.mpr ⟨mem_slots.mpr hlooked, hguid, rfl⟩
  exact (describes_iff _).mp (h.describes _ hmem)

theorem reads_of_tableMet (hsig : (List.range 8).map (tableHeader disk) = signature)
    (hsize : 0 < (entrySize (tableHeader disk)).toNat) (h : TableMet disk) : ReadsTable disk := by
  refine ⟨(entries_perm_iff hsig hsize).mpr fun a => ?_, ?_⟩
  · exact ⟨fun ⟨hlooked, hguid⟩ => h.others a hlooked hguid, h.seen a⟩
  · intro d hd
    rw [initGptDevices_errorFree hsig] at hd
    obtain ⟨hmem, hguid, hpart⟩ := mem_filterMap_deviceAt.mp hd
    rw [hpart, describes_iff]
    exact h.empty _ (h.others _ (mem_slots.mp hmem) hguid)

/-- The tables that are read right. -/
theorem reads_table_iff (disk : Bytes)
    (hsig : (List.range 8).map (tableHeader disk) = signature)
    (hsize : ∃ k, (entrySize (tableHeader disk)).toNat = 128 * 2 ^ k) :
    ReadsTable disk ↔ TableMet disk := by
  obtain ⟨k, hk⟩ := hsize
  have hpos : 0 < (entrySize (tableHeader disk)).toNat := by
    rw [hk]
    exact Nat.mul_pos (by decide) (Nat.two_pow_pos k)
  exact ⟨tableMet_of_reads hsig hpos, reads_of_tableMet hsig hpos⟩

/-- A header for one entry of 128 bytes from sector 2 on, and that entry, in use for the sectors
    0x800 to `256 * high + 0xFF`. -/
def oneEntry (high : BitVec 8) : Bytes := fun a =>
  if a < 1024 then
    (signature ++ List.replicate 64 0#8 ++ [2#8, 0#8, 0#8, 0#8, 0#8, 0#8, 0#8, 0#8] ++
      [1#8, 0#8, 0#8, 0#8] ++ [128#8, 0#8, 0#8, 0#8]).getD (a - 512) 0#8
  else
    ((1#8 :: List.replicate 15 0#8) ++ (1#8 :: List.replicate 15 0#8) ++
      [0#8, 0x08#8, 0#8, 0#8, 0#8, 0#8, 0#8, 0#8] ++
      [0xFF#8, high, 0#8, 0#8, 0#8, 0#8, 0#8, 0#8]).getD (a - 1024) 0#8

/-- An entry for no sectors is read right. -/
theorem reads_table_iff_empty : ReadsTable (oneEntry 7#8) := by
  refine (reads_table_iff (oneEntry 7#8) (by decide +kernel) ⟨0, by decide +kernel⟩).mpr ?_
  have hused : usedEntries (oneEntry 7#8) = [1024] := by decide +kernel
  constructor
  · rw [hused, List.forall_mem_singleton]
    exact ⟨⟨0, by decide +kernel, rfl⟩, by decide +kernel⟩
  · rintro a ⟨j, hj, rfl⟩ hguid
    have hsectors : (numSectors (tableHeader (oneEntry 7#8))).toNat = 1 := by decide +kernel
    have hlast : ∀ j < 4, (diskEntry (oneEntry 7#8) (1024 + 128 * j)).guidNonzero → j = 0 := by
      decide +kernel
    rw [hused, hlast j (by omega) hguid]
    exact List.mem_cons_self
  · rw [hused, List.forall_mem_singleton]
    decide +kernel

/-- A partition with the sectors 0x800 to 0xFFF loses its last one. -/
theorem last_sector_lost : ¬ ReadsTable (oneEntry 15#8) := by
  intro h
  have hmet := tableMet_of_reads (by decide +kernel) (by decide +kernel) h
  exact absurd (hmet.empty 1024 (by decide +kernel)).1 (by decide +kernel)

end Muse.Drive
