import Muse.Elf.Proofs.Lockstep

/-!
# The walk over the program headers

Both passes compute the end of the table as a 32-bit sum and stop at the first offset that is not in
front of it. The loops end for every header; but where the sum wraps, or the entries have no size,
they visit nothing.
-/

namespace Muse.Elf

open Muse.Library

/-- `for (offset = ..; offset < limit; offset += entrySize)`: the loop ends, and it visits the
    offsets `l`. -/
inductive Walk (limit entrySize : BitVec 32) : BitVec 32 → List (BitVec 32) → Prop where
  | stop {offset : BitVec 32} (h : ¬ offset < limit) : Walk limit entrySize offset []
  | next {offset : BitVec 32} {l : List (BitVec 32)} (h : offset < limit)
      (rest : Walk limit entrySize (offset + entrySize) l) :
      Walk limit entrySize offset (offset :: l)

section Walk

variable {limit entrySize offset : BitVec 32} {l l' : List (BitVec 32)}

theorem Walk.unique (h : Walk limit entrySize offset l) (h' : Walk limit entrySize offset l') :
    l = l' := by
  induction h generalizing l' with
  | stop hstop =>
      cases h' with
      | stop => rfl
      | next hlt => exact absurd hlt hstop
  | next hlt _ ih =>
      cases h' with
      | stop hstop => exact absurd hlt hstop
      | next _ rest => rw [ih rest]

/-- The loop with fuel visits the same offsets. -/
theorem Walk.headerOffsets_eq (h : Walk limit entrySize offset l) {fuel : Nat}
    (hfuel : l.length ≤ fuel) : headerOffsets limit entrySize fuel offset = l := by
  induction h generalizing fuel with
  | stop hstop =>
      cases fuel with
      | zero => rfl
      | succ fuel => rw [headerOffsets, if_neg hstop]
  | next hlt _ ih =>
      cases fuel with
      | zero => exact absurd hfuel (Nat.not_succ_le_zero _)
      | succ fuel => rw [headerOffsets, if_pos hlt, ih (Nat.le_of_succ_le_succ hfuel)]

/-- A table of `n` entries that ends at the limit. -/
theorem walk_range (hsize : 0 < entrySize.toNat) (n : Nat) (offset : BitVec 32)
    (hend : offset.toNat + n * entrySize.toNat = limit.toNat) : Walk limit entrySize offset
      ((List.range n).map fun i => offset + BitVec.ofNat 32 i * entrySize) := by
  induction n generalizing offset with
  | zero =>
      refine .stop ?_
      rw [BitVec.lt_def]
      omega
  | succ n ih =>
      have hlimit := limit.isLt
      rw [Nat.succ_mul] at hend
      have hlt : offset < limit := by
        rw [BitVec.lt_def]
        omega
      have hnext : (offset + entrySize).toNat = offset.toNat + entrySize.toNat := by
        rw [BitVec.toNat_add]
        exact Nat.mod_eq_of_lt (by omega)
      have hrest := ih (offset + entrySize) (by rw [hnext]; omega)
      have hmap : (List.range n).map (fun i => offset + entrySize + BitVec.ofNat 32 i * entrySize) =
          (List.range n).map ((fun i => offset + BitVec.ofNat 32 i * entrySize) ∘ Nat.succ) := by
        refine List.map_congr_left fun i _ => ?_
        rw [Function.comp_apply, Nat.succ_eq_add_one, BitVec.ofNat_add, BitVec.add_mul,
          BitVec.one_mul, BitVec.add_comm (_ * _) entrySize, BitVec.add_assoc]
      rw [List.range_succ_eq_map, List.map_cons, List.map_map, ← hmap]
      simpa using Walk.next hlt hrest

end Walk

namespace ElfHeader

variable (h : ElfHeader)

/-- The size of an entry, as a 32-bit word. -/
def entrySize : BitVec 32 := h.programTableEntrySize.setWidth 32

/-- The limit of both loops (`elf.c:35-37`, `79-81`). -/
def tableLimit : BitVec 32 :=
  h.programTableOffset + h.programTableLength.setWidth 32 * h.entrySize

/-- The offsets of the entries of the table. -/
def tableOffsets : List (BitVec 32) :=
  (List.range h.programTableLength.toNat).map fun i =>
    h.programTableOffset + BitVec.ofNat 32 i * h.entrySize

/-- The loops end, and they visit the entries of the table. -/
def VisitsTable : Prop := Walk h.tableLimit h.entrySize h.programTableOffset h.tableOffsets

/-- The table is empty, or its entries have a size and its end is a 32-bit word. -/
def WholeTable : Prop :=
  h.programTableLength = 0#16 ∨ 0#16 < h.programTableEntrySize ∧
    h.programTableOffset.toNat + h.programTableLength.toNat * h.programTableEntrySize.toNat < 2 ^ 32

theorem entrySize_toNat : h.entrySize.toNat = h.programTableEntrySize.toNat := by
  have := h.programTableEntrySize.isLt
  rw [entrySize, BitVec.toNat_setWidth]
  omega

/-- The size of the table does not wrap, but its end can. -/
theorem tableLimit_toNat : h.tableLimit.toNat = (h.programTableOffset.toNat +
    h.programTableLength.toNat * h.programTableEntrySize.toNat) % 2 ^ 32 := by
  rw [tableLimit, BitVec.toNat_add, BitVec.toNat_mul, entrySize_toNat, BitVec.toNat_setWidth,
    Nat.add_mod_mod, Nat.mod_eq_of_lt (Nat.lt_of_lt_of_le h.programTableLength.isLt (by decide))]

theorem tableSize_lt :
    h.programTableLength.toNat * h.programTableEntrySize.toNat < 2 ^ 32 := by
  have hlen := Nat.le_of_lt_succ h.programTableLength.isLt
  have hsize := Nat.le_of_lt_succ h.programTableEntrySize.isLt
  exact Nat.lt_of_le_of_lt (Nat.mul_le_mul hlen hsize) (by decide)

theorem programTableLength_eq_zero :
    h.programTableLength = 0#16 ↔ h.programTableLength.toNat = 0 := by
  rw [← BitVec.toNat_inj]
  rfl

theorem visitsTable_of_whole (hwhole : h.WholeTable) : h.VisitsTable := by
  rcases hwhole with hzero | ⟨hsize, hend⟩
  · have hlen := h.programTableLength_eq_zero.mp hzero
    have hlimit := h.tableLimit_toNat
    rw [hlen, Nat.zero_mul, Nat.add_zero, Nat.mod_eq_of_lt h.programTableOffset.isLt] at hlimit
    rw [VisitsTable, tableOffsets, hlen]
    refine .stop ?_
    rw [BitVec.lt_def]
    omega
  · refine walk_range ?_ _ _ ?_
    · rw [entrySize_toNat]
      exact hsize
    · rw [entrySize_toNat, tableLimit_toNat, Nat.mod_eq_of_lt hend]

/-- Otherwise the limit is not behind the first entry, and no entry is visited. -/
theorem walk_nil_of_not_whole (hnot : ¬ h.WholeTable) :
    Walk h.tableLimit h.entrySize h.programTableOffset [] := by
  have hlimit := h.tableLimit_toNat
  have hsize := h.tableSize_lt
  have hoffset := h.programTableOffset.isLt
  rw [WholeTable, not_or, not_and] at hnot
  refine .stop ?_
  rw [BitVec.lt_def, hlimit]
  by_cases hzero : h.programTableEntrySize.toNat = 0
  · rw [hzero, Nat.mul_zero, Nat.add_zero]
    omega
  · have hend := hnot.2 (BitVec.lt_def.mpr (Nat.pos_of_ne_zero hzero))
    omega

/-- The loops end for every header. -/
theorem walk_ends : ∃ l, Walk h.tableLimit h.entrySize h.programTableOffset l ∧
    l.length < 2 ^ 16 := by
  by_cases hwhole : h.WholeTable
  · refine ⟨h.tableOffsets, h.visitsTable_of_whole hwhole, ?_⟩
    rw [tableOffsets, List.length_map, List.length_range]
    exact h.programTableLength.isLt
  · exact ⟨[], h.walk_nil_of_not_whole hwhole, by decide⟩

theorem visitsTable_iff : h.VisitsTable ↔ h.WholeTable := by
  refine ⟨fun hvisits => ?_, h.visitsTable_of_whole⟩
  by_contra hnot
  have hnil := hvisits.unique (h.walk_nil_of_not_whole hnot)
  rw [tableOffsets, List.map_eq_nil_iff, List.range_eq_nil] at hnil
  exact hnot (.inl (h.programTableLength_eq_zero.mpr hnil))

end ElfHeader

/-- The headers of the model are those of the loops, which need no fuel. -/
theorem programHeaders_walk (contents : Bytes) : ∃ l,
    Walk (elfHeaderAt contents).tableLimit (elfHeaderAt contents).entrySize
      (elfHeaderAt contents).programTableOffset l ∧
    programHeaders contents = l.map fun offset => programHeaderAt contents offset.toNat := by
  obtain ⟨l, hwalk, hlen⟩ := (elfHeaderAt contents).walk_ends
  refine ⟨l, hwalk, ?_⟩
  rw [programHeaders]
  exact congrArg _ (hwalk.headerOffsets_eq (Nat.le_of_lt hlen))

/-- A file is rejected when it was not read as a whole. -/
theorem parseElf_eq_none_iff (kpageAlloc : Nat → BitVec 32) (file : ElfFile) :
    parseElf kpageAlloc (some file) = none ↔ file.transferred ≠ file.size := by
  rw [parseElf]
  simp only [ite_eq_left_iff, reduceCtorEq, imp_false, not_not]

/-- A file is rejected or its headers are visited, exactly when it was not read or its table is
    whole. -/
theorem headers_visited_iff (kpageAlloc : Nat → BitVec 32) (file : ElfFile) :
    (parseElf kpageAlloc (some file) = none ∨ (elfHeaderAt file.contents).VisitsTable) ↔
      file.transferred ≠ file.size ∨ (elfHeaderAt file.contents).WholeTable := by
  rw [parseElf_eq_none_iff, ElfHeader.visitsTable_iff]

/-- A file with one program header whose table starts 16 bytes below the end of the address
    space. -/
def wrappedTable : ElfFile where
  size := 84#32
  transferred := 84#32
  contents a :=
    match a with
    | 28 => 0xF0#8
    | 29 => 0xFF#8
    | 30 => 0xFF#8
    | 31 => 0xFF#8
    | 42 => 32#8
    | 44 => 1#8
    | _ => 0#8

/-- The file is accepted, and its header is not visited. -/
theorem wrappedTable_not_visited : ¬ ∀ (kpageAlloc : Nat → BitVec 32) (file : ElfFile),
    parseElf kpageAlloc (some file) = none ∨ (elfHeaderAt file.contents).VisitsTable := by
  intro hall
  rcases hall (fun _ => 0#32) wrappedTable with hnone | hvisits
  · rw [parseElf_eq_none_iff] at hnone
    exact hnone rfl
  · rw [ElfHeader.visitsTable_iff] at hvisits
    rcases hvisits with hlen | ⟨-, hend⟩
    · exact absurd hlen (by decide)
    · exact absurd hend (by decide)

end Muse.Elf
