import Mathlib.Tactic.IntervalCases
import Muse.Paging.Map

/-!
# Page tables seen through the window

While the directory is self-mapped, `LOOPBACK_DIR[PG_DIR_IDX(v)]` is the directory entry of
`v` and `LOOPBACK_TBL(PG_DIR_IDX(v))[PG_TBL_IDX(v)]` its table entry. With these, each
function of `Muse.Paging.Map` has one equation that does not mention the window any more.
-/

namespace Muse.Paging

open Muse.Library

/-! ## Entries -/

@[simp] theorem isPresent_eq (e : BitVec 32) : isPresent e = present e := by
  have h : e &&& 1#32 = 0#32 ↔ e.getLsbD 0 = false := by
    constructor
    · intro h
      have := congrArg (fun x : BitVec 32 => x.getLsbD 0) h
      simpa using this
    · intro h
      ext i hi
      by_cases hi0 : i = 0
      · subst hi0
        simpa using h
      · simp [hi0]
  rw [isPresent, present, pagingBitPresent]
  cases hb : e.getLsbD 0 <;> simp_all

@[simp] theorem frame_pageAddr (f : BitVec 20) : pageOf (pageAddr f) = f := by
  ext i hi
  simp only [pageOf, pageAddr]
  interval_cases i <;> simp

theorem pageAddr_toNat (t : BitVec 20) : (pageAddr t).toNat = 4096 * t.toNat := by
  have ht := t.isLt
  simp only [pageAddr, BitVec.toNat_shiftLeft, BitVec.toNat_setWidth, Nat.shiftLeft_eq]
  omega

theorem and_addrMask (e : BitVec 32) : e &&& addrMask = pageAddr (frame e) := by
  ext i hi
  simp only [addrMask, pageAddr, frame]
  interval_cases i <;> simp

@[simp] theorem frame_setAddr (e a : BitVec 32) : frame (setAddr e a) = pageOf a := by
  ext i hi
  simp only [frame, pageOf, setAddr, addrMask]
  interval_cases i <;> simp

@[simp] theorem present_setAddr (e a : BitVec 32) : present (setAddr e a) = present e := by
  simp [present, setAddr, addrMask]

@[simp] theorem frame_createPagingEntry (a : BitVec 32) (p w u : Bool) :
    frame (createPagingEntry a p w u) = pageOf a := by
  cases p <;> cases w <;> cases u
  all_goals
    ext i hi
    simp only [frame, pageOf, createPagingEntry, setUser, setWriteable, setPresent, setAddr,
      addrMask, pagingBitPresent, pagingBitWriteable, pagingBitUser]
    interval_cases i <;> simp

@[simp] theorem present_createPagingEntry (a : BitVec 32) (p w u : Bool) :
    present (createPagingEntry a p w u) = p := by
  cases p <;> cases w <;> cases u <;>
    simp [present, createPagingEntry, setUser, setWriteable, setPresent, setAddr,
      addrMask, pagingBitPresent, pagingBitWriteable, pagingBitUser]

theorem createPagingEntry_pageOf (a : BitVec 32) (p w u : Bool) :
    createPagingEntry (pageAddr (pageOf a)) p w u = createPagingEntry a p w u := by
  have h : setAddr 0#32 (pageAddr (pageOf a)) = setAddr 0#32 a := by
    rw [setAddr, setAddr, and_addrMask, and_addrMask]
    rw [show frame (pageAddr (pageOf a)) = frame a from frame_pageAddr _]
  rw [createPagingEntry, createPagingEntry, h]

theorem createPagingEntry_writeable (a : BitVec 32) (p u : Bool) :
    createPagingEntry a p true u &&& pagingBitWriteable ≠ 0#32 := by
  intro h
  have := congrArg (fun x : BitVec 32 => x.getLsbD 1) h
  cases p <;> cases u <;>
    simp [createPagingEntry, setUser, setWriteable, setPresent, setAddr, addrMask,
      pagingBitPresent, pagingBitWriteable, pagingBitUser] at this

/-- The entry of a table for a page that is mapped to a frame, or not at all. -/
def pageWord (user : Bool) : Option (BitVec 20) → BitVec 32
  | some f => createPagingEntry (pageAddr f) true true user
  | none => 0#32

/-! ## The addresses of the window -/

theorem pgDirIdx_toNat (v : BitVec 32) : (pgDirIdx v).toNat = v.toNat / 4194304 := by
  simp [pgDirIdx, Nat.shiftRight_eq_div_pow]

theorem pgTblIdx_toNat (v : BitVec 32) : (pgTblIdx v).toNat = v.toNat / 4096 % 1024 := by
  have h := Nat.and_two_pow_sub_one_eq_mod (v.toNat / 4096) 10
  simpa [pgTblIdx, Nat.shiftRight_eq_div_pow] using h

theorem elem_loopbackDir_toNat (v : BitVec 32) :
    (elem loopbackDir (pgDirIdx v)).toNat = 0xFFFFF000 + 4 * (v.toNat / 4194304) := by
  have hv := v.isLt
  simp only [elem, loopbackDir, BitVec.toNat_add, BitVec.toNat_mul, pgDirIdx_toNat,
    BitVec.toNat_ofNat]
  omega

theorem elem_loopbackTbl_toNat (v : BitVec 32) :
    (elem (loopbackTbl (pgDirIdx v)) (pgTblIdx v)).toNat =
      0xFFC00000 + 4096 * (v.toNat / 4194304) + 4 * (v.toNat / 4096 % 1024) := by
  have hv := v.isLt
  simp only [elem, loopbackTbl, BitVec.toNat_add, BitVec.toNat_mul, pgDirIdx_toNat,
    pgTblIdx_toNat, BitVec.toNat_ofNat, BitVec.toNat_shiftLeft, Nat.shiftLeft_eq]
  omega

/-- `LOOPBACK_DIR[PG_DIR_IDX(v)]` is on the top page, at the directory index of `v`. -/
theorem loopbackDir_indices (v : BitVec 32) :
    dirIdx (elem loopbackDir (pgDirIdx v)) = 1023#10 ∧
    tblIdx (elem loopbackDir (pgDirIdx v)) = 1023#10 ∧
    wordIdx (elem loopbackDir (pgDirIdx v)) = dirIdx v := by
  have hv := v.isLt
  simp only [← BitVec.toNat_inj, dirIdx_toNat, tblIdx_toNat, wordIdx_toNat,
    elem_loopbackDir_toNat, BitVec.toNat_ofNat]
  omega

/-- `LOOPBACK_TBL(PG_DIR_IDX(v))[PG_TBL_IDX(v)]` is on the page of the window that belongs to
    the directory index of `v`, at the table index of `v`. -/
theorem loopbackTbl_indices (v : BitVec 32) :
    dirIdx (elem (loopbackTbl (pgDirIdx v)) (pgTblIdx v)) = 1023#10 ∧
    tblIdx (elem (loopbackTbl (pgDirIdx v)) (pgTblIdx v)) = dirIdx v ∧
    wordIdx (elem (loopbackTbl (pgDirIdx v)) (pgTblIdx v)) = tblIdx v := by
  have hv := v.isLt
  simp only [← BitVec.toNat_inj, dirIdx_toNat, tblIdx_toNat, wordIdx_toNat,
    elem_loopbackTbl_toNat, BitVec.toNat_ofNat]
  omega

/-! ## The functions -/

namespace Vm

variable {s : Vm}

/-- The state with word `k` of frame `f` replaced. -/
def write (s : Vm) (f : BitVec 20) (k : BitVec 10) (x : BitVec 32) : Vm :=
  { s with space := { s.space with mem := s.space.mem.write f k x } }

theorem store_eq {v : BitVec 32} {f : BitVec 20} (h : s.space.frameOf v = some f)
    (x : BitVec 32) : s.store v x = some (s.write f (wordIdx v) x) := by
  rw [store, Space.store_eq h]
  rfl

theorem load_dir (h : s.space.SelfMapped) (v : BitVec 32) :
    s.load (elem loopbackDir (pgDirIdx v)) = some (s.space.pde v) := by
  obtain ⟨hd, ht, hw⟩ := loopbackDir_indices v
  rw [load, Space.load_eq (h.frameOf_top hd ht), hw]
  rfl

theorem store_dir (h : s.space.SelfMapped) (v x : BitVec 32) :
    s.store (elem loopbackDir (pgDirIdx v)) x = some (s.write s.space.cr3 (dirIdx v) x) := by
  obtain ⟨hd, ht, hw⟩ := loopbackDir_indices v
  rw [store_eq (h.frameOf_top hd ht), hw]

theorem frameOf_tbl (h : s.space.SelfMapped) (v : BitVec 32) :
    s.space.frameOf (elem (loopbackTbl (pgDirIdx v)) (pgTblIdx v)) =
      if present (s.space.pde v) then some (frame (s.space.pde v)) else none := by
  obtain ⟨hd, ht, -⟩ := loopbackTbl_indices v
  rw [h.frameOf_window hd, ht]
  rfl

theorem load_tbl (h : s.space.SelfMapped) {v : BitVec 32} (hp : present (s.space.pde v) = true) :
    s.load (elem (loopbackTbl (pgDirIdx v)) (pgTblIdx v)) = some (s.space.pte v) := by
  obtain ⟨-, -, hw⟩ := loopbackTbl_indices v
  rw [load, Space.load_eq ((frameOf_tbl h v).trans (if_pos hp)), hw]
  rfl

theorem store_tbl (h : s.space.SelfMapped) {v : BitVec 32} (hp : present (s.space.pde v) = true)
    (x : BitVec 32) : s.store (elem (loopbackTbl (pgDirIdx v)) (pgTblIdx v)) x =
      some (s.write (frame (s.space.pde v)) (tblIdx v) x) := by
  obtain ⟨-, -, hw⟩ := loopbackTbl_indices v
  rw [store_eq ((frameOf_tbl h v).trans (if_pos hp)), hw]

/-- `get_page_entry` faults on an address whose directory entry is absent. -/
theorem getPageEntry_eq (h : s.space.SelfMapped) (v : BitVec 32) :
    s.getPageEntry v = if present (s.space.pde v) then some (s.space.pte v) else none := by
  split
  · next hp => exact load_tbl h hp
  · next hp => rw [getPageEntry, load, Space.load, frameOf_tbl h, if_neg hp, Option.map_none]

theorem getPageMapping_eq (h : s.space.SelfMapped) (v : BitVec 32) :
    s.getPageMapping v = some ((s.space.frameOf v).elim 0#32 pageAddr) := by
  simp only [getPageMapping, load_dir h, getPageEntry_eq h, Option.bind_eq_bind,
    Option.bind_some, isPresent_eq, Space.frameOf]
  cases hd : present (s.space.pde v) with
  | false => simp
  | true =>
      cases ht : present (s.space.pte v) with
      | false => simp [ht]
      | true => simp [ht, and_addrMask]

theorem checkUser_eq (h : s.space.SelfMapped) (v : BitVec 32) :
    s.checkUser v = if present (s.space.pde v) then
      some (present (s.space.pte v) && s.space.pte v &&& pagingBitUser ≠ 0#32) else none := by
  simp only [checkUser, getPageEntry_eq h, isPresent_eq]
  split <;> rfl

theorem unmapPage_eq (h : s.space.SelfMapped) (v : BitVec 32) :
    s.unmapPage v = some (if present (s.space.pde v) then
      s.write (frame (s.space.pde v)) (tblIdx v) 0#32 else s) := by
  simp only [unmapPage, load_dir h, Option.bind_eq_bind, Option.bind_some, isPresent_eq]
  cases hp : present (s.space.pde v) with
  | false => rfl
  | true => simp [store_tbl h hp]

/-- The table entry that `map_page` leaves where it finds the entry `e`. -/
def mapEntry (e paddr : BitVec 32) : BitVec 32 :=
  if present e then setAddr e paddr else createPagingEntry paddr true true true

@[simp] theorem present_mapEntry (e paddr : BitVec 32) : present (mapEntry e paddr) = true := by
  unfold mapEntry
  split <;> simp_all

@[simp] theorem frame_mapEntry (e paddr : BitVec 32) :
    frame (mapEntry e paddr) = pageOf paddr := by
  unfold mapEntry
  split <;> simp

theorem modifyOrInsertPageStructure_eq (h : s.space.SelfMapped) {v : BitVec 32}
    (hp : present (s.space.pde v) = true) (paddr : BitVec 32) :
    s.modifyOrInsertPageStructure (loopbackTbl (pgDirIdx v)) v paddr true =
      some (present (s.space.pte v), s.write (frame (s.space.pde v)) (tblIdx v)
        (mapEntry (s.space.pte v) paddr)) := by
  simp only [modifyOrInsertPageStructure, load_tbl h hp, store_tbl h hp, Option.bind_eq_bind,
    Option.bind_some, isPresent_eq, mapEntry]
  cases present (s.space.pte v) <;> rfl

/-- With the page table in place, `map_page` writes one table entry. -/
theorem mapPage_of_present (h : s.space.SelfMapped) {v : BitVec 32}
    (hp : present (s.space.pde v) = true) (paddr : BitVec 32) :
    s.mapPage v paddr = some (s.write (frame (s.space.pde v)) (tblIdx v)
      (mapEntry (s.space.pte v) paddr)) := by
  simp only [mapPage, checkOrInsertTableStructure, load_dir h, Option.bind_eq_bind,
    Option.bind_some, isPresent_eq, hp, if_true, modifyOrInsertPageStructure_eq h hp]

end Vm

end Muse.Paging
