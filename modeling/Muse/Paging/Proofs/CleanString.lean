import Muse.Paging.Proofs.CleanData

/-!
# When a string is accepted

`clean_string` reads a page only after `check_user` has accepted it, and it stops at the last page
of the address space, which shows the page directory to the kernel only. So its bound `page +
PAGE_SIZE` never wraps. The result is the pointer it was given, which is not 0 for a string that
does not start at address 0.
-/

namespace Muse.Paging

open Muse.Library

/-! ## The page of the directory -/

/-- The last page shows the directory, so its table entry is the last directory entry. -/
theorem Vm.checkUser_lastPage {s : Vm} (h : s.space.SelfMapped) :
    s.checkUser (pageNo (2 ^ 20 - 1)) =
      some (decide (s.space.mem s.space.cr3 1023#10 &&& pagingBitUser ≠ 0#32)) := by
  have hd : dirIdx (pageNo (2 ^ 20 - 1)) = 1023#10 := by decide
  have ht : tblIdx (pageNo (2 ^ 20 - 1)) = 1023#10 := by decide
  rw [checkUser_eq h, h.pte_window hd, Space.pde, hd, ht, h.present]
  simp

/-- In a directory whose last entry is written as `create_task_directory` writes it, `check_user`
    rejects the last page. -/
theorem Vm.checkUser_lastPage_task {s : Vm}
    (h : s.space.mem s.space.cr3 1023#10 =
      createPagingEntry (pageAddr s.space.cr3) true true false) :
    s.checkUser (pageNo (2 ^ 20 - 1)) = some false := by
  have hself : s.space.SelfMapped := by
    refine ⟨?_, ?_⟩
    · rw [h]
      exact present_createPagingEntry ..
    · rw [h, frame_createPagingEntry, frame_pageAddr]
  rw [checkUser_lastPage hself, h, Option.some.injEq, decide_eq_false_iff_not, not_not]
  simp only [createPagingEntry, setUser]
  apply BitVec.eq_of_getLsbD_eq
  intro i hi
  simp only [Bool.false_eq_true, if_false, BitVec.getLsbD_and, BitVec.getLsbD_not]
  cases pagingBitUser.getLsbD i <;> simp

/-! ## The inner loop -/

variable {checkUser : BitVec 32 → Bool} {mem : BitVec 32 → BitVec 8}

/-- Page `k` has a zero byte from `str` on. -/
def ZeroOnPage (mem : BitVec 32 → BitVec 8) (k : Nat) (str : BitVec 32) : Prop :=
  ∃ z : BitVec 32, str.toNat ≤ z.toNat ∧ z.toNat < 4096 * (k + 1) ∧ mem z = 0#8

theorem ZeroOnPage.next_iff {k : Nat} {str : BitVec 32} (hz : mem str ≠ 0#8)
    (hnext : (str + 1#32).toNat = str.toNat + 1) :
    ZeroOnPage mem k (str + 1#32) ↔ ZeroOnPage mem k str := by
  constructor
  · rintro ⟨z, hsz, hzk, hmz⟩
    exact ⟨z, by omega, hzk, hmz⟩
  · rintro ⟨z, hsz, hzk, hmz⟩
    refine ⟨z, ?_, hzk, hmz⟩
    have hne : str ≠ z := by
      rintro rfl
      exact hz hmz
    have := BitVec.toNat_ne_iff_ne.mpr hne
    omega

/-- What the scan of page `k` returns: it has read inside the page, it has found a zero byte if
    there is one from `str` on, and it ends at the next page if not. -/
structure Scanned (mem : BitVec 32 → BitVec 8) (k : Nat) (str : BitVec 32)
    (reads : List (BitVec 32)) (found : Bool) (str' : BitVec 32) (reads' : List (BitVec 32)) :
    Prop where
  inside : ∀ x ∈ reads', x ∈ reads ∨ x.toNat / 4096 = k
  found_iff : found = true ↔ ZeroOnPage mem k str
  atNext : found = false → str' = pageNo (k + 1)

/-- The byte at `str` is read, and is not 0. -/
theorem Scanned.step {k : Nat} {str str' : BitVec 32} {reads reads' : List (BitVec 32)}
    {found : Bool} (h : Scanned mem k (str + 1#32) (str :: reads) found str' reads')
    (hstr : str.toNat / 4096 = k) (hz : mem str ≠ 0#8)
    (hnext : (str + 1#32).toNat = str.toNat + 1) : Scanned mem k str reads found str' reads' where
  inside := by
    intro x hx
    rcases h.inside x hx with hx' | hx'
    · rcases List.mem_cons.mp hx' with rfl | hx'
      · exact .inr hstr
      · exact .inl hx'
    · exact .inr hx'
  found_iff := h.found_iff.trans (ZeroOnPage.next_iff hz hnext)
  atNext := h.atNext

theorem cleanStringScan_spec (mem : BitVec 32 → BitVec 8) {k : Nat} (hk : k + 1 < 2 ^ 20) :
    ∀ (fuel : Nat) (str : BitVec 32) (reads : List (BitVec 32)), 4096 * k ≤ str.toNat →
      str.toNat ≤ 4096 * (k + 1) → 4096 * (k + 1) - str.toNat < fuel →
      ∃ found str' reads',
        cleanStringScan mem (pageNo (k + 1)) fuel str reads = some (found, str', reads') ∧
          Scanned mem k str reads found str' reads' := by
  have hbound : (pageNo (k + 1)).toNat = 4096 * (k + 1) := pageNo_toNat hk
  intro fuel
  induction fuel with
  | zero =>
      intro str reads _ _ hf
      omega
  | succ fuel ih =>
      intro str reads hlo hhi hf
      rw [cleanStringScan]
      split
      · next hlt =>
          rw [BitVec.lt_def, hbound] at hlt
          have hstr : str.toNat / 4096 = k := by omega
          split
          · next hz =>
              refine ⟨true, str, str :: reads, rfl, ⟨?_, ?_, nofun⟩⟩
              · intro x hx
                rcases List.mem_cons.mp hx with rfl | hx
                · exact .inr hstr
                · exact .inl hx
              · exact iff_of_true rfl ⟨str, Nat.le_refl _, hlt, hz⟩
          · next hz =>
              have hnext : (str + 1#32).toNat = str.toNat + 1 := by
                simp only [BitVec.toNat_add, BitVec.toNat_ofNat, Nat.reducePow, Nat.reduceMod]
                omega
              obtain ⟨found, str', reads', hrun, hscan⟩ :=
                ih (str + 1#32) (str :: reads) (by omega) (by omega) (by omega)
              exact ⟨found, str', reads', hrun, hscan.step hstr hz hnext⟩
      · next hge =>
          rw [BitVec.lt_def, hbound] at hge
          refine ⟨false, str, reads, rfl, ⟨fun x hx => .inl hx, ?_, fun _ => ?_⟩⟩
          · refine iff_of_false Bool.false_ne_true ?_
            rintro ⟨z, hsz, hzk, -⟩
            omega
          · apply BitVec.eq_of_toNat_eq
            omega

/-! ## The outer loop -/

/-- A string of readable pages from `str` on ends in a zero byte. -/
def Terminated (checkUser : BitVec 32 → Bool) (mem : BitVec 32 → BitVec 8) (str : BitVec 32) :
    Prop :=
  ∃ z : BitVec 32, str.toNat ≤ z.toNat ∧ mem z = 0#8 ∧
    ∀ k, str.toNat / 4096 ≤ k → k ≤ z.toNat / 4096 → checkUser (pageNo k) = true

/-- The next page of a string without a zero byte on this one. -/
theorem terminated_next {k : Nat} (hk : k + 1 < 2 ^ 20) {str : BitVec 32}
    (hstr : str.toNat / 4096 = k) (hu : checkUser (pageNo k) = true)
    (hnone : ¬ ZeroOnPage mem k str) :
    Terminated checkUser mem str ↔ Terminated checkUser mem (pageNo (k + 1)) := by
  have hnext : (pageNo (k + 1)).toNat = 4096 * (k + 1) := pageNo_toNat hk
  have hdiv : (pageNo (k + 1)).toNat / 4096 = k + 1 := by omega
  constructor
  · rintro ⟨z, hsz, hmz, hpages⟩
    refine ⟨z, ?_, hmz, fun j hj hjz => hpages j (by omega) hjz⟩
    rw [hnext]
    by_contra hlt
    exact hnone ⟨z, hsz, by omega, hmz⟩
  · rintro ⟨z, hsz, hmz, hpages⟩
    refine ⟨z, by omega, hmz, fun j hj hjz => ?_⟩
    rcases Nat.eq_or_lt_of_le hj with rfl | hlt
    · rw [hstr]
      exact hu
    · exact hpages j (by omega) hjz

theorem not_terminated {str : BitVec 32} (hu : checkUser (pageNo (str.toNat / 4096)) = false) :
    ¬ Terminated checkUser mem str := by
  rintro ⟨z, hsz, -, hpages⟩
  rw [hpages _ (Nat.le_refl _) (Nat.div_le_div_right hsz)] at hu
  cases hu

/-- From a page that `check_user` accepts, the loop returns, reads accepted pages only and decides
    whether the string ends. -/
theorem cleanStringLoop_spec (hlast : checkUser (pageNo (2 ^ 20 - 1)) = false) (strA : BitVec 32) :
    ∀ (fuel k : Nat) (str : BitVec 32) (reads : List (BitVec 32)), k < 2 ^ 20 → 2 ^ 20 - k ≤ fuel →
      str.toNat / 4096 = k → checkUser (pageNo k) = true →
      (∀ x ∈ reads, checkUser (alignPgDown x) = true) →
      ∃ r reads', cleanStringLoop (fun page => some (checkUser page)) mem strA fuel str (pageNo k)
          reads = some (r, reads') ∧
        (∀ x ∈ reads', checkUser (alignPgDown x) = true) ∧
        (Terminated checkUser mem str → r = strA) ∧
        (¬ Terminated checkUser mem str → r = 0#32) := by
  intro fuel
  induction fuel with
  | zero =>
      intro k str reads hk hf
      omega
  | succ fuel ih =>
      intro k str reads hk hf hstr hu hreads
      have hk' : k + 1 < 2 ^ 20 := by
        rcases Nat.lt_or_ge (k + 1) (2 ^ 20) with h | h
        · exact h
        · obtain rfl : k = 2 ^ 20 - 1 := by omega
          rw [hlast] at hu
          cases hu
      obtain ⟨found, str', reads', hscan, hinside, hfound, hend⟩ :=
        cleanStringScan_spec mem hk' (4096 + 1) str reads (by omega) (by omega) (by omega)
      have hreads' : ∀ x ∈ reads', checkUser (alignPgDown x) = true := by
        intro x hx
        rcases hinside x hx with hx | hx
        · exact hreads x hx
        · rw [alignPgDown_eq, hx]
          exact hu
      rw [cleanStringLoop, pageNo_succ, hscan, Option.bind_eq_bind, Option.bind_some]
      cases found with
      | true =>
          obtain ⟨z, hsz, hzk, hmz⟩ := hfound.mp rfl
          have hterm : Terminated checkUser mem str := by
            refine ⟨z, hsz, hmz, fun j hj hjz => ?_⟩
            obtain rfl : j = k := by omega
            exact hu
          exact ⟨strA, reads', rfl, hreads', fun _ => rfl, fun h => absurd hterm h⟩
      | false =>
          have hnone : ¬ ZeroOnPage mem k str := fun h => by cases hfound.mpr h
          have hnext := terminated_next hk' hstr hu hnone
          obtain rfl := hend rfl
          have hdiv : (pageNo (k + 1)).toNat / 4096 = k + 1 := by
            rw [pageNo_toNat hk']
            omega
          dsimp only
          rw [if_neg Bool.false_ne_true, hnext, Option.bind_eq_bind, Option.bind_some]
          cases hu' : checkUser (pageNo (k + 1)) with
          | true =>
              rw [if_pos rfl]
              exact ih (k + 1) _ reads' hk' (by omega) hdiv hu' hreads'
          | false =>
              have hnot : ¬ Terminated checkUser mem (pageNo (k + 1)) :=
                not_terminated (by rw [hdiv]; exact hu')
              rw [if_neg Bool.false_ne_true]
              exact ⟨0#32, reads', rfl, hreads', fun h => absurd h hnot, fun _ => rfl⟩

theorem cleanString_spec (checkUser : BitVec 32 → Bool) (mem : BitVec 32 → BitVec 8)
    (hlast : checkUser (pageNo (2 ^ 20 - 1)) = false) (str : BitVec 32) :
    ∃ r reads, cleanString (fun page => some (checkUser page)) mem str = some (r, reads) ∧
      (∀ x ∈ reads, checkUser (alignPgDown x) = true) ∧
      (Terminated checkUser mem str → r = str) ∧ (¬ Terminated checkUser mem str → r = 0#32) := by
  have hx := str.isLt
  rw [cleanString, alignPgDown_eq, Option.bind_eq_bind, Option.bind_some]
  cases hu : checkUser (pageNo (str.toNat / 4096)) with
  | true =>
      rw [if_pos rfl]
      exact cleanStringLoop_spec hlast str (2 ^ 20) (str.toNat / 4096) str [] (by omega) (by omega)
        rfl hu (by simp)
  | false =>
      rw [if_neg Bool.false_ne_true]
      exact ⟨0#32, [], rfl, by simp, fun h => absurd h (not_terminated hu), fun _ => rfl⟩

/-- `clean_string` returns, reads only pages that `check_user` accepts, and returns a pointer
    exactly for a string that is not at address 0 and ends before the first page that is not
    accepted. -/
theorem cleanString_correct (checkUser : BitVec 32 → Bool) (mem : BitVec 32 → BitVec 8)
    (str : BitVec 32) (hlast : checkUser 0xFFFFF000#32 = false) :
    ∃ r reads, cleanString (fun page => some (checkUser page)) mem str = some (r, reads) ∧
      (∀ x ∈ reads, checkUser (alignPgDown x) = true) ∧
      (r ≠ 0#32 ↔ str ≠ 0#32 ∧ Terminated checkUser mem str) := by
  obtain ⟨r, reads, hrun, hreads, hterm, hnot⟩ :=
    cleanString_spec checkUser mem hlast str
  refine ⟨r, reads, hrun, hreads, ?_⟩
  by_cases h : Terminated checkUser mem str
  · rw [hterm h]
    simp [h]
  · rw [hnot h]
    simp [h]

/-- A string that goes on on the next page, where a user page follows. -/
theorem cleanString_correct_twoPages :
    ∃ r reads, cleanString (fun page => some (page < 0x3000#32))
        (fun a => if a < 0x2001#32 then 97#8 else 0#8) 0x1FFE#32 = some (r, reads) ∧
      (∀ x ∈ reads, decide (alignPgDown x < 0x3000#32) = true) ∧ r ≠ 0#32 := by
  obtain ⟨r, reads, hrun, hreads, hiff⟩ := cleanString_correct (fun page => page < 0x3000#32)
    (fun a => if a < 0x2001#32 then 97#8 else 0#8) 0x1FFE#32 (by decide)
  refine ⟨r, reads, hrun, hreads, hiff.mpr ⟨by decide, 0x2001#32, by decide, by decide, ?_⟩⟩
  intro k hlo hhi
  have hpages : ∀ k < 3, decide (pageNo k < 0x3000#32) = true := by decide
  exact hpages k (Nat.lt_succ_of_le hhi)

/-! ## Where an accepted string ends -/

section Ends

variable {checkUser : BitVec 32 → Option Bool} {bound str str' strA r page : BitVec 32}
  {reads reads' : List (BitVec 32)} {found : Bool} {fuel : Nat}

theorem cleanStringScan_ends
    (h : cleanStringScan mem bound fuel str reads = some (found, str', reads')) :
    str.toNat ≤ str'.toNat ∧ (found = true → mem str' = 0#8) := by
  induction fuel generalizing str reads with
  | zero => cases h
  | succ fuel ih =>
      rw [cleanStringScan] at h
      split at h
      · next hlt =>
          split at h
          · next hz =>
              cases h
              exact ⟨Nat.le_refl _, fun _ => hz⟩
          · obtain ⟨hle, hz⟩ := ih h
            have hnext : (str + 1#32).toNat = str.toNat + 1 := by
              have := bound.isLt
              rw [BitVec.lt_def] at hlt
              rw [BitVec.toNat_add, BitVec.toNat_ofNat]
              omega
            exact ⟨by omega, hz⟩
      · cases h
        exact ⟨Nat.le_refl _, nofun⟩

theorem cleanStringLoop_ends
    (h : cleanStringLoop checkUser mem strA fuel str page reads = some (r, reads'))
    (hr : r ≠ 0#32) :
    ∃ z : BitVec 32, str.toNat ≤ z.toNat ∧ mem z = 0#8 := by
  induction fuel generalizing str page reads with
  | zero => cases h
  | succ fuel ih =>
      rw [cleanStringLoop] at h
      obtain ⟨⟨found, str', reads1⟩, hscan, h⟩ := Option.bind_eq_some_iff.mp h
      obtain ⟨hle, hz⟩ := cleanStringScan_ends hscan
      dsimp only at h
      split at h
      · next hfound => exact ⟨str', hle, hz hfound⟩
      · obtain ⟨ok, -, h⟩ := Option.bind_eq_some_iff.mp h
        split at h
        · obtain ⟨z, hle', hz'⟩ := ih h
          exact ⟨z, Nat.le_trans hle hle', hz'⟩
        · cases h
          exact absurd rfl hr

/-- A string that is accepted has a zero byte, whatever `check_user` is. -/
theorem cleanString_ends (h : cleanString checkUser mem str = some (r, reads)) (hr : r ≠ 0#32) :
    ∃ z : BitVec 32, str.toNat ≤ z.toNat ∧ mem z = 0#8 := by
  rw [cleanString] at h
  obtain ⟨ok, -, h⟩ := Option.bind_eq_some_iff.mp h
  split at h
  · exact cleanStringLoop_ends h hr
  · cases h
    exact absurd rfl hr

end Ends

/-- The empty string at address 0 of a page that `check_user` accepts: its pointer is the null
    pointer. -/
theorem cleanString_zero :
    ¬ ∀ (checkUser : BitVec 32 → Bool) (mem : BitVec 32 → BitVec 8) (str : BitVec 32),
      checkUser 0xFFFFF000#32 = false →
        ∃ r reads, cleanString (fun page => some (checkUser page)) mem str = some (r, reads) ∧
          (∀ x ∈ reads, checkUser (alignPgDown x) = true) ∧
          (r ≠ 0#32 ↔ Terminated checkUser mem str) := by
  intro h
  obtain ⟨r, reads, hrun, -, hiff⟩ := h (fun page => page = 0#32) (fun _ => 0#8) 0#32 (by decide)
  have hterm : Terminated (fun page => page = 0#32) (fun _ => 0#8) 0#32 := by
    refine ⟨0#32, Nat.le_refl _, rfl, fun k _ hk => ?_⟩
    obtain rfl : k = 0 := by simpa using hk
    rfl
  obtain ⟨r', reads', hrun', -, hr', -⟩ := cleanString_spec
    (fun page => page = 0#32) (fun _ => 0#8) (by decide) 0#32
  obtain ⟨rfl, -⟩ : r = r' ∧ reads = reads' := by simpa using hrun.symm.trans hrun'
  exact hiff.mpr hterm (hr' hterm)

end Muse.Paging
