import Muse.Paging.Proofs.Window
import Muse.Paging.Userspace

/-!
# When a buffer is accepted

`clean_data` is exact on buffers that end at or below the last page: it accepts the buffer
if and only if every page of it is accessible to the user, as long as the first page that
is not has a page table to look it up in. Above that the upper bound of the loop wraps, and
the loop checks nothing, or one page.
-/

namespace Muse.Paging

open Muse.Library

/-- The address of page `k`. -/
def pageNo (k : Nat) : BitVec 32 := BitVec.ofNat 32 (4096 * k)

theorem alignPgDown_eq (x : BitVec 32) : alignPgDown x = pageNo (x.toNat / 4096) := by
  have hx := x.isLt
  apply BitVec.eq_of_toNat_eq
  simp only [alignPgDown, pageSize, pageNo, BitVec.toNat_sub, BitVec.toNat_umod,
    BitVec.toNat_ofNat, Nat.reducePow, Nat.reduceMod]
  omega

theorem alignPgUp_eq (x : BitVec 32) : alignPgUp x = pageNo ((x.toNat + 4095) / 4096) := by
  have hx := x.isLt
  unfold alignPgUp
  split
  · next h =>
      simp only [BitVec.lt_def, pageSize, BitVec.toNat_umod, BitVec.toNat_ofNat, Nat.reducePow,
        Nat.reduceMod] at h
      rw [alignPgDown_eq]
      apply BitVec.eq_of_toNat_eq
      simp only [pageNo, pageSize, BitVec.toNat_add, BitVec.toNat_ofNat]
      omega
  · next h =>
      simp only [BitVec.lt_def, pageSize, BitVec.toNat_umod, BitVec.toNat_ofNat, Nat.reducePow,
        Nat.reduceMod] at h
      apply BitVec.eq_of_toNat_eq
      simp only [pageNo, BitVec.toNat_ofNat]
      omega

theorem pageNo_toNat {k : Nat} (hk : k < 2 ^ 20) : (pageNo k).toNat = 4096 * k := by
  simp only [pageNo, BitVec.toNat_ofNat]
  omega

theorem pageNo_succ (k : Nat) : pageNo k + pageSize = pageNo (k + 1) := by
  apply BitVec.eq_of_toNat_eq
  simp only [pageNo, pageSize, BitVec.toNat_add, BitVec.toNat_ofNat]
  omega

theorem pageNo_lt_iff {a b : Nat} (ha : a < 2 ^ 20) (hb : b < 2 ^ 20) :
    pageNo a < pageNo b ↔ a < b := by
  rw [BitVec.lt_def, pageNo_toNat ha, pageNo_toNat hb]
  omega

namespace Vm

variable {s : Vm}

/-- `check_user` looks at the page of the address only. -/
theorem checkUser_congr (h : s.space.SelfMapped) {v w : BitVec 32} (hp : pageOf v = pageOf w) :
    s.checkUser v = s.checkUser w := by
  obtain ⟨hd, ht⟩ := pageOf_eq_iff.mp hp
  rw [checkUser_eq h, checkUser_eq h, Space.pte, Space.pte, Space.pde, Space.pde, hd, ht]

/-- The pages from `a` up to `b` are accessible to the user. -/
def UserPages (s : Vm) (a b : Nat) : Prop :=
  ∀ k, a ≤ k → k < b → s.checkUser (pageNo k) = some true

theorem UserPages.succ {a b : Nat} (hu : s.UserPages a b) : s.UserPages (a + 1) b :=
  fun k hak hkb => hu k (by omega) hkb

theorem UserPages.cons {a b : Nat} (ha : s.checkUser (pageNo a) = some true)
    (hu : s.UserPages (a + 1) b) : s.UserPages a b := by
  intro k hak hkb
  rcases Nat.eq_or_lt_of_le hak with rfl | hlt
  · exact ha
  · exact hu k hlt hkb

/-! ## The loop -/

theorem cleanDataLoop_done {a b : Nat} (ha : a < 2 ^ 20) (hb : b < 2 ^ 20) (hab : b ≤ a)
    {fuel : Nat} (hf : 0 < fuel) : s.cleanDataLoop (pageNo b) fuel (pageNo a) = some true := by
  obtain ⟨fuel, rfl⟩ : ∃ n, fuel = n + 1 := ⟨fuel - 1, by omega⟩
  have hlt : ¬ pageNo a < pageNo b := by
    rw [pageNo_lt_iff ha hb]
    omega
  rw [cleanDataLoop, if_neg hlt]

theorem cleanDataLoop_round {a b : Nat} (ha : a < 2 ^ 20) (hb : b < 2 ^ 20) (hab : a < b)
    (fuel : Nat) (hu : s.checkUser (pageNo a) = some true) :
    s.cleanDataLoop (pageNo b) (fuel + 1) (pageNo a) =
      s.cleanDataLoop (pageNo b) fuel (pageNo (a + 1)) := by
  rw [cleanDataLoop, if_pos ((pageNo_lt_iff ha hb).mpr hab), hu, pageNo_succ]
  rfl

/-- The loop runs to its end over pages that are accessible to the user. -/
theorem cleanDataLoop_accept {b : Nat} (hb : b < 2 ^ 20) :
    ∀ (fuel a : Nat), a ≤ b → b - a < fuel → s.UserPages a b →
      s.cleanDataLoop (pageNo b) fuel (pageNo a) = some true
  | 0, a, _, hf, _ => by omega
  | fuel + 1, a, hab, hf, hu => by
      rcases Nat.eq_or_lt_of_le hab with rfl | hlt
      · exact cleanDataLoop_done hb hb (Nat.le_refl _) (by omega)
      · rw [cleanDataLoop_round (by omega) hb hlt fuel (hu a (Nat.le_refl _) hlt)]
        exact cleanDataLoop_accept hb fuel (a + 1) hlt (by omega) hu.succ

/-- The loop stops at the first page that is not, with what `check_user` says there. -/
theorem cleanDataLoop_reject {b c : Nat} (hb : b < 2 ^ 20) (hcb : c < b)
    (hc : s.checkUser (pageNo c) ≠ some true) :
    ∀ (fuel a : Nat), a ≤ c → c - a < fuel → s.UserPages a c →
      s.cleanDataLoop (pageNo b) fuel (pageNo a) = s.checkUser (pageNo c)
  | 0, a, _, hf, _ => by omega
  | fuel + 1, a, hac, hf, hu => by
      rcases Nat.eq_or_lt_of_le hac with rfl | hlt
      · rw [cleanDataLoop, if_pos ((pageNo_lt_iff (by omega) hb).mpr hcb)]
        cases hr : s.checkUser (pageNo a) with
        | none => rfl
        | some ok =>
            cases ok with
            | false => rfl
            | true => exact absurd hr hc
      · rw [cleanDataLoop_round (by omega) hb (by omega) fuel (hu a (Nat.le_refl _) hlt)]
        exact cleanDataLoop_reject hb hcb hc fuel (a + 1) hlt (by omega) hu.succ

/-- Either all pages are accessible or there is a first one that is not. -/
theorem userPages_or_first (s : Vm) {a b : Nat} (hab : a ≤ b) :
    s.UserPages a b ∨
      ∃ c, a ≤ c ∧ c < b ∧ s.UserPages a c ∧ s.checkUser (pageNo c) ≠ some true := by
  induction b, hab using Nat.le_induction with
  | base => exact .inl fun k hak hka => by omega
  | succ b hab ih =>
      rcases ih with hall | ⟨c, hac, hcb, hu, hc⟩
      · by_cases hb : s.checkUser (pageNo b) = some true
        · refine .inl fun k hak hkb => ?_
          rcases Nat.eq_or_lt_of_le (Nat.le_of_lt_succ hkb) with rfl | hlt
          · exact hb
          · exact hall k hak hlt
        · exact .inr ⟨b, hab, Nat.lt_succ_self b, hall, hb⟩
      · exact .inr ⟨c, hac, by omega, hu, hc⟩

/-! ## The verdict -/

/-- Every address of the buffer is on a page that is accessible to the user. -/
def UserBuffer (s : Vm) (data size : BitVec 32) : Prop :=
  ∀ a, data.toNat ≤ a → a < data.toNat + size.toNat →
    s.checkUser (BitVec.ofNat 32 a) = some true

/-- What `clean_data` is for: it returns, and it accepts a non-empty buffer exactly when the
    buffer does not run over the end of memory and all of it is accessible to the user. -/
def CleanDataCorrect (s : Vm) (data size : BitVec 32) : Prop :=
  ∃ r, s.cleanData data size = some r ∧ (size ≠ 0#32 →
    (r ≠ 0#32 ↔ data.toNat + size.toNat ≤ 2 ^ 32 ∧ s.UserBuffer data size))

/-- The first page of a buffer. -/
def firstPage (data : BitVec 32) : Nat := data.toNat / 4096

/-- The page behind a buffer. -/
def limitPage (data size : BitVec 32) : Nat := (data.toNat + size.toNat + 4095) / 4096

/-- The inputs on which `clean_data` does that. A buffer that ends at or below the last page
    is either accessible and not at address 0, or the first page of it that is not
    accessible has a page table. A buffer that ends on the last page is accepted unchecked.
    Of a buffer that runs over the end of memory at most the first page is checked. -/
def CleanDataExact (s : Vm) (data size : BitVec 32) : Prop :=
  let e := data.toNat + size.toNat
  let a := firstPage data
  let b := limitPage data size
  (e ≤ 0xFFFFF000 ∧ (s.UserPages a b ∧ (size = 0#32 ∨ data ≠ 0#32) ∨
    ∃ c, a ≤ c ∧ c < b ∧ s.UserPages a c ∧ s.checkUser (pageNo c) = some false)) ∨
  (0xFFFFF000 < e ∧ e ≤ 2 ^ 32 ∧ (size = 0#32 ∨ (data ≠ 0#32 ↔ s.UserPages a b))) ∨
  (2 ^ 32 < e ∧ 4096 * a < e - 2 ^ 32 ∧ a + 1 < 2 ^ 20 ∧ s.checkUser (pageNo a) = some false)

theorem pageOf_pageNo {x k : Nat} (hx : x < 2 ^ 32) (hk : x / 4096 = k) :
    pageOf (BitVec.ofNat 32 x) = pageOf (pageNo k) := by
  apply BitVec.eq_of_toNat_eq
  simp only [pageOf_toNat, pageNo, BitVec.toNat_ofNat]
  omega

/-- The addresses of a buffer lie on the pages from its first one to its last one. -/
theorem userBuffer_iff (h : s.space.SelfMapped) {data size : BitVec 32} (hsize : size ≠ 0#32)
    (he : data.toNat + size.toNat ≤ 2 ^ 32) :
    s.UserBuffer data size ↔ s.UserPages (firstPage data) (limitPage data size) := by
  have hpos : 0 < size.toNat := by
    have : size.toNat ≠ 0 := fun h0 => hsize (BitVec.eq_of_toNat_eq (by simpa using h0))
    omega
  constructor
  · intro hu k hak hkb
    simp only [firstPage, limitPage] at hak hkb
    have hmax : max data.toNat (4096 * k) < data.toNat + size.toNat := by omega
    rw [← checkUser_congr h (pageOf_pageNo (x := max data.toNat (4096 * k)) (by omega)
      (by omega))]
    exact hu _ (by omega) hmax
  · intro hu x hdx hxe
    rw [checkUser_congr h (pageOf_pageNo (by omega) rfl)]
    exact hu _ (by simp only [firstPage]; omega) (by simp only [limitPage]; omega)

theorem cleanData_eq (data size : BitVec 32) :
    s.cleanData data size = (s.cleanDataLoop (pageNo (((data + size).toNat + 4095) / 4096))
      (2 ^ 20 + 1) (pageNo (firstPage data))).map fun ok => if ok then data else 0#32 := by
  rw [cleanData, alignPgUp_eq, alignPgDown_eq, firstPage]
  cases s.cleanDataLoop _ _ _ <;> rfl

theorem cleanDataCorrect_low (h : s.space.SelfMapped) {data size : BitVec 32}
    (he : data.toNat + size.toNat ≤ 0xFFFFF000) :
    s.CleanDataCorrect data size ↔
      (s.UserPages (firstPage data) (limitPage data size) ∧ (size = 0#32 ∨ data ≠ 0#32) ∨
        ∃ c, firstPage data ≤ c ∧ c < limitPage data size ∧ s.UserPages (firstPage data) c ∧
          s.checkUser (pageNo c) = some false) := by
  have hlimit : ((data + size).toNat + 4095) / 4096 = limitPage data size := by
    rw [limitPage, BitVec.toNat_add, Nat.mod_eq_of_lt (by omega)]
  have hb : limitPage data size < 2 ^ 20 := by
    simp only [limitPage]
    omega
  have hab : firstPage data ≤ limitPage data size := by
    simp only [firstPage, limitPage]
    omega
  have hle : data.toNat + size.toNat ≤ 2 ^ 32 := by omega
  rcases userPages_or_first s hab with hall | ⟨c, hac, hcb, hu, hc⟩
  · -- every page is checked and accepted
    have hr : s.cleanData data size = some data := by
      rw [cleanData_eq, hlimit, cleanDataLoop_accept hb _ _ hab (by omega) hall]
      rfl
    have hno : ¬ ∃ c, firstPage data ≤ c ∧ c < limitPage data size ∧
        s.UserPages (firstPage data) c ∧ s.checkUser (pageNo c) = some false := by
      rintro ⟨c, hac, hcb, -, hc⟩
      rw [hall c hac hcb] at hc
      cases hc
    simp only [CleanDataCorrect, hr, Option.some.injEq, exists_eq_left', hall, hno, true_and,
      or_false, hle]
    by_cases hsize : size = 0#32
    · simp [hsize]
    · simp [hsize, userBuffer_iff h hsize hle, hall]
  · -- the loop ends at page `c`
    have hloop : s.cleanData data size =
        (s.checkUser (pageNo c)).map fun ok => if ok then data else 0#32 := by
      rw [cleanData_eq, hlimit, cleanDataLoop_reject hb hcb hc _ _ hac (by omega) hu]
    have hnot : ¬ s.UserPages (firstPage data) (limitPage data size) := fun hall =>
      hc (hall c hac hcb)
    simp only [hnot, false_and, false_or]
    constructor
    · rintro ⟨r, hr, -⟩
      refine ⟨c, hac, hcb, hu, ?_⟩
      rw [hloop] at hr
      obtain ⟨ok, hok, -⟩ := Option.map_eq_some_iff.mp hr
      cases ok with
      | false => exact hok
      | true => exact absurd hok hc
    · rintro ⟨c', hac', hcb', hu', hc'⟩
      -- both pages are the first one that is not accessible
      obtain rfl : c' = c := by
        rcases Nat.lt_trichotomy c' c with hlt | heq | hgt
        · rw [hu c' hac' hlt] at hc'
          cases hc'
        · exact heq
        · exact absurd (hu' c hac hgt) hc
      refine ⟨0#32, by rw [hloop, hc']; rfl, fun hsize => ?_⟩
      simp [userBuffer_iff h hsize hle, hnot]

theorem cleanDataCorrect_top (h : s.space.SelfMapped) {data size : BitVec 32}
    (he : 0xFFFFF000 < data.toNat + size.toNat) (he' : data.toNat + size.toNat ≤ 2 ^ 32) :
    s.CleanDataCorrect data size ↔
      (size = 0#32 ∨ (data ≠ 0#32 ↔ s.UserPages (firstPage data) (limitPage data size))) := by
  have hlimit : pageNo (((data + size).toNat + 4095) / 4096) = pageNo 0 := by
    apply BitVec.eq_of_toNat_eq
    simp only [pageNo, BitVec.toNat_ofNat, BitVec.toNat_add]
    omega
  have hr : s.cleanData data size = some data := by
    rw [cleanData_eq, hlimit, cleanDataLoop_done (by simp only [firstPage]; omega)
      (by decide) (Nat.zero_le _) (by decide)]
    rfl
  simp only [CleanDataCorrect, hr, Option.some.injEq, exists_eq_left']
  by_cases hsize : size = 0#32
  · simp [hsize]
  · simp only [hsize, ne_eq, not_false_eq_true, true_implies, he', true_and, false_or,
      userBuffer_iff h hsize he']

theorem cleanDataCorrect_wrap {data size : BitVec 32}
    (he : 2 ^ 32 < data.toNat + size.toNat) :
    s.CleanDataCorrect data size ↔
      4096 * firstPage data < data.toNat + size.toNat - 2 ^ 32 ∧ firstPage data + 1 < 2 ^ 20 ∧
        s.checkUser (pageNo (firstPage data)) = some false := by
  have hd := data.isLt
  have hs := size.isLt
  have hsize : size ≠ 0#32 := by
    rintro rfl
    simp only [BitVec.toNat_ofNat] at he
    omega
  have hdata : data ≠ 0#32 := by
    rintro rfl
    simp only [BitVec.toNat_ofNat] at he
    omega
  have hx : (data + size).toNat = data.toNat + size.toNat - 2 ^ 32 := by
    rw [BitVec.toNat_add]
    omega
  have ha : firstPage data < 2 ^ 20 := by
    simp only [firstPage]
    omega
  -- a buffer that wraps must be refused
  have hcorrect : s.CleanDataCorrect data size ↔ s.cleanData data size = some 0#32 := by
    have hnot : ¬ data.toNat + size.toNat ≤ 2 ^ 32 := by omega
    simp only [CleanDataCorrect, ne_eq, hsize, not_false_eq_true, hnot, false_and, iff_false,
      Decidable.not_not, true_implies]
    constructor
    · rintro ⟨r, hr, rfl⟩
      exact hr
    · exact fun hr => ⟨_, hr, rfl⟩
  by_cases hin : 4096 * firstPage data < data.toNat + size.toNat - 2 ^ 32 ∧
      firstPage data + 1 < 2 ^ 20
  · -- the end wraps into the first page: that page is checked
    have hlimit : ((data + size).toNat + 4095) / 4096 = firstPage data + 1 := by
      rw [hx]
      simp only [firstPage] at hin ⊢
      omega
    rw [hcorrect, cleanData_eq, hlimit]
    simp only [hin.1, hin.2, true_and]
    by_cases hu : s.checkUser (pageNo (firstPage data)) = some true
    · have hall : s.UserPages (firstPage data) (firstPage data + 1) := by
        intro k hak hkb
        obtain rfl : k = firstPage data := by omega
        exact hu
      rw [cleanDataLoop_accept hin.2 _ _ (by omega) (by omega) hall]
      simp [hu, hdata]
    · rw [cleanDataLoop_reject hin.2 (Nat.lt_succ_self _) hu _ _ (Nat.le_refl _) (by omega)
        fun k hak hkb => by omega]
      cases hc : s.checkUser (pageNo (firstPage data)) with
      | none => simp
      | some ok => cases ok <;> simp_all
  · -- otherwise nothing is checked
    have hr : s.cleanData data size = some data := by
      have hlimit : ∃ b, pageNo (((data + size).toNat + 4095) / 4096) = pageNo b ∧
          b < 2 ^ 20 ∧ b ≤ firstPage data := by
        by_cases hb : ((data + size).toNat + 4095) / 4096 < 2 ^ 20
        · refine ⟨_, rfl, hb, ?_⟩
          simp only [firstPage] at hin ⊢
          omega
        · refine ⟨0, ?_, by decide, Nat.zero_le _⟩
          apply BitVec.eq_of_toNat_eq
          simp only [pageNo, BitVec.toNat_ofNat]
          omega
      obtain ⟨b, hb, hb20, hba⟩ := hlimit
      rw [cleanData_eq, hb, cleanDataLoop_done ha hb20 hba (by decide)]
      rfl
    rw [hcorrect, hr]
    constructor
    · intro h0
      exact absurd (Option.some.inj h0) hdata
    · rintro ⟨h1, h2, -⟩
      exact absurd ⟨h1, h2⟩ hin

/-- `clean_data` does what it is for on exactly the inputs `CleanDataExact` names. -/
theorem cleanData_correct_iff (s : Vm) (h : s.space.SelfMapped) (data size : BitVec 32) :
    s.CleanDataCorrect data size ↔ s.CleanDataExact data size := by
  unfold CleanDataExact
  rcases Nat.lt_or_ge 0xFFFFF000 (data.toNat + size.toNat) with htop | hlow
  · rcases Nat.lt_or_ge (2 ^ 32) (data.toNat + size.toNat) with hwrap | hle
    · have h1 : ¬ data.toNat + size.toNat ≤ 0xFFFFF000 := by omega
      have h2 : ¬ data.toNat + size.toNat ≤ 2 ^ 32 := by omega
      simp only [cleanDataCorrect_wrap hwrap, h1, h2, hwrap, false_and, and_false, false_or,
        true_and]
    · have h1 : ¬ data.toNat + size.toNat ≤ 0xFFFFF000 := by omega
      have h2 : ¬ 2 ^ 32 < data.toNat + size.toNat := by omega
      simp only [cleanDataCorrect_top h htop hle, h1, h2, htop, hle, false_and, false_or,
        or_false, true_and]
  · have h1 : ¬ 0xFFFFF000 < data.toNat + size.toNat := by omega
    have h2 : ¬ 2 ^ 32 < data.toNat + size.toNat := by omega
    simp only [cleanDataCorrect_low h hlow, h1, h2, hlow, false_and, or_false, true_and]

/-- An address space with one table: the directory in frame 1 is self-mapped without the user bit,
    and its entry 0 names the table in frame 2, where page 1 is a user page. -/
def oneTable : Vm where
  space := {
    mem := fun f k =>
      if f = 1#20 ∧ k = 1023#10 then 0x1003#32
      else if f = 1#20 ∧ k = 0#10 then 0x2007#32
      else if f = 2#20 ∧ k = 1#10 then 0x5007#32
      else 0#32
    cr3 := 1#20 }
  freePages := []
  pageHeap := ⟨fun _ => 0#32, 0, 0#32⟩

theorem oneTable_selfMapped : oneTable.space.SelfMapped := ⟨by decide, by decide⟩

/-- A buffer on the user page is accepted, and one that runs on to the page behind it is
    refused. -/
theorem cleanData_correct_page_end :
    oneTable.CleanDataCorrect 0x1800#32 0x800#32 ∧
      oneTable.CleanDataCorrect 0x1800#32 0x801#32 ∧
      oneTable.cleanData 0x1800#32 0x800#32 = some 0x1800#32 ∧
      oneTable.cleanData 0x1800#32 0x801#32 = some 0#32 := by
  refine ⟨(cleanData_correct_iff _ oneTable_selfMapped _ _).mpr
    (.inl ⟨by decide, .inl ⟨?_, by decide⟩⟩), (cleanData_correct_iff _ oneTable_selfMapped _ _).mpr
    (.inl ⟨by decide, .inr ⟨2, by decide,
      by decide, ?_, by decide⟩⟩), by decide +kernel, by decide +kernel⟩
  all_goals
    intro k hk hk'
    obtain rfl : k = 1 := by
      simp only [firstPage, limitPage, BitVec.toNat_ofNat] at hk hk'
      omega
    decide

/-- The upper half of the address space as a buffer: its end wraps to 0, and the pointer to
    kernel memory is accepted although its directory entry is absent. -/
theorem cleanData_accepts_kernel : ¬ ∀ (s : Vm) (data size : BitVec 32), s.space.SelfMapped →
    s.CleanDataCorrect data size := by
  intro hall
  obtain ⟨r, hr, hiff⟩ := hall oneTable 0x80000000#32 0x80000000#32 oneTable_selfMapped
  have hdata : oneTable.cleanData 0x80000000#32 0x80000000#32 = some 0x80000000#32 := by
    decide +kernel
  obtain rfl : 0x80000000#32 = r := Option.some.inj (hdata.symm.trans hr)
  have huser := ((hiff (by decide)).mp (by decide)).2 0x80000000 (by decide) (by decide)
  have hfault : oneTable.checkUser (BitVec.ofNat 32 0x80000000) = none := by decide
  rw [hfault] at huser
  cases huser

end Vm

end Muse.Paging
