import Muse.Libc.String
import Muse.Library.Fuel

/-!
# String comparison

The sign of what the comparing functions return is the lexicographic order of unsigned bytes, for
`memcmp` and `strncmp` on all inputs. The loop of `strcmp` does not move on: it ends if the first
characters differ or the first string is empty, and otherwise it never ends.
-/

namespace Muse.Libc

open Library

/-- The sign of `r` is the order of the two rows of bytes. -/
structure Compares (r : BitVec 32) (xs ys : List (BitVec 8)) : Prop where
  neg : r.toInt < 0 ↔ xs < ys
  zero : r.toInt = 0 ↔ xs = ys
  pos : 0 < r.toInt ↔ ys < xs

namespace Compares

variable {r : BitVec 32} {x y : BitVec 8} {xs ys : List (BitVec 8)}

theorem refl (xs : List (BitVec 8)) : Compares 0#32 xs xs where
  neg := iff_of_false (by decide) (List.lt_irrefl xs)
  zero := iff_of_true (by decide) rfl
  pos := iff_of_false (by decide) (List.lt_irrefl xs)

theorem cons (h : Compares r xs ys) (x : BitVec 8) : Compares r (x :: xs) (x :: ys) where
  neg := by rw [h.neg, List.cons_lt_cons_self]
  zero := by rw [h.zero, List.cons_inj_right]
  pos := by rw [h.pos, List.cons_lt_cons_self]

theorem byteDiff_toInt (x y : BitVec 8) : (byteDiff x y).toInt = x.toNat - y.toNat := by
  have := x.isLt
  have := y.isLt
  rw [byteDiff, BitVec.toInt_sub, BitVec.toInt_eq_toNat_of_lt, BitVec.toInt_eq_toNat_of_lt,
    BitVec.toNat_setWidth_of_le (by decide), BitVec.toNat_setWidth_of_le (by decide)]
  · rw [Int.bmod_def]
    split <;> omega
  · rw [BitVec.toNat_setWidth_of_le (by decide)]
    omega
  · rw [BitVec.toNat_setWidth_of_le (by decide)]
    omega

/-- The first difference decides. -/
theorem byteDiff_cons (h : x ≠ y) (xs ys : List (BitVec 8)) :
    Compares (byteDiff x y) (x :: xs) (y :: ys) := by
  have hne : x.toNat ≠ y.toNat := fun heq => h (BitVec.eq_of_toNat_eq heq)
  constructor
  · rw [byteDiff_toInt, List.cons_lt_cons_iff, BitVec.lt_def]
    simp only [h, false_and, or_false]
    omega
  · rw [byteDiff_toInt, List.cons.injEq]
    simp only [h, false_and, iff_false]
    omega
  · rw [byteDiff_toInt, List.cons_lt_cons_iff, BitVec.lt_def]
    simp only [Ne.symm h, false_and, or_false]
    omega

/-- A string that ends is before one that goes on. -/
theorem byteDiff_nil_left (h : y ≠ 0#8) (ys : List (BitVec 8)) :
    Compares (byteDiff 0#8 y) [] (y :: ys) := by
  have hne : y.toNat ≠ 0 := fun heq => h (BitVec.eq_of_toNat_eq heq)
  constructor
  · rw [byteDiff_toInt]
    simp only [List.nil_lt_cons, iff_true, BitVec.toNat_ofNat]
    omega
  · rw [byteDiff_toInt]
    simp only [List.nil_eq, reduceCtorEq, iff_false, BitVec.toNat_ofNat]
    omega
  · rw [byteDiff_toInt]
    simp only [List.not_lt_nil, iff_false, BitVec.toNat_ofNat]
    omega

theorem byteDiff_nil_right (h : x ≠ 0#8) (xs : List (BitVec 8)) :
    Compares (byteDiff x 0#8) (x :: xs) [] := by
  have hne : x.toNat ≠ 0 := fun heq => h (BitVec.eq_of_toNat_eq heq)
  constructor
  · rw [byteDiff_toInt]
    simp only [List.not_lt_nil, iff_false, BitVec.toNat_ofNat]
    omega
  · rw [byteDiff_toInt]
    simp only [reduceCtorEq, iff_false, BitVec.toNat_ofNat]
    omega
  · rw [byteDiff_toInt]
    simp only [List.nil_lt_cons, iff_true, BitVec.toNat_ofNat]
    omega

/-- Strings whose first bytes differ. -/
theorem of_first_ne {mem : ByteMem} {s1 s2 : BitVec 32} (h1 : CStringAt mem s1 xs)
    (h2 : CStringAt mem s2 ys) (h : mem s1 ≠ mem s2) (m : Nat) :
    Compares (byteDiff (mem s1) (mem s2)) (xs.take (m + 1)) (ys.take (m + 1)) := by
  cases xs with
  | nil =>
    cases ys with
    | nil => exact absurd (h1.nil_byte.trans h2.nil_byte.symm) h
    | cons y ys =>
      rw [h1.nil_byte, h2.cons_byte]
      exact byteDiff_nil_left h2.cons_ne _
  | cons x xs =>
    cases ys with
    | nil =>
      rw [h1.cons_byte, h2.nil_byte]
      exact byteDiff_nil_right h1.cons_ne _
    | cons y ys =>
      rw [h1.cons_byte, h2.cons_byte] at h ⊢
      exact byteDiff_cons h _ _

/-- Two results for the same rows have the same sign. -/
theorem sameSign {r' : BitVec 32} (h : Compares r xs ys) (h' : Compares r' xs ys) :
    (r.toInt < 0 ↔ r'.toInt < 0) ∧ (r.toInt = 0 ↔ r'.toInt = 0) :=
  ⟨h.neg.trans h'.neg.symm, h.zero.trans h'.zero.symm⟩

end Compares

/-- One of the bytes at `s1` or `s2` below `limit`, up to the first one behind which the comparison
    does not go on. -/
def ReadBefore (s1 s2 : BitVec 32) (limit : Nat) (goesOn : Nat → Prop) (q : BitVec 32) : Prop :=
  ∃ i < limit, (q = s1 + BitVec.ofNat 32 i ∨ q = s2 + BitVec.ofNat 32 i) ∧ ∀ j < i, goesOn j

/-- The bytes with the index `i` are the same. -/
def SameByte (mem : ByteMem) (s1 s2 : BitVec 32) (i : Nat) : Prop :=
  mem (s1 + BitVec.ofNat 32 i) = mem (s2 + BitVec.ofNat 32 i)

/-- The characters with the index `i` are the same, and no terminators. -/
def SameChar (mem : ByteMem) (s1 s2 : BitVec 32) (i : Nat) : Prop :=
  SameByte mem s1 s2 i ∧ mem (s1 + BitVec.ofNat 32 i) ≠ 0#8

section Reads

variable {s1 s2 : BitVec 32} {limit i : Nat} {goesOn : Nat → Prop} {a : Access}

/-- Both bytes with the index `i` are read. -/
theorem ReadBefore.both (ha : a.ReadsIn (ReadBefore s1 s2 limit goesOn)) (hi : i < limit)
    (hgo : ∀ j < i, goesOn j) :
    ((a.read (s1 + BitVec.ofNat 32 i)).read (s2 + BitVec.ofNat 32 i)).ReadsIn
      (ReadBefore s1 s2 limit goesOn) :=
  (ha.read ⟨i, hi, .inl rfl, hgo⟩).read ⟨i, hi, .inr rfl, hgo⟩

theorem forall_lt_succ {p : Nat → Prop} (h : ∀ j < i, p j) (hi : p i) : ∀ j < i + 1, p j := by
  intro j hj
  rcases Nat.lt_succ_iff_lt_or_eq.mp hj with hlt | rfl
  · exact h j hlt
  · exact hi

end Reads

/-- The call returns the order of the two rows, and has read nothing outside `S`. -/
def CallCompares (call : Nat → Option (BitVec 32 × Access)) (xs ys : List (BitVec 8))
    (S : BitVec 32 → Prop) : Prop :=
  ∃ r b, Returns call (r, b) ∧ Compares r xs ys ∧ b.ReadsIn S

section Loops

variable {mem : ByteMem} {s1 s2 n : BitVec 32} {a : Access} {j m : Nat}

theorem memcmpLoop_compares (hn : j + m = n.toNat) (ha : a.mem = mem)
    (hreads : a.ReadsIn (ReadBefore s1 s2 n.toNat (SameByte mem s1 s2)))
    (hsame : ∀ i < j, SameByte mem s1 s2 i) :
    ∃ r b, (∀ fuel, m < fuel → memcmpLoop s1 s2 n fuel (BitVec.ofNat 32 j) a = some (r, b)) ∧
      Compares r (bytesAt mem (s1 + BitVec.ofNat 32 j) m)
        (bytesAt mem (s2 + BitVec.ofNat 32 j) m) ∧
      b.ReadsIn (ReadBefore s1 s2 n.toNat (SameByte mem s1 s2)) := by
  have hlt : n.toNat < 2 ^ 32 := n.isLt
  induction m generalizing j a with
  | zero =>
    refine ⟨0#32, a, fuel_stop (fun fuel => ?_) 0, Compares.refl _, hreads⟩
    rw [memcmpLoop, if_neg]
    rw [ofNat_lt_iff (by omega)]
    omega
  | succ m ih =>
    have hj : BitVec.ofNat 32 j < n := (ofNat_lt_iff (by omega)).mpr (by omega)
    have hboth := ReadBefore.both hreads (by omega : j < n.toNat) hsame
    by_cases heq : mem (s1 + BitVec.ofNat 32 j) = mem (s2 + BitVec.ofNat 32 j)
    · obtain ⟨r, b, hr, hcmp, hb⟩ := ih (j := j + 1)
        (a := (a.read (s1 + BitVec.ofNat 32 j)).read (s2 + BitVec.ofNat 32 j)) (by omega) ha hboth
        (forall_lt_succ hsame heq)
      refine ⟨r, b, fuel_next (fun fuel => ?_) hr, ?_, hb⟩
      · rw [memcmpLoop, if_pos hj]
        simp only [Access.read_mem, ha]
        rw [if_neg (not_not.mpr heq), ofNat_succ]
      · rw [add_ofNat_succ s1, add_ofNat_succ s2] at hcmp
        rw [bytesAt, bytesAt, heq]
        exact hcmp.cons _
    · refine ⟨byteDiff (mem (s1 + BitVec.ofNat 32 j)) (mem (s2 + BitVec.ofNat 32 j)), _,
        fuel_stop (fun fuel => ?_) (m + 1), Compares.byteDiff_cons heq _ _, hboth⟩
      rw [memcmpLoop, if_pos hj]
      simp only [Access.read_mem, ha]
      rw [if_pos heq]

theorem strncmpLoop_compares {chars1 chars2 : List (BitVec 8)}
    (h1 : CStringAt mem (s1 + BitVec.ofNat 32 j) chars1)
    (h2 : CStringAt mem (s2 + BitVec.ofNat 32 j) chars2) (hn : j + m = n.toNat) (ha : a.mem = mem)
    (hreads : a.ReadsIn (ReadBefore s1 s2 n.toNat (SameChar mem s1 s2)))
    (hsame : ∀ i < j, SameChar mem s1 s2 i) :
    ∃ r b, (∀ fuel, m < fuel → strncmpLoop s1 s2 n fuel (BitVec.ofNat 32 j) a = some (r, b)) ∧
      Compares r (chars1.take m) (chars2.take m) ∧
      b.ReadsIn (ReadBefore s1 s2 n.toNat (SameChar mem s1 s2)) := by
  have hlt : n.toNat < 2 ^ 32 := n.isLt
  induction m generalizing j a chars1 chars2 with
  | zero =>
    refine ⟨0#32, a, fuel_stop (fun fuel => ?_) 0, Compares.refl _, hreads⟩
    rw [strncmpLoop, if_neg]
    rw [ofNat_lt_iff (by omega)]
    omega
  | succ m ih =>
    have hj : BitVec.ofNat 32 j < n := (ofNat_lt_iff (by omega)).mpr (by omega)
    have hboth := ReadBefore.both hreads (by omega : j < n.toNat) hsame
    by_cases heq : mem (s1 + BitVec.ofNat 32 j) = mem (s2 + BitVec.ofNat 32 j)
    · by_cases hzero : mem (s1 + BitVec.ofNat 32 j) = 0#8
      · refine ⟨0#32, _, fuel_stop (fun fuel => ?_) (m + 1), ?_, hboth⟩
        · rw [strncmpLoop, if_pos hj]
          simp only [Access.read_mem, ha]
          rw [if_neg (not_not.mpr heq), if_pos hzero]
        · rw [h1.eq_nil_iff.mpr hzero, h2.eq_nil_iff.mpr (heq ▸ hzero)]
          exact Compares.refl _
      · obtain ⟨c, rest1, rfl⟩ := List.exists_cons_of_ne_nil fun h => hzero (h1.eq_nil_iff.mp h)
        obtain ⟨c', rest2, rfl⟩ := List.exists_cons_of_ne_nil fun h =>
          hzero (heq.trans (h2.eq_nil_iff.mp h))
        have hc : c = c' := by rw [← h1.cons_byte, heq, h2.cons_byte]
        have htail1 := h1.tail
        have htail2 := h2.tail
        rw [← add_ofNat_succ] at htail1 htail2
        obtain ⟨r, b, hr, hcmp, hb⟩ := ih (j := j + 1)
          (a := (a.read (s1 + BitVec.ofNat 32 j)).read (s2 + BitVec.ofNat 32 j)) htail1 htail2
          (by omega) ha hboth (forall_lt_succ hsame ⟨heq, hzero⟩)
        refine ⟨r, b, fuel_next (fun fuel => ?_) hr, ?_, hb⟩
        · rw [strncmpLoop, if_pos hj]
          simp only [Access.read_mem, ha]
          rw [if_neg (not_not.mpr heq), if_neg hzero, ofNat_succ]
        · rw [List.take_succ_cons, List.take_succ_cons, ← hc]
          exact hcmp.cons c
    · refine ⟨byteDiff (mem (s1 + BitVec.ofNat 32 j)) (mem (s2 + BitVec.ofNat 32 j)), _,
        fuel_stop (fun fuel => ?_) (m + 1), Compares.of_first_ne h1 h2 heq m, hboth⟩
      rw [strncmpLoop, if_pos hj]
      simp only [Access.read_mem, ha]
      rw [if_pos heq]

end Loops

section Calls

variable {mem : ByteMem} {s1 s2 n : BitVec 32} {chars1 chars2 : List (BitVec 8)}

theorem memcmp_compares (mem : ByteMem) (s1 s2 n : BitVec 32) :
    CallCompares (fun fuel => memcmp s1 s2 n fuel ⟨mem, []⟩) (bytesAt mem s1 n.toNat)
      (bytesAt mem s2 n.toNat) (ReadBefore s1 s2 n.toNat (SameByte mem s1 s2)) := by
  obtain ⟨r, b, hr, hcmp, hb⟩ := @memcmpLoop_compares mem s1 s2 n ⟨mem, []⟩ 0 n.toNat
    (Nat.zero_add _) rfl (List.forall_mem_nil _)
    (fun i hi => absurd hi (Nat.not_lt_zero i))
  rw [BitVec.add_zero, BitVec.add_zero] at hcmp
  exact ⟨r, b, ⟨n.toNat + 1, hr⟩, hcmp, hb⟩

theorem strncmp_compares (h1 : CStringAt mem s1 chars1) (h2 : CStringAt mem s2 chars2)
    (n : BitVec 32) :
    CallCompares (fun fuel => strncmp s1 s2 n fuel ⟨mem, []⟩) (chars1.take n.toNat)
      (chars2.take n.toNat) (ReadBefore s1 s2 n.toNat (SameChar mem s1 s2)) := by
  rw [← BitVec.add_zero s1] at h1
  rw [← BitVec.add_zero s2] at h2
  obtain ⟨r, b, hr, hcmp, hb⟩ := strncmpLoop_compares (n := n) (a := ⟨mem, []⟩) (j := 0)
    (m := n.toNat) h1 h2 (Nat.zero_add _) rfl (List.forall_mem_nil _)
    (fun i hi => absurd hi (Nat.not_lt_zero i))
  exact ⟨r, b, ⟨n.toNat + 1, hr⟩, hcmp, hb⟩

/-- Where the first characters decide, `strcmp` ends in its first round. -/
theorem strcmp_compares (h1 : CStringAt mem s1 chars1) (h2 : CStringAt mem s2 chars2)
    (h : mem s1 ≠ mem s2 ∨ mem s1 = 0#8) :
    CallCompares (fun fuel => strcmp s1 s2 fuel ⟨mem, []⟩) chars1 chars2
      (ReadBefore s1 s2 (chars1.length + 1) (SameChar mem s1 s2)) := by
  have hzero : ∀ s : BitVec 32, s + 0#32 = s := BitVec.add_zero
  have hfirst : ReadBefore s1 s2 (chars1.length + 1) (SameChar mem s1 s2) s1 :=
    ⟨0, Nat.succ_pos _, .inl (hzero s1).symm, fun j hj => absurd hj (Nat.not_lt_zero j)⟩
  have hsecond : ReadBefore s1 s2 (chars1.length + 1) (SameChar mem s1 s2) s2 :=
    ⟨0, Nat.succ_pos _, .inr (hzero s2).symm, fun j hj => absurd hj (Nat.not_lt_zero j)⟩
  have hstart : Access.ReadsIn ⟨mem, []⟩
      (ReadBefore s1 s2 (chars1.length + 1) (SameChar mem s1 s2)) := List.forall_mem_nil _
  by_cases heq : mem s1 = mem s2
  · have hend : mem s1 = 0#8 := by
      rcases h with hne | hend
      · exact absurd heq hne
      · exact hend
    refine ⟨0#32, _, ⟨1, fuel_stop (fun fuel => ?_) 0⟩, ?_,
      ((hstart.read hfirst).read hsecond).read hfirst⟩
    · simp only [strcmp, strcmpLoop, Access.read_mem, hzero]
      rw [if_pos heq, if_pos hend]
    · rw [h1.eq_nil_iff.mpr hend, h2.eq_nil_iff.mpr (heq ▸ hend)]
      exact Compares.refl _
  · refine ⟨byteDiff (mem s1) (mem s2), _, ⟨1, fuel_stop (fun fuel => ?_) 0⟩, ?_,
      (((hstart.read hfirst).read hsecond).read hfirst).read hsecond⟩
    · simp only [strcmp, strcmpLoop, Access.read_mem, hzero]
      rw [if_neg heq]
    · have hcmp := Compares.of_first_ne h1 h2 heq (max chars1.length chars2.length)
      rwa [List.take_of_length_le (by omega), List.take_of_length_le (by omega)] at hcmp

/-- Otherwise `strcmp` compares the first characters again and again. -/
theorem strcmp_endless (heq : mem s1 = mem s2) (hne : mem s1 ≠ 0#8) (fuel : Nat) :
    strcmp s1 s2 fuel ⟨mem, []⟩ = none := by
  have hzero : ∀ s : BitVec 32, s + 0#32 = s := BitVec.add_zero
  apply loop_endless (fun fuel a => strcmpLoop s1 s2 fuel 0#32 a)
    (fun a : Access => a.mem = mem)
  · intro a ha
    rfl
  · intro a ha
    refine ⟨((a.read s1).read s2).read s1, ha, fun fuel => ?_⟩
    simp only [strcmpLoop, Access.read_mem, hzero, ha]
    rw [if_pos heq, if_neg hne]
  · rfl

/-- What the comparing functions do on two strings and two blocks of bytes. -/
structure ComparesLexicographically (mem : ByteMem) (s1 s2 : BitVec 32)
    (chars1 chars2 : List (BitVec 8)) (p1 p2 n : BitVec 32) : Prop where
  strcmp : CallCompares (fun fuel => strcmp s1 s2 fuel ⟨mem, []⟩) chars1 chars2
    (ReadBefore s1 s2 (chars1.length + 1) (SameChar mem s1 s2))
  strncmp : CallCompares (fun fuel => strncmp s1 s2 n fuel ⟨mem, []⟩) (chars1.take n.toNat)
    (chars2.take n.toNat) (ReadBefore s1 s2 n.toNat (SameChar mem s1 s2))
  memcmp : CallCompares (fun fuel => memcmp p1 p2 n fuel ⟨mem, []⟩) (bytesAt mem p1 n.toNat)
    (bytesAt mem p2 n.toNat) (ReadBefore p1 p2 n.toNat (SameByte mem p1 p2))
  agree : ∀ m : BitVec 32, max chars1.length chars2.length < m.toNat → ∀ r b r' b',
    Returns (fun fuel => Libc.strcmp s1 s2 fuel ⟨mem, []⟩) (r, b) →
    Returns (fun fuel => Libc.strncmp s1 s2 m fuel ⟨mem, []⟩) (r', b') →
    (r.toInt < 0 ↔ r'.toInt < 0) ∧ (r.toInt = 0 ↔ r'.toInt = 0)

theorem strcmp_sameSign {m r r' : BitVec 32} {b b' : Access} (h1 : CStringAt mem s1 chars1)
    (h2 : CStringAt mem s2 chars2) (hfirst : mem s1 ≠ mem s2 ∨ mem s1 = 0#8)
    (hm : max chars1.length chars2.length < m.toNat)
    (hr : Returns (fun fuel => strcmp s1 s2 fuel ⟨mem, []⟩) (r, b))
    (hr' : Returns (fun fuel => strncmp s1 s2 m fuel ⟨mem, []⟩) (r', b')) :
    (r.toInt < 0 ↔ r'.toInt < 0) ∧ (r.toInt = 0 ↔ r'.toInt = 0) := by
  obtain ⟨t, c, ht, hcmp, -⟩ := strcmp_compares h1 h2 hfirst
  obtain ⟨t', c', ht', hcmp', -⟩ := strncmp_compares h1 h2 m
  rw [List.take_of_length_le (by omega), List.take_of_length_le (by omega)] at hcmp'
  have hrt : r = t := congrArg Prod.fst (hr.unique ht)
  have hrt' : r' = t' := congrArg Prod.fst (hr'.unique ht')
  rw [hrt, hrt']
  exact hcmp.sameSign hcmp'

theorem comparison_lexicographic_iff (h1 : CStringAt mem s1 chars1) (h2 : CStringAt mem s2 chars2)
    (p1 p2 n : BitVec 32) :
    ComparesLexicographically mem s1 s2 chars1 chars2 p1 p2 n ↔
      mem s1 ≠ mem s2 ∨ mem s1 = 0#8 := by
  constructor
  · intro h
    by_contra hcond
    rw [not_or, not_not] at hcond
    obtain ⟨r, b, hr, -⟩ := h.strcmp
    exact not_returns (strcmp_endless hcond.1 hcond.2) _ hr
  · intro hfirst
    refine ⟨strcmp_compares h1 h2 hfirst, strncmp_compares h1 h2 n, memcmp_compares mem p1 p2 n, ?_⟩
    intro m hm r b r' b' hr hr'
    exact strcmp_sameSign h1 h2 hfirst hm hr hr'

end Calls

/-- The string `"ab"` at 100, and `"ac"` at 200. -/
def twoStrings : ByteMem := put (put (fun _ => 0#8) 100#32 [97#8, 98#8]) 200#32 [97#8, 99#8]

theorem twoStrings_first : CStringAt twoStrings 100#32 [97#8, 98#8] where
  fits := by decide
  nonzero := by decide
  bytes := by decide

theorem twoStrings_second : CStringAt twoStrings 200#32 [97#8, 99#8] where
  fits := by decide
  nonzero := by decide
  bytes := by decide

/-- `"b"` is compared with `"ac"`. -/
theorem comparison_lexicographic_iff_of_ne :
    ComparesLexicographically twoStrings 101#32 200#32 [98#8] [97#8, 99#8] 100#32 200#32 2#32 :=
  (comparison_lexicographic_iff twoStrings_first.tail twoStrings_second 100#32 200#32 2#32).mpr
    (.inl (by decide))

/-- Two strings with the same first character. -/
theorem comparison_same_first :
    ¬ ComparesLexicographically twoStrings 100#32 200#32 [97#8, 98#8] [97#8, 99#8] 100#32 200#32
      2#32 := by
  intro h
  obtain ⟨r, b, hr, -⟩ := h.strcmp
  exact not_returns (strcmp_endless (by decide) (by decide)) _ hr

end Muse.Libc
