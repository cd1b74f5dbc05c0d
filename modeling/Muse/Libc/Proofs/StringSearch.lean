import Muse.Libc.String
import Muse.Library.Fuel

/-!
# String search

`strspn`, `strcspn` and `strpbrk` find what they should. `strchr`, `strrchr` and `memchr` compare
each byte with the whole `int` and not with its lowest byte: a value outside the range of the byte's
type is never found. `strrchr` does not look at the terminator.
-/

namespace Muse.Libc

open Library

/-- `r` points to the first index below `n` with the property `p`, or is null if there is none. -/
def FirstAt (s r : BitVec 32) (n : Nat) (p : Nat → Prop) : Prop :=
  (∃ i < n, p i ∧ (∀ j < i, ¬ p j) ∧ r = s + BitVec.ofNat 32 i) ∨ (∀ i < n, ¬ p i) ∧ r = 0#32

/-- `r` points to the last index below `n` with the property `p`, or is null if there is none. -/
def LastAt (s r : BitVec 32) (n : Nat) (p : Nat → Prop) : Prop :=
  (∃ i < n, p i ∧ (∀ j < n, i < j → ¬ p j) ∧ r = s + BitVec.ofNat 32 i) ∨
    (∀ i < n, ¬ p i) ∧ r = 0#32

section Positions

variable {s r : BitVec 32} {n : Nat} {p q : Nat → Prop}

theorem firstAt_congr (h : ∀ i < n, p i ↔ q i) : FirstAt s r n p ↔ FirstAt s r n q := by
  have hmp : ∀ {p q : Nat → Prop}, (∀ i < n, p i ↔ q i) → FirstAt s r n p → FirstAt s r n q := by
    rintro p q h (⟨i, hi, hpi, hfirst, hr⟩ | ⟨hnone, hr⟩)
    · exact .inl ⟨i, hi, (h i hi).mp hpi,
        fun j hj hqj => hfirst j hj ((h j (Nat.lt_trans hj hi)).mpr hqj), hr⟩
    · exact .inr ⟨fun i hi hqi => hnone i hi ((h i hi).mpr hqi), hr⟩
  exact ⟨hmp h, hmp fun i hi => (h i hi).symm⟩

theorem lastAt_congr (h : ∀ i < n, p i ↔ q i) : LastAt s r n p ↔ LastAt s r n q := by
  have hmp : ∀ {p q : Nat → Prop}, (∀ i < n, p i ↔ q i) → LastAt s r n p → LastAt s r n q := by
    rintro p q h (⟨i, hi, hpi, hlast, hr⟩ | ⟨hnone, hr⟩)
    · exact .inl ⟨i, hi, (h i hi).mp hpi,
        fun j hj hij hqj => hlast j hj hij ((h j hj).mpr hqj), hr⟩
    · exact .inr ⟨fun i hi hqi => hnone i hi ((h i hi).mpr hqi), hr⟩
  exact ⟨hmp h, hmp fun i hi => (h i hi).symm⟩

/-- Pointers into an object are not null. -/
theorem add_ofNat_ne_null (hs : s ≠ 0#32) {i : Nat} (h : s.toNat + i < 2 ^ 32) :
    s + BitVec.ofNat 32 i ≠ 0#32 := by
  intro heq
  have hto := toNat_add_ofNat h
  rw [heq, BitVec.toNat_ofNat] at hto
  exact hs (BitVec.eq_of_toNat_eq (by rw [BitVec.toNat_ofNat]; omega))

theorem firstAt_null (hs : s ≠ 0#32) (hn : s.toNat + n ≤ 2 ^ 32) :
    FirstAt s 0#32 n p ↔ ∀ i < n, ¬ p i := by
  constructor
  · rintro (⟨i, hi, -, -, hr⟩ | ⟨hnone, -⟩)
    · exact absurd hr.symm (add_ofNat_ne_null hs (by omega))
    · exact hnone
  · intro hnone
    exact .inr ⟨hnone, rfl⟩

theorem lastAt_null (hs : s ≠ 0#32) (hn : s.toNat + n ≤ 2 ^ 32) :
    LastAt s 0#32 n p ↔ ∀ i < n, ¬ p i := by
  constructor
  · rintro (⟨i, hi, -, -, hr⟩ | ⟨hnone, -⟩)
    · exact absurd hr.symm (add_ofNat_ne_null hs (by omega))
    · exact hnone
  · intro hnone
    exact .inr ⟨hnone, rfl⟩

theorem FirstAt.eq_null (h : FirstAt s r n p) (hnone : ∀ i < n, ¬ p i) : r = 0#32 := by
  rcases h with ⟨i, hi, hp, -⟩ | ⟨-, hr⟩
  · exact absurd hp (hnone i hi)
  · exact hr

theorem LastAt.eq_null (h : LastAt s r n p) (hnone : ∀ i < n, ¬ p i) : r = 0#32 := by
  rcases h with ⟨i, hi, hp, -⟩ | ⟨-, hr⟩
  · exact absurd hp (hnone i hi)
  · exact hr

/-- One more index is looked at. -/
theorem LastAt.succ (h : LastAt s r n p) :
    (p n → LastAt s (s + BitVec.ofNat 32 n) (n + 1) p) ∧ (¬ p n → LastAt s r (n + 1) p) := by
  constructor
  · intro hp
    exact .inl ⟨n, Nat.lt_succ_self n, hp, fun j hj hnj => by omega, rfl⟩
  · intro hp
    rcases h with ⟨i, hi, hpi, hlast, hr⟩ | ⟨hnone, hr⟩
    · refine .inl ⟨i, Nat.lt_succ_of_lt hi, hpi, fun j hj hij => ?_, hr⟩
      rcases Nat.lt_succ_iff_lt_or_eq.mp hj with hlt | rfl
      · exact hlast j hlt hij
      · exact hp
    · refine .inr ⟨fun i hi => ?_, hr⟩
      rcases Nat.lt_succ_iff_lt_or_eq.mp hi with hlt | rfl
      · exact hnone i hlt
      · exact hp

end Positions

/-- The addresses of a string, its terminator included. -/
def InString (s : BitVec 32) (chars : List (BitVec 8)) (q : BitVec 32) : Prop :=
  ∃ i ≤ chars.length, q = s + BitVec.ofNat 32 i

/-- The call returns a result with the property `P`, changes no memory and reads only in `S`. -/
def CallFinds (call : Nat → Option (BitVec 32 × Access)) (mem : ByteMem) (P : BitVec 32 → Prop)
    (S : BitVec 32 → Prop) : Prop :=
  ∃ r b, Returns call (r, b) ∧ P r ∧ b.mem = mem ∧ b.ReadsIn S

/-- The other way round, the property is that of the one result. -/
theorem CallFinds.iff_of {call : Nat → Option (BitVec 32 × Access)} {mem : ByteMem}
    {P Q : BitVec 32 → Prop} {S : BitVec 32 → Prop} {cond : Prop} (h : CallFinds call mem P S)
    (hiff : ∀ r, P r → (Q r ↔ cond)) : CallFinds call mem Q S ↔ cond := by
  obtain ⟨r, b, hr, hP, hmem, hreads⟩ := h
  constructor
  · rintro ⟨r', b', hr', hQ, -⟩
    rw [show r' = r from congrArg Prod.fst (hr'.unique hr)] at hQ
    exact (hiff r hP).mp hQ
  · intro hcond
    exact ⟨r, b, hr, (hiff r hP).mpr hcond, hmem, hreads⟩

/-- The first index with the property `p`, or `n`. -/
theorem exists_stop (n : Nat) (p : Nat → Prop) : ∃ k ≤ n, (∀ j < k, ¬ p j) ∧ (k < n → p k) := by
  induction n with
  | zero => exact ⟨0, Nat.le_refl 0, fun j hj => absurd hj (Nat.not_lt_zero j), fun h => by omega⟩
  | succ n ih =>
    obtain ⟨k, hk, hbefore, hstop⟩ := ih
    rcases Nat.lt_or_eq_of_le hk with hlt | rfl
    · exact ⟨k, by omega, hbefore, fun _ => hstop hlt⟩
    · by_cases hp : p k
      · exact ⟨k, Nat.le_succ k, hbefore, fun _ => hp⟩
      · refine ⟨k + 1, Nat.le_refl _, fun j hj => ?_, fun h => absurd h (Nat.lt_irrefl _)⟩
        rcases Nat.lt_succ_iff_lt_or_eq.mp hj with hlt | rfl
        · exact hbefore j hlt
        · exact hp

section Chars

variable {mem : ByteMem} {s s1 s2 c n : BitVec 32} {chars chars1 chars2 : List (BitVec 8)}
  {a : Access} {S : BitVec 32 → Prop}

/-- `memchr` compares the bytes with the whole of `c`. -/
theorem memchr_finds (mem : ByteMem) (s c n : BitVec 32) :
    CallFinds (fun fuel => memchr s c n fuel ⟨mem, []⟩) mem
      (fun r => FirstAt s r n.toNat fun i => (mem (s + BitVec.ofNat 32 i)).setWidth 32 = c)
      (fun q => ∃ i < n.toNat, q = s + BitVec.ofNat 32 i) := by
  have hn := n.isLt
  obtain ⟨k, hk, hbefore, hstop⟩ :=
    exists_stop n.toNat fun i => (mem (s + BitVec.ofNat 32 i)).setWidth 32 = c
  have hloop := loop_returns (fun fuel s' => memchrLoop s c n fuel s'.1 s'.2) k
    (fun j (s' : BitVec 32 × Access) => s'.1 = BitVec.ofNat 32 j ∧ s'.2.mem = mem ∧
      s'.2.ReadsIn fun q => ∃ i < n.toNat, q = s + BitVec.ofNat 32 i)
    (fun r => FirstAt s r.1 n.toNat (fun i => (mem (s + BitVec.ofNat 32 i)).setWidth 32 = c) ∧
      r.2.mem = mem ∧ r.2.ReadsIn fun q => ∃ i < n.toNat, q = s + BitVec.ofNat 32 i)
    ?_ ?_ (0#32, ⟨mem, []⟩) ⟨rfl, rfl, List.forall_mem_nil _⟩
  · obtain ⟨⟨r, b⟩, hr, hfirst, hmem, hreads⟩ := hloop
    exact ⟨r, b, hr, hfirst, hmem, hreads⟩
  · rintro j hj ⟨_, b⟩ ⟨rfl, rfl, hreads⟩
    have hjn : BitVec.ofNat 32 j < n := (ofNat_lt_iff (by omega)).mpr (by omega)
    refine ⟨(BitVec.ofNat 32 j + 1#32, b.read (s + BitVec.ofNat 32 j)),
      ⟨ofNat_succ j, rfl, hreads.read ⟨j, by omega, rfl⟩⟩, fun fuel => ?_⟩
    exact (if_pos hjn).trans (if_neg (hbefore j hj))
  · rintro ⟨_, b⟩ ⟨rfl, rfl, hreads⟩
    rcases Nat.lt_or_eq_of_le hk with hlt | rfl
    · have hkn : BitVec.ofNat 32 k < n := (ofNat_lt_iff (by omega)).mpr hlt
      refine ⟨(s + BitVec.ofNat 32 k, b.read (s + BitVec.ofNat 32 k)),
        ⟨.inl ⟨k, hlt, hstop hlt, hbefore, rfl⟩, rfl, hreads.read ⟨k, hlt, rfl⟩⟩, fun fuel => ?_⟩
      exact (if_pos hkn).trans (if_pos (hstop hlt))
    · have hge : ¬ BitVec.ofNat 32 n.toNat < n := by
        rw [ofNat_lt_iff hn]
        exact Nat.lt_irrefl _
      refine ⟨(0#32, b), ⟨.inr ⟨hbefore, rfl⟩, rfl, hreads⟩, fun fuel => ?_⟩
      exact if_neg hge

/-- `strchr` compares the characters and the terminator with the whole of `c`. -/
theorem strchr_finds (hs : CStringAt mem s chars) (c : BitVec 32) :
    CallFinds (fun fuel => strchr s c fuel ⟨mem, []⟩) mem
      (fun r => FirstAt s r (chars.length + 1) fun i => (chars.getD i 0#8).signExtend 32 = c)
      (InString s chars) := by
  obtain ⟨k, hk, hbefore, hstop⟩ :=
    exists_stop chars.length fun i => (chars.getD i 0#8).signExtend 32 = c
  have hloop := loop_returns (fun fuel s' => strchrLoop c fuel s'.1 s'.2) k
    (fun j (s' : BitVec 32 × Access) => s'.1 = s + BitVec.ofNat 32 j ∧ s'.2.mem = mem ∧
      s'.2.ReadsIn (InString s chars))
    (fun r => FirstAt s r.1 (chars.length + 1) (fun i => (chars.getD i 0#8).signExtend 32 = c) ∧
      r.2.mem = mem ∧ r.2.ReadsIn (InString s chars))
    ?_ ?_ (s, ⟨mem, []⟩) ⟨(BitVec.add_zero s).symm, rfl, List.forall_mem_nil _⟩
  · obtain ⟨⟨r, b⟩, hr, hfirst, hmem, hreads⟩ := hloop
    exact ⟨r, b, hr, hfirst, hmem, hreads⟩
  · rintro j hj ⟨_, b⟩ ⟨rfl, rfl, hreads⟩
    have hjlen : j < chars.length := by omega
    have hin : InString s chars (s + BitVec.ofNat 32 j) := ⟨j, by omega, rfl⟩
    have hne : ¬ (b.mem (s + BitVec.ofNat 32 j)).signExtend 32 = c := by
      rw [hs.bytes j (by omega)]
      exact hbefore j hj
    refine ⟨(s + BitVec.ofNat 32 j + 1#32,
      (b.read (s + BitVec.ofNat 32 j)).read (s + BitVec.ofNat 32 j)),
      ⟨(add_ofNat_succ s j).symm, rfl, (hreads.read hin).read hin⟩, fun fuel => ?_⟩
    exact (if_pos (hs.byte_ne hjlen)).trans (if_neg hne)
  · rintro ⟨_, b⟩ ⟨rfl, rfl, hreads⟩
    have hin : InString s chars (s + BitVec.ofNat 32 k) := ⟨k, hk, rfl⟩
    rcases Nat.lt_or_eq_of_le hk with hlt | rfl
    · have heq : (b.mem (s + BitVec.ofNat 32 k)).signExtend 32 = c := by
        rw [hs.bytes k hk]
        exact hstop hlt
      refine ⟨(s + BitVec.ofNat 32 k,
          (b.read (s + BitVec.ofNat 32 k)).read (s + BitVec.ofNat 32 k)),
        ⟨.inl ⟨k, by omega, hstop hlt, hbefore, rfl⟩, rfl, (hreads.read hin).read hin⟩,
        fun fuel => ?_⟩
      exact (if_pos (hs.byte_ne hlt)).trans (if_pos heq)
    · have hend : ¬ b.mem (s + BitVec.ofNat 32 chars.length) ≠ 0#8 := not_not.mpr hs.terminator
      have hzero : chars.getD chars.length 0#8 = 0#8 := List.getD_eq_default _ _ (Nat.le_refl _)
      by_cases hc : c = 0#32
      · refine ⟨(s + BitVec.ofNat 32 chars.length, b.read (s + BitVec.ofNat 32 chars.length)),
          ⟨.inl ⟨chars.length, Nat.lt_succ_self _, ?_, hbefore, rfl⟩, rfl, hreads.read hin⟩,
          fun fuel => ?_⟩
        · show (chars.getD chars.length 0#8).signExtend 32 = c
          rw [hzero, hc]
          decide
        · exact (if_neg hend).trans (if_pos hc)
      · refine ⟨(0#32, b.read (s + BitVec.ofNat 32 chars.length)),
          ⟨.inr ⟨fun i hi => ?_, rfl⟩, rfl, hreads.read hin⟩, fun fuel => ?_⟩
        · rcases Nat.lt_succ_iff_lt_or_eq.mp hi with hlt | rfl
          · exact hbefore i hlt
          · show ¬ (chars.getD chars.length 0#8).signExtend 32 = c
            rw [hzero]
            intro heq
            exact hc heq.symm
        · exact (if_neg hend).trans (if_neg hc)

/-- `strrchr` compares the characters with the whole of `c`, but not the terminator. -/
theorem strrchr_finds (hs : CStringAt mem s chars) (c : BitVec 32) :
    CallFinds (fun fuel => strrchr s c fuel ⟨mem, []⟩) mem
      (fun r => LastAt s r chars.length fun i => (chars.getD i 0#8).signExtend 32 = c)
      (InString s chars) := by
  have hloop := loop_returns
    (fun fuel s' => strrchrLoop c fuel s'.1 s'.2.1 s'.2.2) chars.length
    (fun j (s' : BitVec 32 × BitVec 32 × Access) => s'.1 = s + BitVec.ofNat 32 j ∧
      LastAt s s'.2.1 j (fun i => (chars.getD i 0#8).signExtend 32 = c) ∧ s'.2.2.mem = mem ∧
      s'.2.2.ReadsIn (InString s chars))
    (fun r => LastAt s r.1 chars.length (fun i => (chars.getD i 0#8).signExtend 32 = c) ∧
      r.2.mem = mem ∧ r.2.ReadsIn (InString s chars))
    ?_ ?_ (s, 0#32, ⟨mem, []⟩) ⟨(BitVec.add_zero s).symm,
      .inr ⟨fun i hi => absurd hi (Nat.not_lt_zero i), rfl⟩, rfl, List.forall_mem_nil _⟩
  · obtain ⟨⟨r, b⟩, hr, hlast, hmem, hreads⟩ := hloop
    exact ⟨r, b, hr, hlast, hmem, hreads⟩
  · rintro j hj ⟨_, res, b⟩ ⟨rfl, hlast, rfl, hreads⟩
    have hin : InString s chars (s + BitVec.ofNat 32 j) := ⟨j, by omega, rfl⟩
    have hbyte := hs.bytes j (by omega)
    refine ⟨(s + BitVec.ofNat 32 j + 1#32,
      if (b.mem (s + BitVec.ofNat 32 j)).signExtend 32 = c then s + BitVec.ofNat 32 j else res,
      (b.read (s + BitVec.ofNat 32 j)).read (s + BitVec.ofNat 32 j)),
      ⟨(add_ofNat_succ s j).symm, ?_, rfl, (hreads.read hin).read hin⟩, fun fuel => ?_⟩
    · by_cases heq : (b.mem (s + BitVec.ofNat 32 j)).signExtend 32 = c
      · rw [if_pos heq]
        apply hlast.succ.1
        rwa [hbyte] at heq
      · rw [if_neg heq]
        apply hlast.succ.2
        rwa [hbyte] at heq
    · exact if_pos (hs.byte_ne hj)
  · rintro ⟨_, res, b⟩ ⟨rfl, hlast, rfl, hreads⟩
    refine ⟨(res, b.read (s + BitVec.ofNat 32 chars.length)),
      ⟨hlast, rfl, hreads.read ⟨chars.length, Nat.le_refl _, rfl⟩⟩, fun fuel => ?_⟩
    exact if_neg (not_not.mpr hs.terminator)

/-- The inner loop decides whether the byte at `p` is a character of the second string. -/
theorem charScan_eq (h2 : CStringAt mem s2 chars2) {p : BitVec 32} (ha : a.mem = mem)
    (hreads : a.ReadsIn S) (hp : S p) (hS : ∀ q, InString s2 chars2 q → S q) :
    ∃ b, charScan p s2 (2 ^ 32) 0#32 a = some (decide (mem p ∈ chars2), b) ∧ b.mem = mem ∧
      b.ReadsIn S := by
  have hlen := h2.length_lt
  obtain ⟨k, hk, hbefore, hstop⟩ := exists_stop chars2.length fun j => mem p = chars2.getD j 0#8
  have hloop := loop_rule
    (fun fuel s => charScan p s2 fuel s.1 s.2) k
    (fun j (s : BitVec 32 × Access) => s.1 = BitVec.ofNat 32 j ∧ s.2.mem = mem ∧ s.2.ReadsIn S)
    (fun r => r.1 = decide (mem p ∈ chars2) ∧ r.2.mem = mem ∧ r.2.ReadsIn S)
    ?_ ?_ (0#32, a) ⟨rfl, ha, hreads⟩
  · obtain ⟨⟨found, b⟩, ⟨hfound, hmem, hb⟩, hr⟩ := hloop
    refine ⟨b, ?_, hmem, hb⟩
    rw [← show found = decide (mem p ∈ chars2) from hfound]
    exact hr (2 ^ 32) (by omega)
  · rintro j hj ⟨_, b⟩ ⟨rfl, rfl, hb⟩
    have hjlen : j < chars2.length := by omega
    have hin : S (s2 + BitVec.ofNat 32 j) := hS _ ⟨j, by omega, rfl⟩
    have hne : ¬ b.mem p = b.mem (s2 + BitVec.ofNat 32 j) := by
      rw [h2.bytes j (by omega)]
      exact hbefore j hj
    refine ⟨(BitVec.ofNat 32 j + 1#32,
      ((b.read (s2 + BitVec.ofNat 32 j)).read p).read (s2 + BitVec.ofNat 32 j)),
      ⟨ofNat_succ j, rfl, ((hb.read hin).read hp).read hin⟩, fun fuel => ?_⟩
    exact (if_pos (h2.byte_ne hjlen)).trans (if_neg hne)
  · rintro ⟨_, b⟩ ⟨rfl, rfl, hb⟩
    have hin : S (s2 + BitVec.ofNat 32 k) := hS _ ⟨k, hk, rfl⟩
    rcases Nat.lt_or_eq_of_le hk with hlt | rfl
    · have heq : b.mem p = b.mem (s2 + BitVec.ofNat 32 k) := by
        rw [h2.bytes k hk]
        exact hstop hlt
      have hmem : b.mem p ∈ chars2 := by
        rw [heq, h2.byte_eq hlt]
        exact List.getElem_mem hlt
      refine ⟨(true, ((b.read (s2 + BitVec.ofNat 32 k)).read p).read (s2 + BitVec.ofNat 32 k)),
        ⟨(decide_eq_true hmem).symm, rfl, ((hb.read hin).read hp).read hin⟩, fun fuel => ?_⟩
      exact (if_pos (h2.byte_ne hlt)).trans (if_pos heq)
    · have hnot : b.mem p ∉ chars2 := by
        intro hmem
        obtain ⟨j, hj, heq⟩ := List.getElem_of_mem hmem
        apply hbefore j hj
        rw [List.getD_eq_getElem _ _ hj, heq]
      refine ⟨(false, b.read (s2 + BitVec.ofNat 32 chars2.length)),
        ⟨(decide_eq_false hnot).symm, rfl, hb.read hin⟩, fun fuel => ?_⟩
      exact if_neg (not_not.mpr h2.terminator)

/-- The longest prefix with a property, and the character behind it. -/
theorem takeWhile_stop {α : Type} (p : α → Bool) (l : List α) :
    (l.takeWhile p).length ≤ l.length ∧
      (∀ j, ∀ hj : j < l.length, j < (l.takeWhile p).length → p l[j] = true) ∧
      ∀ h : (l.takeWhile p).length < l.length, p (l[(l.takeWhile p).length]) = false := by
  induction l with
  | nil => exact ⟨Nat.le_refl 0, fun j hj => absurd hj (Nat.not_lt_zero j), fun h => by simp at h⟩
  | cons x l ih =>
    obtain ⟨hle, hbefore, hstop⟩ := ih
    cases hx : p x with
    | false =>
      rw [List.takeWhile_cons_of_neg (by rw [hx]; exact Bool.false_ne_true)]
      exact ⟨Nat.zero_le _, fun j _ hj => absurd hj (Nat.not_lt_zero j), fun _ => hx⟩
    | true =>
      rw [List.takeWhile_cons_of_pos hx]
      refine ⟨Nat.succ_le_succ hle, fun j hj hjt => ?_, fun h => hstop (Nat.lt_of_succ_lt_succ h)⟩
      cases j with
      | zero => exact hx
      | succ j => exact hbefore j (Nat.lt_of_succ_lt_succ hj) (Nat.lt_of_succ_lt_succ hjt)

/-- The addresses of both strings. -/
def InStrings (s1 : BitVec 32) (chars1 : List (BitVec 8)) (s2 : BitVec 32)
    (chars2 : List (BitVec 8)) (q : BitVec 32) : Prop :=
  InString s1 chars1 q ∨ InString s2 chars2 q

/-- The longest prefix of characters that are not in the second string. -/
def spanNotIn (chars1 chars2 : List (BitVec 8)) : Nat :=
  (chars1.takeWhile fun b => decide (b ∉ chars2)).length

/-- The longest prefix of characters that are in the second string. -/
def spanIn (chars1 chars2 : List (BitVec 8)) : Nat :=
  (chars1.takeWhile fun b => decide (b ∈ chars2)).length

theorem spanNotIn_spec (chars1 chars2 : List (BitVec 8)) :
    spanNotIn chars1 chars2 ≤ chars1.length ∧
      (∀ j, ∀ hj : j < chars1.length, j < spanNotIn chars1 chars2 → chars1[j] ∉ chars2) ∧
      ∀ h : spanNotIn chars1 chars2 < chars1.length, chars1[spanNotIn chars1 chars2] ∈ chars2 := by
  obtain ⟨hle, hbefore, hstop⟩ := takeWhile_stop (fun b => decide (b ∉ chars2)) chars1
  refine ⟨hle, fun j hj hjk => of_decide_eq_true (hbefore j hj hjk), fun h => ?_⟩
  exact not_not.mp (of_decide_eq_false (hstop h))

theorem spanIn_spec (chars1 chars2 : List (BitVec 8)) :
    spanIn chars1 chars2 ≤ chars1.length ∧
      (∀ j, ∀ hj : j < chars1.length, j < spanIn chars1 chars2 → chars1[j] ∈ chars2) ∧
      ∀ h : spanIn chars1 chars2 < chars1.length, chars1[spanIn chars1 chars2] ∉ chars2 := by
  obtain ⟨hle, hbefore, hstop⟩ := takeWhile_stop (fun b => decide (b ∈ chars2)) chars1
  exact ⟨hle, fun j hj hjk => of_decide_eq_true (hbefore j hj hjk),
    fun h => of_decide_eq_false (hstop h)⟩

/-- A loop that scans the second string at each character of the first one, with `pos j` for its
    character `j`, ends at the first one that it finds, or with `atEnd` at the terminator. -/
theorem notInLoop_finds (loop : Nat → BitVec 32 → Access → Option (BitVec 32 × Access))
    (pos atEnd : Nat → BitVec 32) (h1 : CStringAt mem s1 chars1) (h2 : CStringAt mem s2 chars2)
    (hround : ∀ fuel j a, loop (fuel + 1) (pos j) a =
      if a.mem (s1 + BitVec.ofNat 32 j) ≠ 0#8 then
        (charScan (s1 + BitVec.ofNat 32 j) s2 (2 ^ 32) 0#32
          (a.read (s1 + BitVec.ofNat 32 j))).bind fun x =>
            if x.1 then some (pos j, x.2) else loop fuel (pos (j + 1)) x.2
      else some (atEnd j, a.read (s1 + BitVec.ofNat 32 j))) :
    CallFinds (fun fuel => loop fuel (pos 0) ⟨mem, []⟩) mem
      (fun r => r = if spanNotIn chars1 chars2 = chars1.length then atEnd (spanNotIn chars1 chars2)
        else pos (spanNotIn chars1 chars2))
      (InStrings s1 chars1 s2 chars2) := by
  obtain ⟨hk, hbefore, hstop⟩ := spanNotIn_spec chars1 chars2
  have hloop := loop_returns (fun fuel s => loop fuel s.1 s.2) (spanNotIn chars1 chars2)
    (fun j (s : BitVec 32 × Access) => s.1 = pos j ∧ s.2.mem = mem ∧
      s.2.ReadsIn (InStrings s1 chars1 s2 chars2))
    (fun r => r.1 = (if spanNotIn chars1 chars2 = chars1.length then
        atEnd (spanNotIn chars1 chars2) else pos (spanNotIn chars1 chars2)) ∧
      r.2.mem = mem ∧ r.2.ReadsIn (InStrings s1 chars1 s2 chars2))
    ?_ ?_ (pos 0, ⟨mem, []⟩) ⟨rfl, rfl, List.forall_mem_nil _⟩
  · obtain ⟨⟨r, b⟩, hr, hlen, hmem, hreads⟩ := hloop
    exact ⟨r, b, hr, hlen, hmem, hreads⟩
  · rintro j hj ⟨_, b⟩ ⟨rfl, hmem, hreads⟩
    obtain rfl : mem = b.mem := hmem.symm
    have hjlen : j < chars1.length := Nat.lt_of_lt_of_le hj hk
    have hin : InStrings s1 chars1 s2 chars2 (s1 + BitVec.ofNat 32 j) := .inl ⟨j, by omega, rfl⟩
    obtain ⟨b', hscan, hmem', hreads'⟩ := charScan_eq (a := b.read (s1 + BitVec.ofNat 32 j)) h2 rfl
      (hreads.read hin) hin fun q hq => .inr hq
    rw [h1.byte_eq hjlen, decide_eq_false (hbefore j hjlen hj)] at hscan
    refine ⟨(pos (j + 1), b'), ⟨rfl, hmem', hreads'⟩, fun fuel => ?_⟩
    dsimp only
    rw [hround, if_pos (h1.byte_ne hjlen), hscan]
    rfl
  · rintro ⟨_, b⟩ ⟨rfl, hmem, hreads⟩
    obtain rfl : mem = b.mem := hmem.symm
    have hin : InStrings s1 chars1 s2 chars2
        (s1 + BitVec.ofNat 32 (spanNotIn chars1 chars2)) := .inl ⟨_, hk, rfl⟩
    rcases Nat.lt_or_eq_of_le hk with hlt | heq
    · obtain ⟨b', hscan, hmem', hreads'⟩ :=
        charScan_eq (a := b.read (s1 + BitVec.ofNat 32 (spanNotIn chars1 chars2))) h2 rfl
          (hreads.read hin) hin fun q hq => .inr hq
      rw [h1.byte_eq hlt, decide_eq_true (hstop hlt)] at hscan
      refine ⟨(pos (spanNotIn chars1 chars2), b'),
        ⟨(if_neg (Nat.ne_of_lt hlt)).symm, hmem', hreads'⟩, fun fuel => ?_⟩
      dsimp only
      rw [hround, if_pos (h1.byte_ne hlt), hscan]
      rfl
    · have hend : ¬ b.mem (s1 + BitVec.ofNat 32 (spanNotIn chars1 chars2)) ≠ 0#8 := by
        rw [not_not, heq]
        exact h1.terminator
      refine ⟨(atEnd (spanNotIn chars1 chars2),
        b.read (s1 + BitVec.ofNat 32 (spanNotIn chars1 chars2))),
        ⟨(if_pos heq).symm, rfl, hreads.read hin⟩, fun fuel => ?_⟩
      dsimp only
      rw [hround, if_neg hend]

theorem strcspn_finds (h1 : CStringAt mem s1 chars1) (h2 : CStringAt mem s2 chars2) :
    CallFinds (fun fuel => strcspn s1 s2 fuel ⟨mem, []⟩) mem
      (fun r => r = BitVec.ofNat 32 (spanNotIn chars1 chars2)) (InStrings s1 chars1 s2 chars2) := by
  have hfinds := notInLoop_finds (strcspnLoop s1 s2) (BitVec.ofNat 32) (BitVec.ofNat 32) h1 h2
    fun fuel j a => by
      rw [strcspnLoop, ofNat_succ]
      rfl
  simp only [ite_self] at hfinds
  exact hfinds

theorem strpbrk_finds (h1 : CStringAt mem s1 chars1) (h2 : CStringAt mem s2 chars2) :
    CallFinds (fun fuel => strpbrk s1 s2 fuel ⟨mem, []⟩) mem
      (fun r => r = if spanNotIn chars1 chars2 = chars1.length then 0#32
        else s1 + BitVec.ofNat 32 (spanNotIn chars1 chars2))
      (InStrings s1 chars1 s2 chars2) := by
  have hfinds := notInLoop_finds (strpbrkLoop s2) (fun j => s1 + BitVec.ofNat 32 j)
    (fun _ => 0#32) h1 h2 fun fuel j a => by
      rw [strpbrkLoop, ← add_ofNat_succ]
      rfl
  rw [BitVec.add_zero] at hfinds
  exact hfinds

/-- The condition of `strspn` holds in every round of a string that is not empty; its loop ends at
    the terminator, which is none of the characters. -/
theorem strspn_finds (h1 : CStringAt mem s1 chars1) (h2 : CStringAt mem s2 chars2) :
    CallFinds (fun fuel => strspn s1 s2 fuel ⟨mem, []⟩) mem
      (fun r => r = BitVec.ofNat 32 (spanIn chars1 chars2)) (InStrings s1 chars1 s2 chars2) := by
  obtain ⟨hk, hbefore, hstop⟩ := spanIn_spec chars1 chars2
  have hfirst : InStrings s1 chars1 s2 chars2 s1 :=
    .inl ⟨0, Nat.zero_le _, (BitVec.add_zero s1).symm⟩
  have hloop := loop_returns (fun fuel s => strspnLoop s1 s2 fuel s.1 s.2)
    (spanIn chars1 chars2)
    (fun j (s : BitVec 32 × Access) => s.1 = BitVec.ofNat 32 j ∧ s.2.mem = mem ∧
      s.2.ReadsIn (InStrings s1 chars1 s2 chars2))
    (fun r => r.1 = BitVec.ofNat 32 (spanIn chars1 chars2) ∧ r.2.mem = mem ∧
      r.2.ReadsIn (InStrings s1 chars1 s2 chars2))
    ?_ ?_ (0#32, ⟨mem, []⟩) ⟨rfl, rfl, List.forall_mem_nil _⟩
  · obtain ⟨⟨r, b⟩, hr, hlen, hmem, hreads⟩ := hloop
    exact ⟨r, b, hr, hlen, hmem, hreads⟩
  · rintro j hj ⟨_, b⟩ ⟨rfl, hmem, hreads⟩
    obtain rfl : mem = b.mem := hmem.symm
    have hjlen : j < chars1.length := Nat.lt_of_lt_of_le hj hk
    have hne : b.mem s1 ≠ 0#8 := by
      have hbyte := h1.byte_ne (Nat.zero_lt_of_lt hjlen)
      rwa [BitVec.add_zero] at hbyte
    obtain ⟨b', hscan, hmem', hreads'⟩ := charScan_eq (p := s1 + BitVec.ofNat 32 j) (a := b.read s1)
      h2 rfl (hreads.read hfirst) (.inl ⟨j, by omega, rfl⟩) fun q hq => .inr hq
    rw [h1.byte_eq hjlen, decide_eq_true (hbefore j hjlen hj)] at hscan
    refine ⟨(BitVec.ofNat 32 j + 1#32, b'), ⟨ofNat_succ j, hmem', hreads'⟩, fun fuel => ?_⟩
    refine (if_pos hne).trans ?_
    rw [hscan]
    rfl
  · rintro ⟨_, b⟩ ⟨rfl, hmem, hreads⟩
    obtain rfl : mem = b.mem := hmem.symm
    by_cases hempty : b.mem s1 = 0#8
    · exact ⟨(BitVec.ofNat 32 (spanIn chars1 chars2), b.read s1), ⟨rfl, rfl, hreads.read hfirst⟩,
        fun fuel => if_neg (not_not.mpr hempty)⟩
    · obtain ⟨b', hscan, hmem', hreads'⟩ :=
        charScan_eq (p := s1 + BitVec.ofNat 32 (spanIn chars1 chars2)) (a := b.read s1) h2 rfl
          (hreads.read hfirst) (.inl ⟨_, hk, rfl⟩) fun q hq => .inr hq
      have hnot : b.mem (s1 + BitVec.ofNat 32 (spanIn chars1 chars2)) ∉ chars2 := by
        rcases Nat.lt_or_eq_of_le hk with hlt | heq
        · rw [h1.byte_eq hlt]
          exact hstop hlt
        · rw [heq, h1.terminator]
          exact fun hzero => h2.nonzero _ hzero rfl
      rw [decide_eq_false hnot] at hscan
      refine ⟨(BitVec.ofNat 32 (spanIn chars1 chars2), b'), ⟨rfl, hmem', hreads'⟩, fun fuel => ?_⟩
      refine (if_pos hempty).trans ?_
      rw [hscan]
      rfl

end Chars

/-- `(char)c` is in the range of `c`. -/
def FitsChar (c : BitVec 32) : Prop :=
  (c.setWidth 8).signExtend 32 = c

/-- `(unsigned char)c` is in the range of `c`. -/
def FitsByte (c : BitVec 32) : Prop :=
  (c.setWidth 8).setWidth 32 = c

instance : DecidablePred FitsChar := fun c =>
  inferInstanceAs (Decidable ((c.setWidth 8).signExtend 32 = c))

instance : DecidablePred FitsByte := fun c =>
  inferInstanceAs (Decidable ((c.setWidth 8).setWidth 32 = c))

section Conversion

variable {c : BitVec 32} {x : BitVec 8}

theorem setWidth_signExtend (x : BitVec 8) : (x.signExtend 32).setWidth 8 = x := by
  apply BitVec.eq_of_getLsbD_eq
  intro i hi
  have hlt : i < 32 := Nat.lt_trans hi (by decide)
  rw [BitVec.getLsbD_setWidth, BitVec.getLsbD_signExtend, if_pos hi, decide_eq_true hi,
    decide_eq_true hlt, Bool.true_and, Bool.true_and]

theorem signExtend_eq_iff (h : FitsChar c) : x.signExtend 32 = c ↔ x = c.setWidth 8 := by
  constructor
  · rintro rfl
    exact (setWidth_signExtend x).symm
  · rintro rfl
    exact h

theorem signExtend_ne (h : ¬ FitsChar c) (x : BitVec 8) : x.signExtend 32 ≠ c := by
  intro heq
  apply h
  rw [FitsChar, ← heq, setWidth_signExtend]

theorem setWidth_eq_iff (h : FitsByte c) : x.setWidth 32 = c ↔ x = c.setWidth 8 := by
  constructor
  · rintro rfl
    rw [BitVec.setWidth_setWidth_of_le _ (by decide : 8 ≤ 32), BitVec.setWidth_eq]
  · rintro rfl
    exact h

theorem setWidth_ne (h : ¬ FitsByte c) (x : BitVec 8) : x.setWidth 32 ≠ c := by
  intro heq
  apply h
  rw [FitsByte, ← heq, BitVec.setWidth_setWidth_of_le _ (by decide : 8 ≤ 32), BitVec.setWidth_eq]

end Conversion

section Exact

variable {mem : ByteMem} {s s1 s2 c n : BitVec 32} {chars chars1 chars2 : List (BitVec 8)}

/-- The character is none of a string, its terminator included. -/
theorem forall_getD_ne_iff {x : BitVec 8} :
    (∀ i < chars.length + 1, ¬ chars.getD i 0#8 = x) ↔ x ≠ 0#8 ∧ x ∉ chars := by
  constructor
  · intro h
    constructor
    · intro hx
      apply h chars.length (Nat.lt_succ_self _)
      rw [List.getD_eq_default _ _ (Nat.le_refl _), hx]
    · intro hmem
      obtain ⟨i, hi, heq⟩ := List.getElem_of_mem hmem
      apply h i (Nat.lt_succ_of_lt hi)
      rw [List.getD_eq_getElem _ _ hi, heq]
  · rintro ⟨hx, hnot⟩ i hi heq
    rcases Nat.lt_succ_iff_lt_or_eq.mp hi with hlt | rfl
    · rw [List.getD_eq_getElem _ _ hlt] at heq
      exact hnot (heq ▸ List.getElem_mem hlt)
    · rw [List.getD_eq_default _ _ (Nat.le_refl _)] at heq
      exact hx heq.symm

theorem strchr_finds_iff (hs : CStringAt mem s chars) (hnull : s ≠ 0#32) (c : BitVec 32) :
    CallFinds (fun fuel => strchr s c fuel ⟨mem, []⟩) mem
        (fun r => FirstAt s r (chars.length + 1) fun i => chars.getD i 0#8 = c.setWidth 8)
        (InString s chars) ↔
      FitsChar c ∨ c.setWidth 8 ≠ 0#8 ∧ c.setWidth 8 ∉ chars := by
  apply (strchr_finds hs c).iff_of
  intro r hr
  by_cases hc : FitsChar c
  · exact iff_of_true ((firstAt_congr fun i _ => signExtend_eq_iff hc).mp hr) (.inl hc)
  · obtain rfl : r = 0#32 := hr.eq_null fun i _ => signExtend_ne hc _
    rw [firstAt_null hnull hs.fits, forall_getD_ne_iff, or_iff_right hc]

theorem strrchr_finds_iff (hs : CStringAt mem s chars) (hnull : s ≠ 0#32) (c : BitVec 32) :
    CallFinds (fun fuel => strrchr s c fuel ⟨mem, []⟩) mem
        (fun r => LastAt s r (chars.length + 1) fun i => chars.getD i 0#8 = c.setWidth 8)
        (InString s chars) ↔
      FitsChar c ∧ c ≠ 0#32 ∨ c.setWidth 8 ≠ 0#8 ∧ c.setWidth 8 ∉ chars := by
  apply (strrchr_finds hs c).iff_of
  intro r hr
  have hnone : (∀ i < chars.length, ¬ (chars.getD i 0#8).signExtend 32 = c) → r = 0#32 := hr.eq_null
  by_cases hc : FitsChar c
  · by_cases hzero : c = 0#32
    · -- no character is zero, and the terminator is not looked at
      subst hzero
      obtain rfl : r = 0#32 := hnone fun i hi heq => by
        rw [List.getD_eq_getElem _ _ hi] at heq
        exact hs.nonzero _ (List.getElem_mem hi) ((signExtend_eq_iff hc).mp heq)
      rw [lastAt_null hnull hs.fits, forall_getD_ne_iff, or_iff_right (fun h => h.2 rfl)]
    · refine iff_of_true ?_ (.inl ⟨hc, hzero⟩)
      apply (lastAt_congr fun i _ => signExtend_eq_iff hc).mp
      apply hr.succ.2
      rw [List.getD_eq_default _ _ (Nat.le_refl _)]
      exact fun heq => hzero heq.symm
  · obtain rfl : r = 0#32 := hnone fun i _ => signExtend_ne hc _
    rw [lastAt_null hnull hs.fits, forall_getD_ne_iff, or_iff_right (fun h => hc h.1)]

theorem memchr_finds_iff (hnull : s ≠ 0#32) (hfits : s.toNat + n.toNat ≤ 2 ^ 32) (c : BitVec 32) :
    CallFinds (fun fuel => memchr s c n fuel ⟨mem, []⟩) mem
        (fun r => FirstAt s r n.toNat fun i => mem (s + BitVec.ofNat 32 i) = c.setWidth 8)
        (fun q => ∃ i < n.toNat, q = s + BitVec.ofNat 32 i) ↔
      FitsByte c ∨ ∀ i < n.toNat, mem (s + BitVec.ofNat 32 i) ≠ c.setWidth 8 := by
  apply (memchr_finds mem s c n).iff_of
  intro r hr
  by_cases hc : FitsByte c
  · exact iff_of_true ((firstAt_congr fun i _ => setWidth_eq_iff hc).mp hr) (.inl hc)
  · obtain rfl : r = 0#32 := hr.eq_null fun i _ => setWidth_ne hc _
    rw [firstAt_null hnull hfits, or_iff_right hc]

/-- What the searching functions do with a character `c` on the string at `s` and the `n` bytes at
    `p`, and on the two strings at `s1` and `s2`. -/
structure SearchesStrings (mem : ByteMem) (s : BitVec 32) (chars : List (BitVec 8))
    (p n c s1 : BitVec 32) (chars1 : List (BitVec 8)) (s2 : BitVec 32) (chars2 : List (BitVec 8)) :
    Prop where
  strchr : CallFinds (fun fuel => strchr s c fuel ⟨mem, []⟩) mem
    (fun r => FirstAt s r (chars.length + 1) fun i => chars.getD i 0#8 = c.setWidth 8)
    (InString s chars)
  strrchr : CallFinds (fun fuel => strrchr s c fuel ⟨mem, []⟩) mem
    (fun r => LastAt s r (chars.length + 1) fun i => chars.getD i 0#8 = c.setWidth 8)
    (InString s chars)
  memchr : CallFinds (fun fuel => memchr p c n fuel ⟨mem, []⟩) mem
    (fun r => FirstAt p r n.toNat fun i => mem (p + BitVec.ofNat 32 i) = c.setWidth 8)
    (fun q => ∃ i < n.toNat, q = p + BitVec.ofNat 32 i)
  strspn : CallFinds (fun fuel => strspn s1 s2 fuel ⟨mem, []⟩) mem
    (fun r => r = BitVec.ofNat 32 (spanIn chars1 chars2)) (InStrings s1 chars1 s2 chars2)
  strcspn : CallFinds (fun fuel => strcspn s1 s2 fuel ⟨mem, []⟩) mem
    (fun r => r = BitVec.ofNat 32 (spanNotIn chars1 chars2)) (InStrings s1 chars1 s2 chars2)
  strpbrk : CallFinds (fun fuel => strpbrk s1 s2 fuel ⟨mem, []⟩) mem
    (fun r => r = if spanNotIn chars1 chars2 = chars1.length then 0#32
      else s1 + BitVec.ofNat 32 (spanNotIn chars1 chars2))
    (InStrings s1 chars1 s2 chars2)

theorem string_search_iff {p : BitVec 32} (hs : CStringAt mem s chars) (hsnull : s ≠ 0#32)
    (hpnull : p ≠ 0#32) (hp : p.toNat + n.toNat ≤ 2 ^ 32) (h1 : CStringAt mem s1 chars1)
    (h2 : CStringAt mem s2 chars2) (c : BitVec 32) :
    SearchesStrings mem s chars p n c s1 chars1 s2 chars2 ↔
      (FitsChar c ∧ c ≠ 0#32 ∨ c.setWidth 8 ≠ 0#8 ∧ c.setWidth 8 ∉ chars) ∧
        (FitsByte c ∨ ∀ i < n.toNat, mem (p + BitVec.ofNat 32 i) ≠ c.setWidth 8) := by
  constructor
  · intro h
    exact ⟨(strrchr_finds_iff hs hsnull c).mp h.strrchr,
      (memchr_finds_iff hpnull hp c).mp h.memchr⟩
  · rintro ⟨hchar, hbyte⟩
    constructor
    · apply (strchr_finds_iff hs hsnull c).mpr
      rcases hchar with ⟨hc, -⟩ | hnot
      · exact .inl hc
      · exact .inr hnot
    · exact (strrchr_finds_iff hs hsnull c).mpr hchar
    · exact (memchr_finds_iff hpnull hp c).mpr hbyte
    · exact strspn_finds h1 h2
    · exact strcspn_finds h1 h2
    · exact strpbrk_finds h1 h2

end Exact

/-- The string `"a"` at 100, with a byte above 127 behind the letter. -/
def latin : ByteMem := put (fun _ => 0#8) 100#32 [97#8, 228#8]

theorem latin_string : CStringAt latin 100#32 [97#8, 228#8] where
  fits := by decide
  nonzero := by decide
  bytes := by decide

/-- The letter is searched. -/
theorem string_search_iff_letter :
    SearchesStrings latin 100#32 [97#8, 228#8] 100#32 2#32 97#32 100#32 [97#8, 228#8] 100#32
      [97#8, 228#8] :=
  (string_search_iff latin_string (by decide) (by decide) (by decide) latin_string latin_string
    97#32).mpr ⟨.inl ⟨by decide, by decide⟩, .inl (by decide)⟩

/-- The byte above 127 is searched as 228, and the terminator as 0. -/
theorem string_search_misses :
    ¬ SearchesStrings latin 100#32 [97#8, 228#8] 100#32 2#32 228#32 100#32 [97#8, 228#8] 100#32
        [97#8, 228#8] ∧
      ¬ SearchesStrings latin 100#32 [97#8, 228#8] 100#32 2#32 0#32 100#32 [97#8, 228#8] 100#32
        [97#8, 228#8] := by
  constructor
  · intro h
    have hcond := (strchr_finds_iff latin_string (by decide) 228#32).mp h.strchr
    exact absurd hcond (by decide)
  · intro h
    have hcond := (strrchr_finds_iff latin_string (by decide) 0#32).mp h.strrchr
    exact absurd hcond (by decide)

end Muse.Libc
