import Muse.Libc.String
import Muse.Library.CopyRun
import Muse.Library.Fuel

/-!
# Copies of byte ranges

`memcpy` copies upwards, which is right for a destination below its source. The other loop of
`memmove` copies downwards, from the byte behind the range to the second byte of it: the first byte
is not copied, and the byte behind the destination is overwritten.
-/

namespace Muse.Libc

open Library

/-- The `n` bytes at `s2` were moved to `s1`, and nothing else has changed. -/
structure Moved (mem : ByteMem) (s1 s2 n : BitVec 32) (mem' : ByteMem) : Prop where
  dst : ∀ i < n.toNat, mem' (s1 + BitVec.ofNat 32 i) = mem (s2 + BitVec.ofNat 32 i)
  other : ∀ p, (∀ i < n.toNat, p ≠ s1 + BitVec.ofNat 32 i) → mem' p = mem p

section Loop

variable {dst src : BitVec 32 → BitVec 32} {n : BitVec 32}

theorem copyLoop_returns (dst src : BitVec 32 → BitVec 32) (n : BitVec 32) (a : Access) :
    ∃ b, Returns (fun fuel => copyLoop dst src n fuel 0#32 a) b ∧
      b.mem = copyRun (fun i => dst (BitVec.ofNat 32 i)) (fun i => src (BitVec.ofNat 32 i)) a.mem
        n.toNat := by
  have hn : n.toNat < 2 ^ 32 := n.isLt
  let run := copyRun (fun i => dst (BitVec.ofNat 32 i)) (fun i => src (BitVec.ofNat 32 i)) a.mem
  apply loop_returns (fun fuel s => copyLoop dst src n fuel s.1 s.2) n.toNat
    (fun j (s : BitVec 32 × Access) => s.1 = BitVec.ofNat 32 j ∧ s.2.mem = run j)
    (fun b => b.mem = run n.toNat) _ _ (0#32, a) ⟨rfl, rfl⟩
  · rintro j hj ⟨i, c⟩ ⟨hi, hmem⟩
    refine ⟨(i + 1#32, c.copy (dst i) (src i)), ⟨?_, ?_⟩, ?_⟩
    · show i + 1#32 = _
      rw [show i = BitVec.ofNat 32 j from hi, ofNat_succ]
    · show Function.update c.mem (dst i) (c.mem (src i)) = copyRun _ _ _ (j + 1)
      rw [show c.mem = run j from hmem, show i = BitVec.ofNat 32 j from hi]
      rfl
    · intro fuel
      have hlt : i < n := by
        rw [show i = BitVec.ofNat 32 j from hi]
        exact (ofNat_lt_iff (by omega)).mpr hj
      show (if i < n then _ else _) = _
      rw [if_pos hlt]
  · rintro ⟨i, c⟩ ⟨hi, hmem⟩
    refine ⟨c, hmem, fun fuel => ?_⟩
    have hge : ¬ i < n := by
      rw [show i = BitVec.ofNat 32 n.toNat from hi, ofNat_lt_iff hn]
      exact Nat.lt_irrefl _
    show (if i < n then _ else _) = _
    rw [if_neg hge]

end Loop

variable {mem mem' : ByteMem} {s1 s2 n : BitVec 32}

/-- A copy upwards to a lower address. -/
theorem copyRun_up (h1 : s1.toNat + n.toNat ≤ 2 ^ 32) (h2 : s2.toNat + n.toNat ≤ 2 ^ 32)
    (hle : s1.toNat ≤ s2.toNat) :
    Moved mem s1 s2 n
      (copyRun (fun i => s1 + BitVec.ofNat 32 i) (fun i => s2 + BitVec.ofNat 32 i) mem
        n.toNat) where
  dst := by
    intro i hi
    apply copyRun_dst (fun i => s1 + BitVec.ofNat 32 i)
      (fun i => s2 + BitVec.ofNat 32 i) _ _ hi
    · intro j k hjk hk
      exact add_ofNat_ne (by omega) (by omega) (by omega)
    · intro j k hjk hk
      exact add_ofNat_ne (by omega) (by omega) (by omega)
  other := fun _ hp => copyRun_other hp

theorem memcpy_returns (s1 s2 n : BitVec 32) (a : Access) :
    ∃ b, Returns (fun fuel => memcpy s1 s2 n fuel a) (s1, b) ∧
      b.mem = copyRun (fun i => s1 + BitVec.ofNat 32 i) (fun i => s2 + BitVec.ofNat 32 i) a.mem
        n.toNat := by
  obtain ⟨b, hb, hmem⟩ := copyLoop_returns (fun i => s1 + i) (fun i => s2 + i) n a
  exact ⟨b, hb.bind (fun b _ => some (s1, b)) ⟨0, fun _ _ => rfl⟩, hmem⟩

section Down

/-- The index that round `i` of the downward copy uses. -/
theorem sub_ofNat {i : Nat} (hi : i ≤ n.toNat) :
    n - BitVec.ofNat 32 i = BitVec.ofNat 32 (n.toNat - i) := by
  have := n.isLt
  apply BitVec.eq_of_toNat_eq
  rw [BitVec.toNat_sub, BitVec.toNat_ofNat, BitVec.toNat_ofNat]
  omega

variable (h1 : s1.toNat + n.toNat ≤ 2 ^ 32) (hlt : s2.toNat < s1.toNat)
  (hmem : mem' = copyRun (fun i => s1 + (n - BitVec.ofNat 32 i))
    (fun i => s2 + (n - BitVec.ofNat 32 i)) mem n.toNat)

include h1 hlt hmem in
/-- The bytes with the indices from 1 to `n` are copied. -/
theorem copyRun_down {k : Nat} (hk : 1 ≤ k) (hkn : k ≤ n.toNat) :
    mem' (s1 + BitVec.ofNat 32 k) = mem (s2 + BitVec.ofNat 32 k) := by
  have hi : n.toNat - k < n.toNat := by omega
  have hrun := copyRun_dst (fun i => s1 + (n - BitVec.ofNat 32 i))
    (fun i => s2 + (n - BitVec.ofNat 32 i)) (m := mem) (n := n.toNat) ?_ ?_ hi
  · rw [← hmem] at hrun
    rwa [sub_ofNat (by omega), show n.toNat - (n.toNat - k) = k by omega] at hrun
  · intro i j hij hj
    rw [sub_ofNat (by omega), sub_ofNat (by omega), Ne, ← BitVec.toNat_inj, BitVec.toNat_add,
      BitVec.toNat_add, BitVec.toNat_ofNat, BitVec.toNat_ofNat]
    omega
  · intro i j hij hj
    rw [sub_ofNat (by omega), sub_ofNat (by omega)]
    intro heq
    have := add_ofNat_inj (by omega) (by omega) heq
    omega

include hmem in
/-- No other byte is changed. -/
theorem copyRun_down_other {p : BitVec 32}
    (h : ∀ k, 1 ≤ k → k ≤ n.toNat → p ≠ s1 + BitVec.ofNat 32 k) : mem' p = mem p := by
  rw [hmem]
  apply copyRun_other
  intro i hi
  rw [sub_ofNat (by omega)]
  exact h _ (by omega) (by omega)

include h1 hlt hmem

/-- The downward copy moves the range exactly if the two bytes that it gets wrong happen to be
    right. -/
theorem copyRun_down_moved_iff : Moved mem s1 s2 n mem' ↔
    n = 0#32 ∨ mem s1 = mem s2 ∧ mem (s1 + n) = mem (s2 + n) := by
  have hn : BitVec.ofNat 32 n.toNat = n := by simp
  have hn' := n.isLt
  have hfirst : mem' s1 = mem s1 := by
    apply copyRun_down_other hmem
    intro k hk hkn heq
    have h0 : s1 + BitVec.ofNat 32 0 = s1 + BitVec.ofNat 32 k := by
      rw [← heq]
      exact BitVec.add_zero s1
    have := add_ofNat_inj (by omega) (by omega) h0
    omega
  constructor
  · intro hmoved
    by_cases hzero : n = 0#32
    · exact .inl hzero
    · have hpos : 0 < n.toNat := Nat.pos_of_ne_zero fun h => hzero (BitVec.eq_of_toNat_eq h)
      refine .inr ⟨?_, ?_⟩
      · have hdst := hmoved.dst 0 hpos
        rw [BitVec.add_zero, BitVec.add_zero] at hdst
        rw [← hfirst, hdst]
      · have hdst := copyRun_down h1 hlt hmem hpos (Nat.le_refl _)
        rw [hn] at hdst
        rw [← hdst]
        symm
        apply hmoved.other
        intro i hi heq
        rw [← hn] at heq
        have := add_ofNat_inj (by omega) (by omega) heq
        omega
  · rintro (rfl | ⟨hbyte, hbehind⟩)
    · have hsame : mem' = mem := hmem
      exact ⟨fun i hi => absurd hi (Nat.not_lt_zero i), fun _ _ => by rw [hsame]⟩
    · refine ⟨fun i hi => ?_, fun p hp => ?_⟩
      · cases i with
        | zero =>
          rw [BitVec.add_zero, BitVec.add_zero, hfirst]
          exact hbyte
        | succ i => exact copyRun_down h1 hlt hmem (Nat.succ_pos i) (Nat.le_of_lt hi)
      · by_cases heq : p = s1 + n
        · rw [heq, hbehind]
          have hdst := copyRun_down (k := n.toNat) h1 hlt hmem
          rw [hn] at hdst
          by_cases hpos : 1 ≤ n.toNat
          · exact hdst hpos (Nat.le_refl _)
          · rw [← hbehind]
            apply copyRun_down_other hmem
            intro k hk hkn
            omega
        · apply copyRun_down_other hmem
          intro k hk hkn
          rcases Nat.lt_or_eq_of_le hkn with hlt | rfl
          · exact hp k hlt
          · rwa [hn]

end Down

theorem memmove_of_le (hle : s1 ≤ s2) (a : Access) :
    ∃ b, Returns (fun fuel => memmove s1 s2 n fuel a) (s1, b) ∧
      b.mem = copyRun (fun i => s1 + BitVec.ofNat 32 i) (fun i => s2 + BitVec.ofNat 32 i) a.mem
        n.toNat := by
  have hcall : (fun fuel => memmove s1 s2 n fuel a) = fun fuel => memcpy s1 s2 n fuel a := by
    funext fuel
    rw [memmove, if_pos hle]
  rw [hcall]
  exact memcpy_returns s1 s2 n a

theorem memmove_of_not_le (hle : ¬ s1 ≤ s2) (a : Access) :
    ∃ b, Returns (fun fuel => memmove s1 s2 n fuel a) (s1, b) ∧
      b.mem = copyRun (fun i => s1 + (n - BitVec.ofNat 32 i))
        (fun i => s2 + (n - BitVec.ofNat 32 i)) a.mem n.toNat := by
  obtain ⟨b, hb, hmem⟩ := copyLoop_returns (fun i => s1 + (n - i)) (fun i => s2 + (n - i)) n a
  have hcall : (fun fuel => memmove s1 s2 n fuel a) = fun fuel =>
      (copyLoop (fun i => s1 + (n - i)) (fun i => s2 + (n - i)) n fuel 0#32 a).bind fun b =>
        some (s1, b) := by
    funext fuel
    rw [memmove, if_neg hle]
    rfl
  rw [hcall]
  exact ⟨b, hb.bind (fun b _ => some (s1, b)) ⟨0, fun _ _ => rfl⟩, hmem⟩

/-- `memmove` returns its first argument and has moved the range. -/
def MemmoveMoves (mem : ByteMem) (s1 s2 n : BitVec 32) : Prop :=
  ∃ a, Returns (fun fuel => memmove s1 s2 n fuel ⟨mem, []⟩) (s1, a) ∧ Moved mem s1 s2 n a.mem

theorem memmove_moves_iff (mem : ByteMem) (s1 s2 n : BitVec 32)
    (h1 : s1.toNat + n.toNat ≤ 2 ^ 32) (h2 : s2.toNat + n.toNat ≤ 2 ^ 32) :
    MemmoveMoves mem s1 s2 n ↔
      s1 ≤ s2 ∨ n = 0#32 ∨ mem s1 = mem s2 ∧ mem (s1 + n) = mem (s2 + n) := by
  by_cases hle : s1 ≤ s2
  · obtain ⟨b, hb, hmem⟩ := memmove_of_le (n := n) hle ⟨mem, []⟩
    refine ⟨fun _ => .inl hle, fun _ => ⟨b, hb, ?_⟩⟩
    rw [hmem]
    exact copyRun_up h1 h2 (BitVec.le_def.mp hle)
  · obtain ⟨b, hb, hmem⟩ := memmove_of_not_le (n := n) hle ⟨mem, []⟩
    have hlt : s2.toNat < s1.toNat := Nat.lt_of_not_le fun h => hle (BitVec.le_def.mpr h)
    have hiff := copyRun_down_moved_iff h1 hlt hmem
    constructor
    · rintro ⟨a, ha, hmoved⟩
      have heq : a = b := congrArg Prod.snd (ha.unique hb)
      rw [heq] at hmoved
      exact .inr (hiff.mp hmoved)
    · rintro (hle' | hcond)
      · exact absurd hle' hle
      · exact ⟨b, hb, hiff.mpr hcond⟩

/-- Three bytes that are moved down by one. -/
theorem memmove_moves_iff_down : MemmoveMoves (fun a => a.setWidth 8) 100#32 101#32 3#32 :=
  (memmove_moves_iff (fun a => a.setWidth 8) 100#32 101#32 3#32 (by decide) (by decide)).mpr
    (.inl (by decide))

/-- Two bytes that are moved up by one. -/
theorem memmove_up_by_one : ¬ MemmoveMoves (fun a => a.setWidth 8) 101#32 100#32 2#32 := by
  rintro ⟨a, ha, hmoved⟩
  obtain ⟨b, hb, hmem⟩ := memmove_of_not_le (show ¬ 101#32 ≤ 100#32 by decide)
    (n := 2#32) ⟨fun a => a.setWidth 8, []⟩
  have heq : a = b := congrArg Prod.snd (ha.unique hb)
  rw [heq] at hmoved
  rcases (copyRun_down_moved_iff (by decide) (by decide) hmem).mp hmoved with hzero | ⟨hbyte, -⟩
  · exact absurd hzero (by decide)
  · exact absurd hbyte (by decide)

end Muse.Libc
