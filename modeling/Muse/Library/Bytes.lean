import Muse.Library.ByteMemory

/-!
# Byte buffers

Buffers of bytes that are addressed by natural numbers, such as a disk or a memory object. A span
of a buffer is cut out with `slice` and replaced with `splice`; words are stored lowest byte first.
-/

namespace Muse.Library

abbrev Bytes : Type := Nat → BitVec 8

namespace Bytes

/-- The `n` bytes from `a` on, as a buffer of their own. -/
def slice (m : Bytes) (a n : Nat) : Bytes := fun i => if i < n then m (a + i) else 0#8

/-- The buffer with the `n` bytes from `a` on replaced by the first ones of `b`. -/
def splice (m : Bytes) (a n : Nat) (b : Bytes) : Bytes :=
  fun i => if a ≤ i ∧ i < a + n then b (i - a) else m i

def word16 (m : Bytes) (a : Nat) : BitVec 16 := m (a + 1) ++ m a

def word32 (m : Bytes) (a : Nat) : BitVec 32 := m (a + 3) ++ m (a + 2) ++ m (a + 1) ++ m a

/-- The buffer with the word at `a` replaced. -/
def setWord32 (m : Bytes) (a : Nat) (x : BitVec 32) : Bytes :=
  m.splice a 4 fun i => x.extractLsb' (8 * i) 8

variable {m m' b : Bytes} {a n i : Nat}

theorem slice_of_lt (h : i < n) : m.slice a n i = m (a + i) := by
  rw [slice, if_pos h]

theorem splice_of_mem (h : a ≤ i) (h' : i < a + n) : m.splice a n b i = b (i - a) := by
  rw [splice, if_pos ⟨h, h'⟩]

theorem splice_of_not_mem (h : i < a ∨ a + n ≤ i) : m.splice a n b i = m i := by
  rw [splice, if_neg]
  omega

@[simp] theorem splice_zero : m.splice a 0 b = m := by
  funext i
  exact splice_of_not_mem (by omega)

/-- A span that is written byte by byte: the first byte and the span behind it. -/
theorem splice_update (m : Bytes) (a n : Nat) (b : Bytes) :
    splice (Function.update m a (b 0)) (a + 1) n (fun i => b (i + 1)) = m.splice a (n + 1) b := by
  funext i
  rcases Nat.lt_trichotomy i a with hlt | rfl | hgt
  · rw [splice_of_not_mem (.inl (by omega)), splice_of_not_mem (.inl hlt),
      Function.update_of_ne (by omega)]
  · rw [splice_of_not_mem (.inl (by omega)), splice_of_mem (Nat.le_refl _) (by omega),
      Function.update_self, Nat.sub_self]
  · by_cases hn : i < a + (n + 1)
    · rw [splice_of_mem (by omega) (by omega), splice_of_mem (by omega) hn]
      congr 1
      omega
    · rw [splice_of_not_mem (.inr (by omega)), splice_of_not_mem (.inr (by omega)),
        Function.update_of_ne (by omega)]

/-- The bytes of the span itself, counted from its start. -/
theorem splice_add (h : i < n) : m.splice a n b (a + i) = b i := by
  rw [splice_of_mem (by omega) (by omega), Nat.add_sub_cancel_left]

theorem slice_congr (h : ∀ i < n, m' (a + i) = m (a + i)) : m'.slice a n = m.slice a n := by
  funext i
  unfold slice
  split
  next hi => exact h i hi
  next => rfl

theorem slice_slice {c k : Nat} (h : c + k ≤ n) : (m.slice a n).slice c k = m.slice (a + c) k := by
  funext i
  unfold slice
  by_cases hi : i < k
  · rw [if_pos hi, if_pos hi, if_pos (by omega), Nat.add_assoc]
  · rw [if_neg hi, if_neg hi]

theorem toNat_append_byte {w : Nat} (x : BitVec w) (b : BitVec 8) :
    (x ++ b).toNat = 2 ^ 8 * x.toNat + b.toNat := by
  rw [BitVec.toNat_append, ← Nat.shiftLeft_add_eq_or_of_lt b.isLt, Nat.shiftLeft_eq, Nat.mul_comm]

/-- A byte of a word that is shifted down. -/
theorem word32_shiftRight {k : Nat} (hk : k < 4) :
    (m.word32 a >>> (8 * k)).setWidth 8 = m (a + k) := by
  have h0 := (m a).isLt
  have h1 := (m (a + 1)).isLt
  have h2 := (m (a + 2)).isLt
  have h3 := (m (a + 3)).isLt
  apply BitVec.eq_of_toNat_eq
  rw [BitVec.toNat_setWidth, BitVec.toNat_ushiftRight, Nat.shiftRight_eq_div_pow, word32]
  simp only [toNat_append_byte]
  have hcases : k = 0 ∨ k = 1 ∨ k = 2 ∨ k = 3 := by omega
  rcases hcases with rfl | rfl | rfl | rfl
  · show _ = (m a).toNat
    omega
  all_goals omega

theorem word32_congr {a' : Nat} (h : ∀ i < 4, m' (a' + i) = m (a + i)) :
    m'.word32 a' = m.word32 a := by
  have h0 := h 0 (by decide)
  rw [Nat.add_zero, Nat.add_zero] at h0
  rw [word32, word32, h 3 (by decide), h 2 (by decide), h 1 (by decide), h0]

theorem word32_slice {c : Nat} (h : c + 4 ≤ n) : (m.slice a n).word32 c = m.word32 (a + c) :=
  word32_congr fun i hi => by rw [slice_of_lt (by omega), Nat.add_assoc]

theorem word32_splice {c : Nat} (h : c + 4 ≤ n) : (m.splice a n b).word32 (a + c) = b.word32 c :=
  word32_congr fun i hi => by rw [Nat.add_assoc, splice_add (by omega)]

@[simp] theorem word32_setWord32_self (x : BitVec 32) : (m.setWord32 a x).word32 a = x := by
  have hb : ∀ i < 4, m.setWord32 a x (a + i) = x.extractLsb' (8 * i) 8 := fun i hi =>
    splice_add hi
  have h0 := hb 0 (by decide)
  rw [Nat.add_zero] at h0
  rw [word32, hb 3 (by decide), hb 2 (by decide), hb 1 (by decide), h0]
  exact word_bytes x

theorem word32_setWord32_of_apart {c : Nat} (x : BitVec 32) (h : c + 4 ≤ a ∨ a + 4 ≤ c) :
    (m.setWord32 a x).word32 c = m.word32 c :=
  word32_congr fun i hi => splice_of_not_mem (by omega)

theorem word16_setWord32_of_apart {c : Nat} (x : BitVec 32) (h : c + 2 ≤ a ∨ a + 4 ≤ c) :
    (m.setWord32 a x).word16 c = m.word16 c := by
  unfold word16 setWord32
  rw [splice_of_not_mem (by omega), splice_of_not_mem (by omega)]

/-- A span that is cut out, changed and put back. -/
theorem splice_slice_splice {c k : Nat} (h : c + k ≤ n) :
    m.splice a n ((m.slice a n).splice c k b) = m.splice (a + c) k b := by
  funext i
  by_cases hin : a + c ≤ i ∧ i < a + c + k
  · rw [splice_of_mem (by omega) (by omega), splice_of_mem (by omega) (by omega),
      splice_of_mem (by omega) (by omega), show i - a - c = i - (a + c) by omega]
  · rw [splice_of_not_mem (by omega : i < a + c ∨ a + c + k ≤ i)]
    by_cases hout : a ≤ i ∧ i < a + n
    · rw [splice_of_mem hout.1 hout.2, splice_of_not_mem (by omega), slice_of_lt (by omega),
        show a + (i - a) = i by omega]
    · rw [splice_of_not_mem (by omega)]

/-- `m'` is `m` with the bytes at `addr k` replaced by `val k`, for `k` from `lo` up to `hi`. -/
structure Rewrites (addr : Nat → Nat) (lo hi : Nat) (val : Nat → BitVec 8) (m m' : Bytes) :
    Prop where
  new : ∀ k, lo ≤ k → k < hi → m' (addr k) = val k
  old : ∀ a, (∀ k, lo ≤ k → k < hi → a ≠ addr k) → m' a = m a

namespace Rewrites

variable {addr : Nat → Nat} {lo mid hi : Nat} {val : Nat → BitVec 8} {m'' : Bytes}

theorem refl : Rewrites addr lo lo val m m where
  new := fun _ hlo hhi => absurd hlo (Nat.not_le_of_lt hhi)
  old := fun _ _ => rfl

theorem trans (h : Rewrites addr lo mid val m m') (h' : Rewrites addr mid hi val m' m'')
    (hlo : lo ≤ mid) (hhi : mid ≤ hi)
    (hinj : ∀ j k, lo ≤ j → j < hi → lo ≤ k → k < hi → addr j = addr k → j = k) :
    Rewrites addr lo hi val m m'' where
  new := by
    intro k hk hk'
    by_cases hmid : k < mid
    · rw [h'.old (addr k), h.new k hk hmid]
      intro l hl hl' heq
      have := hinj k l hk hk' (Nat.le_trans hlo hl) hl' heq
      omega
    · exact h'.new k (Nat.le_of_not_lt hmid) hk'
  old := by
    intro a ha
    rw [h'.old a fun k hk hk' => ha k (Nat.le_trans hlo hk) hk',
      h.old a fun k hk hk' => ha k hk (Nat.lt_of_lt_of_le hk' hhi)]

/-- A span whose addresses are next to each other. -/
theorem splice {base : Nat} (hle : lo ≤ hi)
    (haddr : ∀ k, lo ≤ k → k < hi → addr k = base + (k - lo))
    (hval : ∀ k, lo ≤ k → k < hi → b (k - lo) = val k) :
    Rewrites addr lo hi val m (m.splice base (hi - lo) b) where
  new := by
    intro k hk hk'
    rw [haddr k hk hk', splice_add (by omega), hval k hk hk']
  old := by
    intro a ha
    refine splice_of_not_mem ?_
    by_contra hmem
    refine ha (lo + (a - base)) (by omega) (by omega) ?_
    rw [haddr _ (by omega) (by omega)]
    omega

end Rewrites

end Bytes

end Muse.Library
