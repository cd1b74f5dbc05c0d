import Muse.Library.Bytes
import Muse.Library.PagedBytes
import Muse.Paging.Proofs.Within

/-!
# The stack of a new task

`create_task_directory` fills a new stack from its base down. The base is an odd address, so the
words of the initial frame lie across the words of the page, and the page is taken as a buffer of
bytes.
-/

namespace Muse.Paging

open Muse.Library

namespace Vm

/-- The bytes of a frame, the lowest byte of a word first. -/
def bytesOf (s : Vm) (f : BitVec 20) : Bytes :=
  fun o => (s.space.mem f (BitVec.ofNat 10 (o / 4))).extractLsb' (8 * (o % 4)) 8

/-- What `context_switch` takes off the stack of a new task, from its base down. -/
def initialFrame (funcPtr : BitVec 32) : List (BitVec 32) :=
  [funcPtr, 0#32, 0#32, 0#32, taskStackBase]

/-- The frame holds the initial frame of a task below the offset of `TASK_STACK_BASE`. -/
def HoldsFrame (s : Vm) (f : BitVec 20) (funcPtr : BitVec 32) : Prop :=
  ∀ i w, (initialFrame funcPtr)[i]? = some w → (s.bytesOf f).word32 (0xFFF - 4 * (i + 1)) = w

theorem HoldsFrame.congr {s s' : Vm} {f : BitVec 20} {funcPtr : BitVec 32}
    (h : s.HoldsFrame f funcPtr) (hm : ∀ k, s'.space.mem f k = s.space.mem f k) :
    s'.HoldsFrame f funcPtr := by
  intro i w hi
  rw [← h i w hi]
  refine Bytes.word32_congr fun j _ => ?_
  rw [bytesOf, bytesOf, hm]

section Fills

variable {s₀ s : Vm} (h₀ : s₀.Ready) (hw : Within s₀ s) {f : BitVec 20}
  (hf : f ∈ s₀.freePages)

include h₀ hw hf

theorem Within.storeByte {v : BitVec 32} (hv : s.space.frameOf v = some f) (b : BitVec 8) :
    ∃ s', s.storeByte v b = some s' ∧ Fills s₀ s s' f ∧
      ∀ o < 4096, s'.bytesOf f o = if o = v.toNat % 4096 then b else s.bytesOf f o := by
  refine ⟨s.write f (wordIdx v) ((s.space.mem f (wordIdx v) &&&
    ~~~(0xFF#32 <<< (8 * (v.toNat % 4)))) ||| (b.setWidth 32 <<< (8 * (v.toNat % 4)))), ?_,
    hw.fills_write h₀ hf _ _, fun o ho => ?_⟩
  · simp only [Vm.storeByte, Space.storeByte, hv, Option.map_some]
    rfl
  · have hidx : BitVec.ofNat 10 (o / 4) = wordIdx v ↔ o / 4 = v.toNat % 4096 / 4 := by
      rw [← BitVec.toNat_inj, wordIdx_toNat, BitVec.toNat_ofNat]
      omega
    rw [bytesOf, write_mem]
    by_cases hword : BitVec.ofNat 10 (o / 4) = wordIdx v
    · rw [hword, PhysMem.write_self, byte_replace _ _ (by omega) (by omega), bytesOf, hword]
      have hiff : o % 4 = v.toNat % 4 ↔ o = v.toNat % 4096 := by
        rw [hidx] at hword
        omega
      simp only [hiff]
    · rw [PhysMem.write_of_ne _ _ fun _ => hword, if_neg, bytesOf]
      rintro rfl
      exact hword (hidx.mpr rfl)

/-- A word that lies on one page. -/
theorem Within.storeUnaligned {v : BitVec 32} (x : BitVec 32)
    (hv : s.space.frameOf v = some f) (hpage : v.toNat % 4096 + 4 ≤ 4096) :
    ∃ s', s.storeUnaligned v x = some s' ∧ Fills s₀ s s' f ∧
      ∀ o < 4096, s'.bytesOf f o = (s.bytesOf f).setWord32 (v.toNat % 4096) x o := by
  have hv' : ∀ j : BitVec 32, j ≤ 3#32 →
      s.space.frameOf (v + j) = some f ∧ (v + j).toNat % 4096 = v.toNat % 4096 + j.toNat := by
    intro j hj
    have hvlt := v.isLt
    simp only [BitVec.le_def, BitVec.toNat_ofNat] at hj
    have hadd : (v + j).toNat = v.toNat + j.toNat := by
      rw [BitVec.toNat_add]
      omega
    refine ⟨?_, by omega⟩
    rw [Space.frameOf_congr (w := v), hv]
    apply BitVec.eq_of_toNat_eq
    rw [pageOf_toNat, pageOf_toNat, hadd]
    omega
  obtain ⟨s₁, hs₁, h₁, hb₁⟩ := hw.storeByte h₀ hf hv (x.extractLsb' 0 8)
  obtain ⟨hv₁, ho₁⟩ := hv' 1#32 (by decide)
  obtain ⟨s₂, hs₂, h₂, hb₂⟩ := h₁.within.storeByte h₀ hf ((h₁.maps _).trans hv₁)
    (x.extractLsb' 8 8)
  obtain ⟨hv₂, ho₂⟩ := hv' 2#32 (by decide)
  obtain ⟨s₃, hs₃, h₃, hb₃⟩ := h₂.within.storeByte h₀ hf (((h₁.trans h₂).maps _).trans hv₂)
    (x.extractLsb' 16 8)
  obtain ⟨hv₃, ho₃⟩ := hv' 3#32 (by decide)
  obtain ⟨s₄, hs₄, h₄, hb₄⟩ := h₃.within.storeByte h₀ hf
    ((((h₁.trans h₂).trans h₃).maps _).trans hv₃) (x.extractLsb' 24 8)
  refine ⟨s₄, ?_, ((h₁.trans h₂).trans h₃).trans h₄, fun o ho => ?_⟩
  · simp only [Vm.storeUnaligned, hs₁, hs₂, hs₃, hs₄, Option.bind_eq_bind, Option.bind_some]
  · rw [hb₄ o ho, hb₃ o ho, hb₂ o ho, hb₁ o ho, ho₁, ho₂, ho₃]
    by_cases hin : v.toNat % 4096 ≤ o ∧ o < v.toNat % 4096 + 4
    · rw [Bytes.setWord32, Bytes.splice_of_mem hin.1 hin.2]
      obtain h0 | h1 | h2 | h3 : o = v.toNat % 4096 ∨ o = v.toNat % 4096 + 1 ∨
          o = v.toNat % 4096 + 2 ∨ o = v.toNat % 4096 + 3 := by omega
      · simp [h0]
      · simp [h1]
      · simp [h2]
      · simp [h3]
    · rw [Bytes.setWord32, Bytes.splice_of_not_mem (by omega)]
      simp only [BitVec.toNat_ofNat]
      rw [if_neg (by omega), if_neg (by omega), if_neg (by omega), if_neg (by omega)]

omit h₀ hw hf in
/-- The words of a new stack lie on its page. -/
theorem stackWord (W : BitVec 20) {c : BitVec 32} (hc : 4#32 ≤ c) (hc' : c ≤ 20#32) :
    pageOf (pageAddr W + taskStackBase % pageSize - c) = W ∧
      (pageAddr W + taskStackBase % pageSize - c).toNat % 4096 = 0xFFF - c.toNat := by
  have hW := W.isLt
  have hbase : taskStackBase % pageSize = 0xFFF#32 := by decide
  rw [hbase]
  simp only [BitVec.le_def, BitVec.toNat_ofNat] at hc hc'
  have hv : (pageAddr W + 0xFFF#32 - c).toNat = 4096 * W.toNat + (0xFFF - c.toNat) := by
    rw [BitVec.toNat_sub, BitVec.toNat_add, pageAddr_toNat, BitVec.toNat_ofNat]
    omega
  refine ⟨?_, by omega⟩
  apply BitVec.eq_of_toNat_eq
  rw [pageOf_toNat, hv]
  omega

/-- One word of a new stack. -/
theorem Within.storeStack {W : BitVec 20} (hW : s.space.frameOf (pageAddr W) = some f)
    {c : BitVec 32} (hc : 4#32 ≤ c) (hc' : c ≤ 20#32) (x : BitVec 32) :
    ∃ s', s.storeUnaligned (pageAddr W + taskStackBase % pageSize - c) x = some s' ∧
      Fills s₀ s s' f ∧ (s'.bytesOf f).word32 (0xFFF - c.toNat) = x ∧
      ∀ a, 0xFFF - c.toNat + 4 ≤ a → a + 4 ≤ 4096 →
        (s'.bytesOf f).word32 a = (s.bytesOf f).word32 a := by
  obtain ⟨hpage, hoff⟩ := stackWord W hc hc'
  simp only [BitVec.le_def, BitVec.toNat_ofNat] at hc hc'
  have hv : s.space.frameOf (pageAddr W + taskStackBase % pageSize - c) = some f := by
    rw [Space.frameOf_congr (hpage.trans (frame_pageAddr W).symm), hW]
  obtain ⟨s', hs', hfill, hbytes⟩ := hw.storeUnaligned h₀ hf x hv (by omega)
  rw [hoff] at hbytes
  have hword : ∀ a, a + 4 ≤ 4096 → (s'.bytesOf f).word32 a =
      ((s.bytesOf f).setWord32 (0xFFF - c.toNat) x).word32 a := fun a ha =>
    Bytes.word32_congr fun i _ => hbytes _ (by omega)
  refine ⟨s', hs', hfill, ?_, fun a hlo ha => ?_⟩
  · rw [hword _ (by omega), Bytes.word32_setWord32_self]
  · rw [hword a ha, Bytes.word32_setWord32_of_apart _ (.inr hlo)]

/-- The initial frame is stored from the base of the stack down. -/
theorem Within.fillStack {W : BitVec 20} (hW : s.space.frameOf (pageAddr W) = some f)
    (funcPtr : BitVec 32) :
    ∃ s', s.fillStack (pageAddr W + taskStackBase % pageSize) funcPtr = some s' ∧
      Fills s₀ s s' f ∧ s'.HoldsFrame f funcPtr := by
  obtain ⟨s₁, hs₁, h₁, hx₁, -⟩ :=
    hw.storeStack h₀ hf hW (c := 4#32) (by decide) (by decide) funcPtr
  obtain ⟨s₂, hs₂, h₂, hx₂, hk₂⟩ :=
    h₁.within.storeStack h₀ hf ((h₁.maps _).trans hW) (c := 8#32) (by decide) (by decide) 0#32
  have h₁₂ := h₁.trans h₂
  obtain ⟨s₃, hs₃, h₃, hx₃, hk₃⟩ :=
    h₁₂.within.storeStack h₀ hf ((h₁₂.maps _).trans hW) (c := 12#32) (by decide) (by decide) 0#32
  have h₁₃ := h₁₂.trans h₃
  obtain ⟨s₄, hs₄, h₄, hx₄, hk₄⟩ :=
    h₁₃.within.storeStack h₀ hf ((h₁₃.maps _).trans hW) (c := 16#32) (by decide) (by decide) 0#32
  have h₁₄ := h₁₃.trans h₄
  obtain ⟨s₅, hs₅, h₅, hx₅, hk₅⟩ :=
    h₁₄.within.storeStack h₀ hf ((h₁₄.maps _).trans hW) (c := 20#32) (by decide) (by decide)
      taskStackBase
  refine ⟨s₅, ?_, h₁₄.trans h₅, fun i w hi => ?_⟩
  · simp only [Vm.fillStack, hs₁, hs₂, hs₃, hs₄, hs₅, Option.bind_eq_bind, Option.bind_some]
  · -- each word is kept by the stores below it
    simp only [BitVec.toNat_ofNat] at hx₁ hx₂ hx₃ hx₄ hx₅ hk₂ hk₃ hk₄ hk₅
    match i, hi with
    | 0, hi =>
        obtain rfl := Option.some.inj hi
        rw [hk₅ _ (by decide) (by decide), hk₄ _ (by decide) (by decide),
          hk₃ _ (by decide) (by decide), hk₂ _ (by decide) (by decide)]
        exact hx₁
    | 1, hi =>
        obtain rfl := Option.some.inj hi
        rw [hk₅ _ (by decide) (by decide), hk₄ _ (by decide) (by decide),
          hk₃ _ (by decide) (by decide)]
        exact hx₂
    | 2, hi =>
        obtain rfl := Option.some.inj hi
        rw [hk₅ _ (by decide) (by decide), hk₄ _ (by decide) (by decide)]
        exact hx₃
    | 3, hi =>
        obtain rfl := Option.some.inj hi
        rw [hk₅ _ (by decide) (by decide)]
        exact hx₄
    | 4, hi =>
        obtain rfl := Option.some.inj hi
        exact hx₅
    | n + 5, hi => cases hi

end Fills

end Vm

end Muse.Paging
