import Muse.Term.LineBuffer
import Muse.Term.Proofs.Stdin

/-!
# The line buffer shows the end of what was typed

The buffer in memory and the abstract `Stdin` take the same steps: `LineBuffer.Denotes` relates
their lines character by character, and the copy of a scroll, which goes upwards, moves every line
as a whole. `Stdin.Holds` then says where the characters are, and `Stdin.Shaped` where the newlines
are.
-/

namespace Muse.Term

open Muse.Library

/-! ## Where the newlines are -/

/-- A line whose characters up to the last one are not newlines. -/
structure StdinLine.Complete (line : StdinLine) : Prop where
  ends : line.len = termBfrWidth ∨ 0 < line.len ∧ line.s (line.len - 1) = 0x0a#8
  inner : ∀ k, k + 1 < line.len → line.s k ≠ 0x0a#8

namespace Stdin

/-- The lines before the active one are complete, and the active one has no newline. -/
structure Shaped (t : Stdin) : Prop where
  earlier : ∀ i < t.activeLine, (t.lines i).Complete
  active : ∀ k < (t.lines t.activeLine).len, (t.lines t.activeLine).s k ≠ 0x0a#8

variable {t : Stdin} {typed : List (BitVec 8)} {c : BitVec 8}

theorem store_len : ((t.store c).lines t.activeLine).len = (t.lines t.activeLine).len + 1 := by
  rw [store_lines_active]

theorem store_char_last : ((t.store c).lines t.activeLine).s (t.lines t.activeLine).len = c := by
  rw [store_lines_active]
  exact Function.update_self ..

theorem store_char_of_ne {k : Nat} (hk : k ≠ (t.lines t.activeLine).len) :
    ((t.store c).lines t.activeLine).s k = (t.lines t.activeLine).s k := by
  rw [store_lines_active]
  exact Function.update_of_ne hk ..

/-- The active line with one more character. -/
theorem Shaped.store_inner (h : t.Shaped) {k : Nat}
    (hk : k + 1 < ((t.store c).lines t.activeLine).len) :
    ((t.store c).lines t.activeLine).s k ≠ 0x0a#8 := by
  rw [store_len] at hk
  have hk' := Nat.lt_of_succ_lt_succ hk
  rw [store_char_of_ne (Nat.ne_of_lt hk')]
  exact h.active k hk'

/-- A character that completes its line. -/
theorem Shaped.store_complete (h : t.Shaped) (hroom : (t.lines t.activeLine).len < termBfrWidth)
    (hdone : (t.store c).LineDone c) : ∀ i < t.activeLine + 1, ((t.store c).lines i).Complete := by
  intro i hi
  rcases Nat.lt_succ_iff_lt_or_eq.mp hi with hlt | rfl
  · rw [store_lines_of_ne (Nat.ne_of_lt hlt)]
    exact h.earlier i hlt
  · refine ⟨?_, fun k hk => h.store_inner hk⟩
    rw [LineDone, store_activeLine, store_len] at hdone
    rw [store_len]
    rcases hdone with hfull | hnl
    · exact .inl (Nat.le_antisymm hroom hfull)
    · refine .inr ⟨Nat.succ_pos _, ?_⟩
      rw [Nat.add_sub_cancel, store_char_last, hnl]

/-- A character that does not. -/
theorem Shaped.store (h : t.Shaped) (hdone : ¬ (t.store c).LineDone c) : (t.store c).Shaped := by
  constructor
  · intro i hi
    have hi' : i < t.activeLine := hi
    rw [store_lines_of_ne (Nat.ne_of_lt hi')]
    exact h.earlier i hi'
  · rw [store_activeLine, store_len]
    intro k hk
    rcases Nat.lt_succ_iff_lt_or_eq.mp hk with hlt | rfl
    · rw [store_char_of_ne (Nat.ne_of_lt hlt)]
      exact h.active k hlt
    · rw [store_char_last]
      intro hnl
      exact hdone (.inr hnl)

/-- The active line becomes an earlier one. -/
theorem Shaped.nextLine (hcomplete : ∀ i < t.activeLine + 1, (t.lines i).Complete)
    (htext : t.Text typed) : t.nextLine.Shaped := by
  have hlt := htext.active_lt
  rw [Stdin.nextLine]
  by_cases hlast : t.activeLine + 1 = termBfrHeight
  · rw [if_pos hlast]
    have hactive : t.activeLine = 7 := Nat.succ.inj hlast
    constructor
    · intro i hi
      have hi7 : i < 7 := by
        rw [← hactive]
        exact hi
      rw [scroll_lines_of_lt hactive hi7]
      exact hcomplete (i + 1) (by omega)
    · intro k hk
      simp [scroll, hactive] at hk
  · rw [if_neg hlast]
    refine ⟨hcomplete, fun k hk => ?_⟩
    have hempty : (t.lines (t.activeLine + 1)).len = 0 :=
      htext.later _ (Nat.lt_succ_self _) (Nat.lt_of_le_of_ne hlt hlast)
    have hk' : k < (t.lines (t.activeLine + 1)).len := hk
    rw [hempty] at hk'
    exact absurd hk' (Nat.not_lt_zero k)

theorem Shaped.putc (h : t.Shaped) (hold : t.Holds typed) (c : BitVec 8) : (t.putc c).Shaped := by
  rw [Stdin.putc]
  split
  next hdone => exact Shaped.nextLine (h.store_complete hold.room hdone) (hold.store c)
  next hdone => exact h.store hdone

/-! ## The lines as lists -/

/-- The characters of a line. -/
def line (t : Stdin) (i : Nat) : List (BitVec 8) :=
  (List.range (t.lines i).len).map (t.lines i).s

@[simp] theorem length_line (i : Nat) : (t.line i).length = (t.lines i).len := by
  rw [line, List.length_map, List.length_range]

/-- A complete line is not typed on. -/
theorem ended_of_complete {i : Nat} (h : (t.lines i).Complete) : LineBuffer.Ended (t.line i) := by
  rcases h.ends with hfull | ⟨hpos, hnl⟩
  · exact .inl ((t.length_line i).trans hfull)
  · obtain ⟨n, hn⟩ := Nat.exists_eq_succ_of_ne_zero (Nat.ne_of_gt hpos)
    refine .inr ⟨(List.range n).map (t.lines i).s, ?_, ?_⟩
    · rw [hn, Nat.succ_sub_one] at hnl
      rw [line, hn, List.range_succ, List.map_append, List.map_singleton, hnl]
    · intro hmem
      obtain ⟨k, hk, hkc⟩ := List.mem_map.mp hmem
      apply h.inner k _ hkc
      rw [hn]
      exact Nat.succ_lt_succ (List.mem_range.mp hk)

/-- A line is the part of the typed stream from its start on. -/
theorem Text.line_eq (h : t.Text typed) {i : Nat} (hi : i ≤ t.activeLine) :
    t.line i = (typed.drop (t.start i)).take (t.lines i).len := by
  apply List.ext_getElem?
  intro k
  by_cases hk : k < (t.lines i).len
  · rw [List.getElem?_take_of_lt hk, List.getElem?_drop, h.chars i hi k hk]
    simp [line, hk]
  · rw [List.getElem?_eq_none, List.getElem?_eq_none]
    · rw [List.length_take]
      omega
    · rw [length_line]
      omega

/-- The lines up to some line, and what was typed behind them. -/
theorem Text.flatten_append_drop (h : t.Text typed) {n : Nat} (hn : n ≤ t.activeLine + 1) :
    ((List.range n).map t.line).flatten ++ typed.drop (t.start n) = typed.drop t.bfrOffset := by
  induction n with
  | zero => rfl
  | succ n ih =>
    have hrest : t.line n ++ typed.drop (t.start (n + 1)) = typed.drop (t.start n) := by
      rw [h.line_eq (Nat.le_of_succ_le_succ hn), start, ← List.drop_drop, List.take_append_drop]
    rw [List.range_succ, List.map_append, List.flatten_append, List.map_singleton,
      List.flatten_singleton, List.append_assoc, hrest]
    exact ih (Nat.le_of_succ_le hn)

theorem Text.flatten_lines (h : t.Text typed) :
    ((List.range (t.activeLine + 1)).map t.line).flatten = typed.drop t.bfrOffset := by
  have hall := h.flatten_append_drop (Nat.le_refl _)
  rwa [h.ends, List.drop_length, List.append_nil] at hall

/-- The position behind a line counts the characters before it. -/
theorem start_eq_sum (n : Nat) :
    t.start n = t.bfrOffset + (((List.range n).map t.line).map List.length).sum := by
  induction n with
  | zero => rfl
  | succ n ih =>
    rw [start, ih, List.range_succ, List.map_append, List.map_append, List.sum_append,
      List.map_singleton, List.map_singleton, List.sum_singleton, length_line, Nat.add_assoc]

end Stdin

/-! ## The copy of a scroll -/

/-- `memcpy` to a lower address moves every byte, although the ranges overlap. -/
theorem memcpy_down (m : Bytes) (dst : Nat) {d size : Nat} (hd : 0 < d) {j : Nat} (hj : j < size) :
    memcpy m dst (dst + d) size (dst + j) = m (dst + d + j) := by
  apply copyRun_dst (fun i => dst + i) (fun i => dst + d + i) _ _ hj
  · intro i k hik _
    omega
  · intro i k hik _
    omega

/-- `memcpy` stores in its destination only. -/
theorem memcpy_other (m : Bytes) {dst src size a : Nat} (h : a < dst ∨ dst + size ≤ a) :
    memcpy m dst src size a = m a := by
  apply copyRun_other
  intro i hi
  omega

namespace LineBuffer

/-! ## The same steps -/

/-- The buffer holds the lines of `t`. -/
structure Denotes (b : LineBuffer) (t : Stdin) : Prop where
  activeLine : b.activeLine.toNat = t.activeLine
  bfrOffset : b.bfrOffset.toNat = t.bfrOffset
  len : ∀ i < termBfrHeight, (b.len i).toNat = (t.lines i).len
  char : ∀ i < termBfrHeight, ∀ k < termBfrWidth, b.char i k = (t.lines i).s k

variable {b : LineBuffer} {t : Stdin} {typed : List (BitVec 8)}

@[simp] theorem len_mk (a o : BitVec 32) (m : Bytes) (i : Nat) :
    (LineBuffer.mk a o m).len i = m.word32 (stdinLineSize * i) := rfl

@[simp] theorem char_mk (a o : BitVec 32) (m : Bytes) (i k : Nat) :
    (LineBuffer.mk a o m).char i k = m (stdinLineSize * i + (4 + k)) := rfl

/-- The lengths of the other lines stay. -/
theorem word32_setLen (m : Bytes) {i j : Nat} (x : BitVec 32) (hij : i ≠ j) :
    (m.setWord32 (stdinLineSize * j) x).word32 (stdinLineSize * i) =
      m.word32 (stdinLineSize * i) := by
  apply Bytes.word32_setWord32_of_apart
  simp only [stdinLineSize, termBfrWidth]
  omega

/-- The characters stay when a length is set. -/
theorem char_setLen (m : Bytes) (i j : Nat) {k : Nat} (x : BitVec 32) (hk : k < termBfrWidth) :
    m.setWord32 (stdinLineSize * j) x (stdinLineSize * i + (4 + k)) =
      m (stdinLineSize * i + (4 + k)) := by
  apply Bytes.splice_of_not_mem
  simp only [stdinLineSize, termBfrWidth] at hk ⊢
  omega

/-- The lengths stay when a character is stored. -/
theorem word32_update_char (m : Bytes) (i j : Nat) {k : Nat} (c : BitVec 8)
    (hk : k < termBfrWidth) :
    Bytes.word32 (Function.update m (stdinLineSize * j + (4 + k)) c) (stdinLineSize * i) =
      m.word32 (stdinLineSize * i) := by
  apply Bytes.word32_congr
  intro n hn
  apply Function.update_of_ne
  simp only [stdinLineSize, termBfrWidth] at hk ⊢
  omega

/-- The characters of the other lines stay. -/
theorem char_update_char (m : Bytes) {i j k l : Nat} (c : BitVec 8) (hk : k < termBfrWidth)
    (hl : l < termBfrWidth) (h : ¬ (i = j ∧ k = l)) :
    Function.update m (stdinLineSize * j + (4 + l)) c (stdinLineSize * i + (4 + k)) =
      m (stdinLineSize * i + (4 + k)) := by
  apply Function.update_of_ne
  simp only [stdinLineSize, termBfrWidth] at hk hl ⊢
  omega

theorem Denotes.store (h : b.Denotes t) (hlt : t.activeLine < termBfrHeight)
    (hroom : (t.lines t.activeLine).len < termBfrWidth) (c : BitVec 8) :
    ∃ b', b.store c = some b' ∧ b'.Denotes (t.store c) := by
  have hlen := h.len t.activeLine hlt
  have hcond : b.activeLine.toNat < termBfrHeight ∧
      (b.len b.activeLine.toNat).toNat < termBfrWidth := by
    rw [h.activeLine, hlen]
    exact ⟨hlt, hroom⟩
  refine ⟨_, if_pos hcond, h.activeLine, h.bfrOffset, ?_, ?_⟩
  · intro i hi
    rw [len_mk, word32_update_char _ _ _ _ hcond.2, h.activeLine]
    by_cases hia : i = t.activeLine
    · subst hia
      rw [Bytes.word32_setWord32_self, BitVec.toNat_add, hlen, Stdin.store_len]
      exact Nat.mod_eq_of_lt (Nat.lt_of_le_of_lt hroom (by decide))
    · rw [word32_setLen _ _ hia, Stdin.store_lines_of_ne hia]
      exact h.len i hi
  · intro i hi k hk
    rw [char_mk, h.activeLine, hlen]
    by_cases hat : i = t.activeLine ∧ k = (t.lines t.activeLine).len
    · obtain ⟨rfl, rfl⟩ := hat
      rw [Function.update_self, Stdin.store_char_last]
    · rw [char_update_char _ _ hk hroom hat, char_setLen _ _ _ _ hk]
      refine (h.char i hi k hk).trans ?_
      by_cases hia : i = t.activeLine
      · subst hia
        rw [Stdin.store_char_of_ne fun hkl => hat ⟨rfl, hkl⟩]
      · rw [Stdin.store_lines_of_ne hia]

theorem Denotes.lineDone_iff (h : b.Denotes t) (hlt : t.activeLine < termBfrHeight)
    (c : BitVec 8) : b.LineDone c ↔ t.LineDone c := by
  rw [LineDone, h.activeLine, h.len _ hlt]
  exact Iff.rfl

/-- The copy of a scroll gives each line but the last one the bytes of the next line. -/
theorem memcpy_lines (m : Bytes) {i k : Nat} (hi : i < 7) (hk : k < stdinLineSize) :
    memcpy m 0 stdinLineSize ((termBfrHeight - 1) * stdinLineSize) (stdinLineSize * i + k) =
      m (stdinLineSize * (i + 1) + k) := by
  have hj : stdinLineSize * i + k < (termBfrHeight - 1) * stdinLineSize := by
    simp only [stdinLineSize, termBfrWidth, termBfrHeight] at hk ⊢
    omega
  have hmoved := memcpy_down m 0 (show 0 < stdinLineSize by decide) hj
  rw [Nat.zero_add, Nat.zero_add] at hmoved
  rw [hmoved, Nat.mul_add, Nat.mul_one]
  congr 1
  omega

/-- The last line keeps its bytes. -/
theorem memcpy_last (m : Bytes) (k : Nat) :
    memcpy m 0 stdinLineSize ((termBfrHeight - 1) * stdinLineSize) (stdinLineSize * 7 + k) =
      m (stdinLineSize * 7 + k) := by
  apply memcpy_other
  simp only [stdinLineSize, termBfrWidth, termBfrHeight]
  omega

theorem Denotes.scroll (h : b.Denotes t) (hactive : t.activeLine = 7) :
    ({ b with activeLine := b.activeLine + 1#32 } : LineBuffer).scroll.Denotes t.scroll := by
  have hback : b.activeLine + 1#32 - 1#32 = b.activeLine := BitVec.add_sub_cancel ..
  have hseven : b.activeLine.toNat = 7 := h.activeLine.trans hactive
  rw [LineBuffer.scroll, hback, hseven]
  constructor
  · exact h.activeLine
  · show (b.bfrOffset + b.len 0).toNat = _
    rw [BitVec.toNat_add, h.bfrOffset, h.len 0 (by decide)]
    rfl
  · intro i hi
    rw [len_mk]
    rcases Nat.lt_succ_iff_lt_or_eq.mp hi with hi7 | rfl
    · rw [word32_setLen _ _ (Nat.ne_of_lt hi7), Stdin.scroll_lines_of_lt hactive hi7,
        ← h.len (i + 1) (Nat.succ_lt_succ hi7)]
      congr 1
      apply Bytes.word32_congr
      intro k hk
      exact memcpy_lines b.lines hi7 (Nat.lt_of_lt_of_le hk (by decide))
    · rw [Bytes.word32_setWord32_self, ← hactive]
      simp [Stdin.scroll]
  · intro i hi k hk
    rw [char_mk, char_setLen _ _ _ _ hk]
    rcases Nat.lt_succ_iff_lt_or_eq.mp hi with hi7 | rfl
    · rw [memcpy_lines b.lines hi7 (Nat.add_lt_add_left hk 4),
        Stdin.scroll_lines_of_lt hactive hi7]
      exact h.char (i + 1) (Nat.succ_lt_succ hi7) k hk
    · rw [memcpy_last]
      refine (h.char 7 hi k hk).trans ?_
      simp [Stdin.scroll, hactive, termBfrHeight]

theorem Denotes.nextLine (h : b.Denotes t) (hlt : t.activeLine < termBfrHeight) :
    b.nextLine.Denotes t.nextLine := by
  have hsucc : (b.activeLine + 1#32).toNat = t.activeLine + 1 := by
    rw [BitVec.toNat_add, h.activeLine]
    exact Nat.mod_eq_of_lt (Nat.lt_of_le_of_lt hlt (by decide))
  rw [LineBuffer.nextLine, Stdin.nextLine]
  dsimp only
  rw [hsucc]
  split
  next hlast => exact h.scroll (Nat.succ.inj hlast)
  next => exact ⟨hsucc, h.bfrOffset, h.len, h.char⟩

theorem Denotes.termStdinPutc (h : b.Denotes t) (hold : t.Holds typed) (c : BitVec 8) :
    ∃ b', b.termStdinPutc c = some b' ∧ b'.Denotes (t.putc c) := by
  obtain ⟨b1, hstore, hb1⟩ := h.store hold.active_lt hold.room c
  have hlt : (t.store c).activeLine < termBfrHeight := hold.active_lt
  simp only [LineBuffer.termStdinPutc, hstore, Option.map_some, Stdin.putc]
  by_cases hdone : (t.store c).LineDone c
  · rw [if_pos ((hb1.lineDone_iff hlt c).mpr hdone), if_pos hdone]
    exact ⟨_, rfl, hb1.nextLine hlt⟩
  · rw [if_neg (mt (hb1.lineDone_iff hlt c).mp hdone), if_neg hdone]
    exact ⟨_, rfl, hb1⟩

/-! ## The run -/

/-- The buffer stands for one that holds what was typed. -/
def Inv (b : LineBuffer) (typed : List (BitVec 8)) : Prop :=
  ∃ t, b.Denotes t ∧ t.Holds typed ∧ t.Shaped

theorem Inv.termStdinPutc (h : b.Inv typed) (c : BitVec 8) (hsmall : typed.length + 1 < 2 ^ 32) :
    ∃ b', b.termStdinPutc c = some b' ∧ b'.Inv (typed ++ [c]) := by
  obtain ⟨t, ht, hold, hshaped⟩ := h
  obtain ⟨b', hb', ht'⟩ := ht.termStdinPutc hold c
  exact ⟨b', hb', _, ht', hold.putc c hsmall, hshaped.putc hold c⟩

theorem Inv.run (h : b.Inv typed) (rest : List (BitVec 8))
    (hsmall : typed.length + rest.length < 2 ^ 32) :
    ∃ b', rest.foldlM LineBuffer.termStdinPutc b = some b' ∧ b'.Inv (typed ++ rest) := by
  induction rest generalizing b typed with
  | nil => exact ⟨b, rfl, by rwa [List.append_nil]⟩
  | cons c rest ih =>
    rw [List.length_cons] at hsmall
    obtain ⟨b1, hb1, hinv⟩ := h.termStdinPutc c (by omega)
    obtain ⟨b', hb', hinv'⟩ := ih hinv (by rw [List.length_append, List.length_singleton]; omega)
    refine ⟨b', ?_, ?_⟩
    · rw [List.foldlM_cons, hb1]
      exact hb'
    · rwa [List.append_assoc] at hinv'

/-- The loop of `init_root_term` over the first lines. -/
theorem clear_lens (lines : Bytes) (n : Nat) :
    (∀ i < n, ((List.range n).foldl (fun lines i => lines.setWord32 (stdinLineSize * i) 0#32)
      lines).word32 (stdinLineSize * i) = 0#32) ∧
    ∀ i k, k < termBfrWidth →
      (List.range n).foldl (fun lines i => lines.setWord32 (stdinLineSize * i) 0#32) lines
        (stdinLineSize * i + (4 + k)) = lines (stdinLineSize * i + (4 + k)) := by
  induction n with
  | zero => exact ⟨fun i hi => absurd hi (Nat.not_lt_zero i), fun _ _ _ => rfl⟩
  | succ n ih =>
    rw [List.range_succ, List.foldl_append, List.foldl_cons, List.foldl_nil]
    constructor
    · intro i hi
      rcases Nat.lt_succ_iff_lt_or_eq.mp hi with hlt | rfl
      · rw [word32_setLen _ _ (Nat.ne_of_lt hlt)]
        exact ih.1 i hlt
      · exact Bytes.word32_setWord32_self _
    · intro i k hk
      rw [char_setLen _ _ _ _ hk]
      exact ih.2 i k hk

theorem inv_initRootTerm (lines : Bytes) : (initRootTerm lines).Inv [] := by
  obtain ⟨hlen, hchar⟩ := clear_lens lines termBfrHeight
  refine ⟨_, ⟨rfl, rfl, ?_, ?_⟩,
    (State.inv_init 0#32 0#32 fun i k => lines (stdinLineSize * i + (4 + k))).holds, ?_⟩
  · intro i hi
    rw [initRootTerm, len_mk, hlen i hi]
    rfl
  · intro i _ k hk
    exact hchar i k hk
  · exact ⟨fun i hi => absurd hi (Nat.not_lt_zero i), fun k hk => absurd hk (Nat.not_lt_zero k)⟩

/-- A line and the list of its characters. -/
theorem Denotes.line_eq (h : b.Denotes t) (htext : t.Text typed) {i : Nat}
    (hi : i ≤ t.activeLine) : b.line i = t.line i := by
  have hlt : i < termBfrHeight := Nat.lt_of_le_of_lt hi htext.active_lt
  rw [LineBuffer.line, Stdin.line, h.len i hlt]
  apply List.map_congr_left
  intro k hk
  exact h.char i hlt k (Nat.lt_of_lt_of_le (List.mem_range.mp hk) (htext.len_le i))

theorem Denotes.linesUsed_eq (h : b.Denotes t) (htext : t.Text typed) :
    b.linesUsed = (List.range (t.activeLine + 1)).map t.line := by
  rw [linesUsed, h.activeLine]
  apply List.map_congr_left
  intro i hi
  exact h.line_eq htext (Nat.le_of_lt_succ (List.mem_range.mp hi))

theorem Inv.shows (h : b.Inv typed) : b.Shows typed := by
  obtain ⟨t, ht, hold, hshaped⟩ := h
  have hlen : ∀ i ≤ t.activeLine, (b.len i).toNat = (t.lines i).len := fun i hi =>
    ht.len i (Nat.lt_of_le_of_lt hi hold.active_lt)
  have hused := ht.linesUsed_eq hold.toText
  constructor
  · rw [ht.activeLine]
    exact hold.active_lt
  · rw [ht.activeLine]
    intro i hi
    rw [hlen i hi]
    exact hold.len_le i
  · rw [ht.activeLine, hlen _ (Nat.le_refl _)]
    exact hold.room
  · rw [ht.activeLine]
    intro i hi
    rw [ht.line_eq hold.toText (Nat.le_of_lt hi)]
    exact Stdin.ended_of_complete (hshaped.earlier i hi)
  · rw [hused, ht.bfrOffset, ← Stdin.start_eq_sum]
    exact hold.ends
  · rw [hused, ht.bfrOffset]
    exact hold.flatten_lines

/-- After any sequence of characters the buffer shows the end of what was typed, and no character
    was stored outside its line. -/
theorem termStdinPutc_shows (lines : Bytes) (typed : List (BitVec 8))
    (hsmall : typed.length < 2 ^ 32) :
    ∃ b, typed.foldlM LineBuffer.termStdinPutc (initRootTerm lines) = some b ∧ b.Shows typed := by
  obtain ⟨b, hb, hinv⟩ := (inv_initRootTerm lines).run typed (by simpa using hsmall)
  exact ⟨b, hb, hinv.shows⟩

/-- A line that is longer than a line of the buffer, and more lines than there are. -/
def longText : List (BitVec 8) :=
  List.replicate 70 0x61#8 ++ List.replicate 8 0x0a#8 ++ [0x62#8]

/-- The buffer is moved up twice, and the first two lines are lost. -/
theorem termStdinPutc_shows_longText :
    ∃ b, longText.foldlM LineBuffer.termStdinPutc (initRootTerm fun _ => 0xff#8) = some b ∧
      b.activeLine = 7#32 ∧ b.bfrOffset = 71#32 ∧ b.Shows longText := by
  obtain ⟨b, hb, hshows⟩ := termStdinPutc_shows (fun _ => 0xff#8) longText (by decide)
  have hrun : (longText.foldlM LineBuffer.termStdinPutc (initRootTerm fun _ => 0xff#8)).map
      (fun b => (b.activeLine, b.bfrOffset)) = some (7#32, 71#32) := by decide +kernel
  rw [hb] at hrun
  obtain ⟨hactive, hoffset⟩ := Prod.mk.inj (Option.some.inj hrun)
  exact ⟨b, hb, hactive, hoffset, hshows⟩

end LineBuffer

end Muse.Term
