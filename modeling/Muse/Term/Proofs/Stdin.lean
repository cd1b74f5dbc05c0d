import Mathlib.Data.List.Infix
import Muse.Term.Stdin

/-!
# What the reader of the terminal gets

The lines of the buffer are a window of the typed stream: `Stdin.start` gives the position of a
line's first character in that stream, and `Stdin.Text` says that each line holds the characters
from there on. A reader that stands at a `Cursor` of the buffer copies what follows its position.
Two places can lose the cursor: the search for a position at the end of a line that is being typed,
and the correction of the line index for a wait. `State.Regular` keeps runs away from both, and in
such runs every read is right.
-/

namespace Muse.Term

open Muse.Library
open Muse.Sync (lstatRead)

namespace Stdin

/-- The position of the first character of line `i` in the typed stream. -/
def start (t : Stdin) : Nat → Nat
  | 0 => t.bfrOffset
  | i + 1 => t.start i + (t.lines i).len

/-- The buffer is a window of `typed`. -/
structure Text (t : Stdin) (typed : List (BitVec 8)) : Prop where
  active_lt : t.activeLine < termBfrHeight
  len_le : ∀ i, (t.lines i).len ≤ termBfrWidth
  later : ∀ i, t.activeLine < i → i < termBfrHeight → (t.lines i).len = 0
  ends : t.start (t.activeLine + 1) = typed.length
  chars : ∀ i, i ≤ t.activeLine → ∀ k, k < (t.lines i).len →
    typed[t.start i + k]? = some ((t.lines i).s k)

/-- The window with room for a character in its active line. -/
structure Holds (t : Stdin) (typed : List (BitVec 8)) : Prop extends Text t typed where
  room : (t.lines t.activeLine).len < termBfrWidth

/-- Character `k` of line `i` is the one at `pos`, or the line ends at `pos`. -/
structure Cursor (t : Stdin) (i k pos : Nat) : Prop where
  line_le : i ≤ t.activeLine
  char_le : k ≤ (t.lines i).len
  at_pos : t.start i + k = pos

variable {t : Stdin} {typed : List (BitVec 8)} {c : BitVec 8}

theorem start_congr {u : Stdin} (hoff : u.bfrOffset = t.bfrOffset) :
    ∀ i, (∀ j, j < i → (u.lines j).len = (t.lines j).len) → u.start i = t.start i := by
  intro i
  induction i with
  | zero => exact fun _ => hoff
  | succ i ih =>
      intro hlen
      have hi : u.start i = t.start i := ih fun j hj => hlen j (by omega)
      simp only [start, hi, hlen i (by omega)]

theorem start_activeLine (n i : Nat) : ({ t with activeLine := n } : Stdin).start i = t.start i :=
  start_congr (u := { t with activeLine := n }) (t := t) rfl i fun _ _ => rfl

theorem start_mono : ∀ {i j : Nat}, i ≤ j → t.start i ≤ t.start j := by
  intro i j hij
  induction hij with
  | refl => exact Nat.le_refl _
  | step _ ih => exact Nat.le_trans ih (Nat.le_add_right _ _)

theorem Text.start_le (h : t.Text typed) {i : Nat} (hi : i ≤ t.activeLine + 1) :
    t.start i ≤ typed.length := by
  rw [← h.ends]
  exact start_mono hi

/-! ## A character -/

@[simp] theorem store_activeLine : (t.store c).activeLine = t.activeLine := rfl

theorem store_lines_of_ne {i : Nat} (hi : i ≠ t.activeLine) :
    (t.store c).lines i = t.lines i := by
  simp [store, hi]

theorem store_lines_active : (t.store c).lines t.activeLine =
    ⟨(t.lines t.activeLine).len + 1,
      Function.update (t.lines t.activeLine).s (t.lines t.activeLine).len c⟩ := by
  simp [store]

theorem store_start {i : Nat} (hi : i ≤ t.activeLine) : (t.store c).start i = t.start i := by
  refine start_congr (u := t.store c) (t := t) rfl i ?_
  intro j hj
  rw [store_lines_of_ne (by omega)]

theorem store_len_le (i : Nat) : (t.lines i).len ≤ ((t.store c).lines i).len := by
  by_cases hi : i = t.activeLine
  · subst hi
    simp [store_lines_active]
  · rw [store_lines_of_ne hi]

theorem Holds.store (h : t.Holds typed) (c : BitVec 8) : (t.store c).Text (typed ++ [c]) where
  active_lt := h.active_lt
  len_le := by
    intro i
    by_cases hi : i = t.activeLine
    · subst hi
      rw [store_lines_active]
      exact h.room
    · rw [store_lines_of_ne hi]
      exact h.len_le i
  later := by
    intro i hi hlt
    rw [store_activeLine] at hi
    rw [store_lines_of_ne (by omega)]
    exact h.later i hi hlt
  ends := by
    have hends := h.ends
    simp only [start] at hends
    simp only [start, store_activeLine, store_start (Nat.le_refl _), store_lines_active,
      List.length_append, List.length_singleton]
    omega
  chars := by
    intro i hi k hk
    rw [store_activeLine] at hi
    rw [store_start hi]
    have hle := h.start_le (Nat.le_refl (t.activeLine + 1))
    have hmono := t.start_mono (Nat.succ_le_succ hi)
    have hends := h.ends
    by_cases hia : i = t.activeLine
    · subst hia
      rw [store_lines_active] at hk ⊢
      by_cases hlast : k = (t.lines t.activeLine).len
      · subst hlast
        have hpos : t.start t.activeLine + (t.lines t.activeLine).len = typed.length := hends
        simp [hpos]
      · have hk' : k < (t.lines t.activeLine).len := by
          simp only at hk
          omega
        have hlt : t.start t.activeLine + k < typed.length := by
          simp only [start] at hends
          omega
        rw [List.getElem?_append_left hlt, h.chars _ hi k hk']
        simp only [Function.update_of_ne hlast]
    · rw [store_lines_of_ne hia] at hk ⊢
      have hlt : t.start i + k < typed.length := by
        simp only [start] at hmono hle
        omega
      rw [List.getElem?_append_left hlt]
      exact h.chars i hi k hk

theorem Cursor.store {i k pos : Nat} (h : t.Cursor i k pos) (c : BitVec 8) :
    (t.store c).Cursor i k pos where
  line_le := h.line_le
  char_le := Nat.le_trans h.char_le (store_len_le i)
  at_pos := by
    rw [store_start h.line_le]
    exact h.at_pos

/-! ## A complete line -/

theorem scroll_lines_of_lt {i : Nat} (hactive : t.activeLine = 7) (hi : i < 7) :
    t.scroll.lines i = t.lines (i + 1) := by
  simp [scroll, hactive, termBfrHeight, hi, Nat.ne_of_lt hi]

theorem scroll_start (hactive : t.activeLine = 7)
    (hsmall : t.bfrOffset + (t.lines 0).len < 2 ^ 32) :
    ∀ i, i ≤ 7 → t.scroll.start i = t.start (i + 1) := by
  intro i
  induction i with
  | zero => exact fun _ => Nat.mod_eq_of_lt hsmall
  | succ i ih =>
      intro hi
      show t.scroll.start i + (t.scroll.lines i).len = t.start (i + 1) + (t.lines (i + 1)).len
      rw [ih (by omega), scroll_lines_of_lt hactive (by omega)]

theorem Text.scroll (h : t.Text typed) (hactive : t.activeLine = 7)
    (hsmall : typed.length < 2 ^ 32) : t.scroll.Holds typed := by
  have hfirst : t.bfrOffset + (t.lines 0).len < 2 ^ 32 := by
    have := h.start_le (show 1 ≤ t.activeLine + 1 by omega)
    simp only [start] at this
    omega
  have hstart := scroll_start hactive hfirst
  have hlast : (t.scroll.lines 7).len = 0 := by simp [Stdin.scroll, hactive]
  have hscroll : t.scroll.activeLine = 7 := hactive
  refine ⟨⟨h.active_lt, ?_, ?_, ?_, ?_⟩, ?_⟩
  · intro i
    by_cases hi : i < 7
    · rw [scroll_lines_of_lt hactive hi]
      exact h.len_le (i + 1)
    · by_cases hi7 : i = 7
      · subst hi7
        omega
      · have hsame : t.scroll.lines i = t.lines i := by
          simp [Stdin.scroll, hactive, termBfrHeight, hi, hi7]
        rw [hsame]
        exact h.len_le i
  · intro i hi hlt
    simp only [hscroll, termBfrHeight] at hi hlt
    omega
  · have hends := h.ends
    rw [hactive] at hends
    show t.scroll.start (t.scroll.activeLine + 1) = typed.length
    rw [hscroll]
    show t.scroll.start 7 + (t.scroll.lines 7).len = typed.length
    rw [hstart 7 (Nat.le_refl _), hlast, hends, Nat.add_zero]
  · intro i hi k hk
    rw [hscroll] at hi
    by_cases hi7 : i = 7
    · subst hi7
      omega
    · have hlt : i < 7 := by omega
      rw [scroll_lines_of_lt hactive hlt] at hk ⊢
      rw [hstart i hi]
      exact h.chars (i + 1) (by omega) k hk
  · rw [hscroll, hlast]
    decide

theorem Text.nextLine (h : t.Text typed) (hsmall : typed.length < 2 ^ 32) :
    t.nextLine.Holds typed := by
  have hlt := h.active_lt
  simp only [Stdin.nextLine]
  split
  · next hlast => exact h.scroll (by simp only [termBfrHeight] at hlast; omega) hsmall
  · next hlast =>
      have hempty : (t.lines (t.activeLine + 1)).len = 0 :=
        h.later _ (Nat.lt_succ_self _) (by omega)
      refine ⟨⟨?_, h.len_le, ?_, ?_, ?_⟩, ?_⟩
      · show t.activeLine + 1 < termBfrHeight
        omega
      · intro i hi hi8
        exact h.later i (Nat.lt_of_succ_lt hi) hi8
      · rw [start_activeLine]
        show t.start (t.activeLine + 1) + (t.lines (t.activeLine + 1)).len = _
        rw [hempty, h.ends, Nat.add_zero]
      · intro i hi k hk
        rw [start_activeLine]
        by_cases hnew : i = t.activeLine + 1
        · subst hnew
          simp only [hempty] at hk
          omega
        · exact h.chars i (by simp only at hi; omega) k hk
      · show (t.lines (t.activeLine + 1)).len < termBfrWidth
        rw [hempty]
        decide

/-! ## `term_stdin_putc` -/

/-- The buffer follows the typed stream. -/
theorem Holds.putc (h : t.Holds typed) (c : BitVec 8) (hsmall : typed.length + 1 < 2 ^ 32) :
    (t.putc c).Holds (typed ++ [c]) := by
  have htext := h.store c
  simp only [Stdin.putc]
  split
  · exact htext.nextLine (by simpa using hsmall)
  · next hdone =>
      refine ⟨htext, ?_⟩
      simp only [LineDone, not_or, Nat.not_le] at hdone
      exact hdone.1

/-- Without a scroll a cursor stays. -/
theorem Cursor.putc {i k pos : Nat} (h : t.Cursor i k pos) (hstays : ¬ t.Scrolls c) :
    (t.putc c).Cursor i k pos := by
  have hstore := h.store c
  simp only [Stdin.putc, Stdin.nextLine]
  split
  · next hdone =>
      have hlast : ¬ (t.store c).activeLine + 1 = termBfrHeight := fun hl => hstays ⟨hdone, hl⟩
      rw [if_neg hlast]
      refine ⟨Nat.le_succ_of_le hstore.line_le, hstore.char_le, ?_⟩
      rw [start_activeLine]
      exact hstore.at_pos
  · exact hstore

/-- A scroll moves a cursor up by one line. -/
theorem Cursor.putc_scrolls {i k pos : Nat} (h : t.Cursor (i + 1) k pos) (hold : t.Holds typed)
    (hsmall : typed.length + 1 < 2 ^ 32) (hscrolls : t.Scrolls c) :
    (t.putc c).Cursor i k pos := by
  obtain ⟨hdone, hlast⟩ := hscrolls
  have hactive : (t.store c).activeLine = 7 := by
    simp only [termBfrHeight] at hlast
    simp only [store_activeLine]
    omega
  have hstore := h.store c
  have hi : i < 7 := by
    have := hstore.line_le
    omega
  have hfirst : (t.store c).bfrOffset + ((t.store c).lines 0).len < 2 ^ 32 := by
    have := (hold.store c).start_le (show 1 ≤ (t.store c).activeLine + 1 by omega)
    simp only [start, List.length_append, List.length_singleton] at this
    omega
  have hputc : t.putc c = (t.store c).scroll := by
    have hlast' : (t.store c).activeLine + 1 = termBfrHeight := hlast
    simp only [Stdin.putc, if_pos hdone, Stdin.nextLine, if_pos hlast']
  rw [hputc]
  refine ⟨?_, ?_, ?_⟩
  · show i ≤ (t.store c).activeLine
    omega
  · rw [scroll_lines_of_lt hactive hi]
    exact hstore.char_le
  · rw [scroll_start hactive hfirst i (by omega)]
    exact hstore.at_pos

/-! ## The search for a position -/

/-- The loop stops at the line of the position, or behind the active line. -/
theorem Text.findLine_cursor (h : t.Text typed) (hsmall : typed.length < 2 ^ 32) {offset : Nat}
    (hle : offset ≤ typed.length)
    (hend : offset = typed.length → (t.lines t.activeLine).len = 0) :
    ∀ n i, i + n = t.activeLine → t.start i ≤ offset →
      ∃ j k, t.findLine offset n (t.start i) i = (offset - k, j) ∧ k ≤ offset ∧
        t.Cursor j k offset := by
  intro n
  induction n with
  | zero =>
      intro i hi hstart
      have hia : i = t.activeLine := by omega
      have hnext : t.start i + (t.lines i).len = typed.length := by
        rw [hia]
        exact h.ends
      simp only [findLine, hnext, Nat.mod_eq_of_lt hsmall]
      split
      · next hlt =>
          refine ⟨i, offset - t.start i, ?_, Nat.sub_le _ _, ?_, ?_, ?_⟩
          · rw [Nat.sub_sub_self hstart]
          · omega
          · omega
          · omega
      · next hge =>
          have heq : offset = typed.length := by omega
          have hempty : (t.lines i).len = 0 := by
            rw [hia]
            exact hend heq
          refine ⟨i, 0, ?_, Nat.zero_le _, ?_, Nat.zero_le _, ?_⟩
          · rw [heq, Nat.sub_zero]
          · omega
          · omega
  | succ n ih =>
      intro i hi hstart
      have hnext : t.start (i + 1) ≤ typed.length := h.start_le (by omega)
      have hmod : (t.start i + (t.lines i).len) % 2 ^ 32 = t.start (i + 1) :=
        Nat.mod_eq_of_lt (Nat.lt_of_le_of_lt hnext hsmall)
      rw [findLine, hmod]
      split
      · next hlt =>
          have hlen : offset < t.start i + (t.lines i).len := hlt
          refine ⟨i, offset - t.start i, ?_, Nat.sub_le _ _, ?_, ?_, ?_⟩
          · rw [Nat.sub_sub_self hstart]
          · omega
          · omega
          · omega
      · next hge => exact ih (i + 1) (by omega) (Nat.le_of_not_lt hge)

/-- The search finds a position of the window, unless that is the end of a line that is being
    typed. -/
theorem Text.locate_cursor (h : t.Text typed) (hsmall : typed.length < 2 ^ 32) {offset : Nat}
    (hge : t.bfrOffset ≤ offset) (hle : offset ≤ typed.length)
    (hend : offset = typed.length → (t.lines t.activeLine).len = 0) :
    t.Cursor (t.locate offset).1 (t.locate offset).2 offset := by
  obtain ⟨j, k, hfind, hk, hcursor⟩ :=
    h.findLine_cursor hsmall hle hend t.activeLine 0 (Nat.zero_add _) hge
  simp only [start] at hfind
  simp only [locate, hfind]
  split
  · next hfirst => exact ⟨Nat.zero_le _, Nat.zero_le _, Nat.le_antisymm hge hfirst⟩
  · have hchar : (offset + 2 ^ 32 - (offset - k)) % 2 ^ 32 = k := by
      have := hcursor.at_pos
      omega
    simp only [hchar]
    exact hcursor

end Stdin

/-! ## The copy of the lines -/

/-- What a call has copied is the part of `typed` from `offset` on, and the rest of its size is
    still to come. -/
structure Call.Copied (call : Call) (typed : List (BitVec 8)) (offset : Nat) : Prop where
  data : call.data <+: typed.drop offset
  sizes : call.data.length + call.size = call.sizeP
  within : offset + call.data.length ≤ typed.length

/-- Characters of a line continue what was copied up to the cursor. -/
theorem Stdin.Cursor.copy_continues {t : Stdin} {typed data : List (BitVec 8)} {i k n offset : Nat}
    (h : t.Cursor i k (offset + data.length)) (htext : t.Text typed)
    (hdata : data <+: typed.drop offset) (hn : k + n ≤ (t.lines i).len) :
    data ++ (List.range n).map (fun j => (t.lines i).s (k + j)) <+: typed.drop offset := by
  obtain ⟨rest, hrest⟩ := hdata
  have hdrop : rest = typed.drop (offset + data.length) := by
    rw [← List.drop_drop, ← hrest, List.drop_left]
  rw [← hrest]
  apply (List.prefix_append_right_inj data).mpr
  apply List.prefix_iff_getElem?.mpr
  intro j hj
  have hjn : j < n := by simpa using hj
  have hchar := htext.chars i h.line_le (k + j) (by omega)
  rw [hdrop, List.getElem?_drop, ← h.at_pos, Nat.add_assoc, hchar]
  simp

/-- The loop over the lines copies on from the cursor. It stops with nothing left to read, or at a
    cursor in the active line. -/
theorem Call.Copied.copyLines {t : Stdin} {typed : List (BitVec 8)} {offset : Nat}
    (htext : t.Text typed) :
    ∀ (n : Nat) (call : Call), call.Copied typed offset →
      t.activeLine + 1 - call.lineIdx = n →
      (call.size = 0 ∨ t.Cursor call.lineIdx call.charOffset (offset + call.data.length)) →
      (call.copyLines t n).Copied typed offset ∧
        ((call.copyLines t n).size = 0 ∨ (call.copyLines t n).lineIdx = t.activeLine ∧
          t.Cursor (call.copyLines t n).lineIdx (call.copyLines t n).charOffset
            (offset + (call.copyLines t n).data.length)) := by
  intro n
  induction n with
  | zero =>
      intro call hcopied hlines hcursor
      refine ⟨hcopied, hcursor.imp_right ?_⟩
      intro hat
      have := hat.line_le
      omega
  | succ n ih =>
      intro call hcopied hlines hcursor
      rw [Call.copyLines]
      split
      · next hstop =>
          refine ⟨hcopied, ?_⟩
          rcases hcursor with hzero | hat
          · exact .inl hzero
          · exact hstop.imp_right fun hactive => ⟨hactive.1, hat⟩
      · next hgoes =>
          obtain ⟨hsize, hfull⟩ := not_or.mp hgoes
          have hat := hcursor.resolve_left hsize
          have hchar := hat.char_le
          have hpos := hat.at_pos
          have hnext : t.start call.lineIdx + (t.lines call.lineIdx).len ≤ typed.length :=
            htext.start_le (i := call.lineIdx + 1) (Nat.succ_le_succ hat.line_le)
          have hleft : ((t.lines call.lineIdx).len + 2 ^ 32 - call.charOffset) % 2 ^ 32 =
              (t.lines call.lineIdx).len - call.charOffset := by
            have := htext.len_le call.lineIdx
            simp only [termBfrWidth] at this
            omega
          simp only [hleft] at hfull ⊢
          have hsizes := hcopied.sizes
          have hwithin := hcopied.within
          apply ih
          · refine ⟨?_, ?_, ?_⟩
            · exact hat.copy_continues htext hcopied.data (by omega)
            · simp only [List.length_append, List.length_map, List.length_range]
              omega
            · simp only [List.length_append, List.length_map, List.length_range]
              omega
          · show t.activeLine + 1 - (call.lineIdx + 1) = n
            omega
          · -- either the line had all that was left to read, or the next line goes on
            by_cases hall : call.size ≤ (t.lines call.lineIdx).len - call.charOffset
            · left
              show call.size - min call.size _ = 0
              omega
            · right
              have hlater : call.lineIdx ≠ t.activeLine := by
                intro hactive
                apply hfull
                refine ⟨hactive, ?_⟩
                omega
              have hline := hat.line_le
              refine ⟨?_, Nat.zero_le _, ?_⟩
              · show call.lineIdx + 1 ≤ t.activeLine
                omega
              · show t.start call.lineIdx + (t.lines call.lineIdx).len + 0 = _
                simp only [List.length_append, List.length_map, List.length_range]
                omega

theorem Call.length_le_copyLines (t : Stdin) :
    ∀ (n : Nat) (call : Call), call.data.length ≤ (call.copyLines t n).data.length := by
  intro n
  induction n with
  | zero => exact fun _ => Nat.le_refl _
  | succ n ih =>
      intro call
      rw [Call.copyLines]
      split
      · exact Nat.le_refl _
      · refine Nat.le_trans ?_ (ih _)
        rw [List.length_append]
        exact Nat.le_add_right _ _

/-! ## The wait -/

/-- A waiting call would be at its position if it corrected its line index for the scrolls that it
    has not seen. It has corrected it for one scroll in advance where it left the last line of the
    buffer. -/
structure Call.Waits (call : Call) (t : Stdin) (pos : Nat) : Prop where
  scrolls_le : call.scrolls ≤ call.lastLine.toNat
  lastLine : call.lastLine = true → t.activeLine + 1 = termBfrHeight
  cursor : t.Cursor (call.lineIdx + call.lastLine.toNat - call.scrolls) call.charOffset pos

/-- Where a call stands when its position is `pos`. -/
def Call.Stands (call : Call) (t : Stdin) (stat : BitVec 32) (pos : Nat) : Prop :=
  match call.point with
  | .acquire => call.data = []
  | .search => call.data = [] ∧ stat = lstatRead
  | .transfer => stat = lstatRead ∧ t.Cursor call.lineIdx call.charOffset pos
  | .released => call.Waits t pos
  | .spin => call.Waits t pos ∧ (stat = lstatRead → call.scrolls = call.lastLine.toNat)

/-- While a call waits, the buffer may scroll once, and only if the call has provided for it. -/
def Call.MayScroll (call : Call) : Prop :=
  call.point = .released ∨ call.point = .spin → call.lastLine = true ∧ call.scrolls = 0

instance (call : Call) : Decidable call.MayScroll :=
  inferInstanceAs (Decidable (_ → _))

theorem drop_snoc {data typed : List (BitVec 8)} {offset : Nat}
    (h : data <+: typed.drop offset) (c : BitVec 8) : data <+: (typed ++ [c]).drop offset :=
  h.trans ((List.prefix_append typed [c]).drop offset)

namespace Call

variable {call : Call} {t : Stdin} {typed : List (BitVec 8)} {c : BitVec 8} {offset pos : Nat}

theorem Copied.putc (h : call.Copied typed offset) (c : BitVec 8) :
    call.Copied (typed ++ [c]) offset := by
  refine ⟨drop_snoc h.data c, h.sizes, ?_⟩
  rw [List.length_append]
  exact Nat.le_add_right_of_le h.within

/-- Without a scroll a call waits on. -/
theorem Waits.putc (h : call.Waits t pos) (hstays : ¬ t.Scrolls c) :
    call.Waits (t.putc c) pos where
  scrolls_le := h.scrolls_le
  lastLine := by
    intro hlast
    have hactive := h.lastLine hlast
    have hdone : ¬ (t.store c).LineDone c := fun hdone => hstays ⟨hdone, hactive⟩
    simp only [Stdin.putc, if_neg hdone]
    exact hactive
  cursor := h.cursor.putc hstays

/-- The scroll that a call has provided for. -/
theorem Waits.putc_scrolls (h : call.Waits t pos) (hold : t.Holds typed)
    (hsmall : typed.length + 1 < 2 ^ 32) (hscrolls : t.Scrolls c)
    (hlast : call.lastLine = true) (hzero : call.scrolls = 0) :
    ({ call with scrolls := call.scrolls + 1 } : Call).Waits (t.putc c) pos := by
  have hcursor := h.cursor
  rw [hlast, hzero] at hcursor
  refine ⟨?_, ?_, ?_⟩
  · show call.scrolls + 1 ≤ call.lastLine.toNat
    rw [hlast, hzero]
    exact Nat.le_refl 1
  · intro _
    have hlast' : (t.store c).activeLine + 1 = termBfrHeight := hscrolls.2
    simp only [Stdin.putc, if_pos hscrolls.1, Stdin.nextLine, if_pos hlast']
    exact hlast'
  · show (t.putc c).Cursor (call.lineIdx + call.lastLine.toNat - (call.scrolls + 1))
      call.charOffset pos
    rw [hlast, hzero]
    exact hcursor.putc_scrolls hold hsmall hscrolls

/-- A character that arrives while the lock is free leaves a call where it stands. -/
theorem Stands.putc {waitingReaders : BitVec 32} (h : call.Stands t 0#32 pos)
    (hstays : ¬ t.Scrolls c) :
    call.Stands (t.putc c)
      (if (t.store c).LineDone c ∧ waitingReaders ≠ 0#32 then lstatRead else 0#32) pos := by
  cases hpoint : call.point with
  | acquire =>
      simp only [Stands, hpoint] at h ⊢
      exact h
  | search =>
      simp only [Stands, hpoint] at h
      exact absurd h.2 (by decide)
  | transfer =>
      simp only [Stands, hpoint] at h
      exact absurd h.1 (by decide)
  | released =>
      simp only [Stands, hpoint] at h ⊢
      exact h.putc hstays
  | spin =>
      simp only [Stands, hpoint] at h ⊢
      refine ⟨h.1.putc hstays, ?_⟩
      intro hread
      have hle := h.1.scrolls_le
      have hdone : (t.store c).LineDone c := by
        by_contra hnot
        simp only [hnot, false_and, if_false] at hread
        exact absurd hread (by decide)
      have hfirst : call.lastLine = false := by
        by_contra hlast
        exact hstays ⟨hdone, h.1.lastLine (by simpa using hlast)⟩
      rw [hfirst] at hle ⊢
      exact Nat.le_zero.mp hle

theorem Stands.putc_scrolls {waitingReaders : BitVec 32} (h : call.Stands t 0#32 pos)
    (hold : t.Holds typed) (hsmall : typed.length + 1 < 2 ^ 32) (hscrolls : t.Scrolls c)
    (hmay : call.MayScroll) :
    ({ call with scrolls := call.scrolls + 1 } : Call).Stands (t.putc c)
      (if (t.store c).LineDone c ∧ waitingReaders ≠ 0#32 then lstatRead else 0#32) pos := by
  cases hpoint : call.point with
  | acquire =>
      simp only [Stands, hpoint] at h ⊢
      exact h
  | search =>
      simp only [Stands, hpoint] at h
      exact absurd h.2 (by decide)
  | transfer =>
      simp only [Stands, hpoint] at h
      exact absurd h.1 (by decide)
  | released =>
      simp only [Stands, hpoint] at h ⊢
      obtain ⟨hlast, hzero⟩ := hmay (.inl hpoint)
      have hwaits := h.putc_scrolls hold hsmall hscrolls hlast hzero
      rw [hpoint] at hwaits
      exact hwaits
  | spin =>
      simp only [Stands, hpoint] at h ⊢
      obtain ⟨hlast, hzero⟩ := hmay (.inr hpoint)
      have hwaits := h.1.putc_scrolls hold hsmall hscrolls hlast hzero
      rw [hpoint] at hwaits
      refine ⟨hwaits, ?_⟩
      intro _
      rw [hlast, hzero]
      rfl

/-- What a call that leaves the active line takes off its index is what it provides for. -/
theorem beginWait_lineIdx (hactive : call.lineIdx = t.activeLine) :
    (call.beginWait t).lineIdx + (call.beginWait t).lastLine.toNat = call.lineIdx := by
  simp only [beginWait]
  split
  · next hlast =>
      simp only [hlast, decide_true, Bool.toNat_true]
      simp only [termBfrHeight] at hlast
      omega
  · next hnot => simp only [hnot, decide_false, Bool.toNat_false, Nat.add_zero]

/-- A call that stops at a cursor in the active line waits there. -/
theorem beginWait_waits (hactive : call.lineIdx = t.activeLine)
    (hcursor : t.Cursor call.lineIdx call.charOffset pos) : (call.beginWait t).Waits t pos where
  scrolls_le := Nat.zero_le _
  lastLine := by
    intro hlast
    exact of_decide_eq_true hlast
  cursor := by
    have hzero : (call.beginWait t).scrolls = 0 := rfl
    rw [beginWait_lineIdx hactive, hzero, Nat.sub_zero]
    exact hcursor

end Call

namespace State

/-- The condition of `Call.MayScroll`; no search starts at the end of a line that is being typed;
    positions fit into 32 bits. -/
def Regular (s : State) : Op → Prop
  | .putc c => s.typed.length + 1 < 2 ^ 32 ∧
      (s.stdin.Scrolls c → ∀ call ∈ s.call, call.MayScroll)
  | .read _ => True
  | .goOn => ∀ call ∈ s.call, call.point = .search →
      call.size = 0 ∨ s.offset ≠ s.typed.length ∨ (s.stdin.lines s.stdin.activeLine).len = 0

instance (s : State) : ∀ op, Decidable (s.Regular op)
  | .putc _ => inferInstanceAs (Decidable (_ ∧ _))
  | .read _ => inferInstanceAs (Decidable True)
  | .goOn => inferInstanceAs (Decidable (∀ call ∈ s.call, _))

structure Inv (s : State) : Prop where
  holds : s.stdin.Holds s.typed
  small : s.typed.length < 2 ^ 32
  within : s.offset ≤ s.typed.length
  ahead : s.stdin.bfrOffset ≤ s.pos
  done : ∀ d ∈ s.done, d.data <+: s.typed.drop d.offset ∧ d.data.length = d.size
  call : ∀ call ∈ s.call, call.Copied s.typed s.offset ∧
    call.Stands s.stdin s.stat (s.offset + call.data.length)

variable {s : State} {call : Call}

theorem inv_init (waitingReaders stat : BitVec 32) (text : Nat → Nat → BitVec 8) :
    (init waitingReaders stat text).Inv where
  holds := by
    refine ⟨⟨Nat.zero_lt_succ _, fun _ => Nat.zero_le _, fun _ _ _ => rfl, rfl, ?_⟩,
      Nat.zero_lt_succ _⟩
    intro i _ k hk
    exact absurd hk (Nat.not_lt_zero k)
  small := Nat.two_pow_pos 32
  within := Nat.le_refl _
  ahead := Nat.le_refl _
  done := by simp [init]
  call := by simp [init]

/-! ### A typed character -/

theorem bfrOffset_putc {c : BitVec 8} (h : s.Allowed (.putc c))
    (hahead : s.stdin.bfrOffset ≤ s.pos) : (s.stdin.putc c).bfrOffset ≤ s.pos := by
  simp only [Stdin.putc, Stdin.nextLine]
  split
  · next hdone =>
      split
      · next hlast =>
          have hlast' : s.stdin.activeLine + 1 = termBfrHeight := hlast
          have hfirst : (s.stdin.store c).lines 0 = s.stdin.lines 0 := by
            apply Stdin.store_lines_of_ne
            simp only [termBfrHeight] at hlast'
            omega
          show (s.stdin.bfrOffset + ((s.stdin.store c).lines 0).len) % 2 ^ 32 ≤ s.pos
          rw [hfirst]
          exact Nat.le_trans (Nat.mod_le _ _) (h ⟨hdone, hlast'⟩)
      · exact hahead
  · exact hahead

theorem Inv.putc {c : BitVec 8} {s' : State} (h : s.Inv) (hallowed : s.Allowed (.putc c))
    (hregular : s.Regular (.putc c)) (hs : s.putc c = some s') : s'.Inv := by
  obtain ⟨hsmall, hmay⟩ := hregular
  simp only [State.putc] at hs
  split at hs
  · next hfree =>
      cases hs
      refine ⟨h.holds.putc c hsmall, ?_, ?_, ?_, ?_, ?_⟩
      · simpa using hsmall
      · exact Nat.le_trans h.within (by simp)
      · have hahead := bfrOffset_putc hallowed h.ahead
        simp only [pos] at hahead ⊢
        split
        · rw [Option.elim_map]
          exact hahead
        · exact hahead
      · intro d hd
        exact (h.done d hd).imp_left fun hdata => drop_snoc hdata c
      · intro call hcall
        simp only at hcall
        split at hcall
        · next hscrolls =>
            obtain ⟨old, hold, rfl⟩ := Option.map_eq_some_iff.mp hcall
            obtain ⟨hcopied, hstands⟩ := h.call old hold
            rw [hfree] at hstands
            refine ⟨?_, hstands.putc_scrolls h.holds hsmall hscrolls (hmay hscrolls old hold)⟩
            exact ⟨drop_snoc hcopied.data c, hcopied.sizes, (hcopied.putc c).within⟩
        · next hstays =>
            obtain ⟨hcopied, hstands⟩ := h.call call hcall
            rw [hfree] at hstands
            exact ⟨hcopied.putc c, hstands.putc hstays⟩
  · cases hs

/-! ### A step of the reader -/

/-- A call that goes on after a step. -/
theorem Inv.goesOn {stat waitingReaders : BitVec 32} (h : s.Inv)
    (hcopied : call.Copied s.typed s.offset)
    (hstands : call.Stands s.stdin stat (s.offset + call.data.length))
    (hahead : s.stdin.bfrOffset ≤ s.offset + call.data.length) :
    ({ s with waitingReaders, stat, call := some call } : State).Inv where
  holds := h.holds
  small := h.small
  within := h.within
  ahead := hahead
  done := h.done
  call := by
    intro other hother
    cases hother
    exact ⟨hcopied, hstands⟩

/-- A call that has nothing left to read returns. -/
theorem Inv.finish {stat waitingReaders : BitVec 32} (h : s.Inv)
    (hcopied : call.Copied s.typed s.offset) (hsize : call.size = 0)
    (hahead : s.stdin.bfrOffset ≤ s.offset + call.data.length) :
    (({ s with waitingReaders, stat } : State).finish call).Inv := by
  have hsizes : call.data.length = call.sizeP := by
    have := hcopied.sizes
    omega
  have hwithin := hcopied.within
  rw [hsizes] at hwithin hahead
  refine ⟨h.holds, h.small, hwithin, hahead, ?_, ?_⟩
  · intro d hd
    rcases List.mem_append.mp hd with hold | hnew
    · exact h.done d hold
    · rw [List.mem_singleton.mp hnew]
      exact ⟨hcopied.data, hsizes⟩
  · intro other hother
    cases hother

theorem Inv.read {size : BitVec 32} {s' : State} (h : s.Inv) (hs : s.read size = some s') :
    s'.Inv := by
  simp only [State.read] at hs
  split at hs
  · cases hs
  · next hnone =>
      cases hs
      have hahead := h.ahead
      simp only [pos, hnone] at hahead
      apply h.goesOn
      · exact ⟨List.nil_prefix, Nat.zero_add _, h.within⟩
      · rfl
      · exact hahead

theorem Inv.search (h : s.Inv) (hcall : s.call = some call) (hpoint : call.point = .search)
    (hregular : s.Regular .goOn) : (s.search call).Inv := by
  obtain ⟨hcopied, hstands⟩ := h.call call hcall
  have hahead := h.ahead
  simp only [Call.Stands, hpoint] at hstands
  simp only [pos, hcall, Option.elim_some] at hahead
  have hoffset : s.offset % 2 ^ 32 = s.offset :=
    Nat.mod_eq_of_lt (Nat.lt_of_le_of_lt h.within h.small)
  simp only [State.search, hoffset]
  split
  · next hsize =>
      exact h.finish ⟨hcopied.data, hcopied.sizes, hcopied.within⟩ hsize hahead
  · next hsize =>
      rw [hstands.1] at hahead
      apply h.goesOn
      · exact ⟨hcopied.data, hcopied.sizes, hcopied.within⟩
      · refine ⟨hstands.2, ?_⟩
        show s.stdin.Cursor _ _ (s.offset + call.data.length)
        rw [hstands.1]
        apply h.holds.locate_cursor h.small hahead h.within
        intro hend
        rcases hregular call hcall hpoint with hzero | hne | hempty
        · exact absurd hzero hsize
        · exact absurd hend hne
        · exact hempty
      · show _ ≤ s.offset + call.data.length
        rw [hstands.1]
        exact hahead

theorem Inv.transfer (h : s.Inv) (hcall : s.call = some call) (hpoint : call.point = .transfer) :
    (s.transfer call).Inv := by
  obtain ⟨hcopied, hstands⟩ := h.call call hcall
  have hahead := h.ahead
  simp only [Call.Stands, hpoint] at hstands
  simp only [pos, hcall, Option.elim_some] at hahead
  obtain ⟨hcopied', hstop⟩ := hcopied.copyLines h.holds.toText _ call rfl (.inr hstands.2)
  have hahead' : s.stdin.bfrOffset ≤ s.offset + (call.copyLines s.stdin
      (s.stdin.activeLine + 1 - call.lineIdx)).data.length :=
    Nat.le_trans hahead (Nat.add_le_add_left (call.length_le_copyLines _ _) _)
  simp only [State.transfer]
  generalize call.copyLines s.stdin (s.stdin.activeLine + 1 - call.lineIdx) = copied
    at hcopied' hstop hahead' ⊢
  split
  · next hsize => exact h.finish hcopied' hsize hahead'
  · next hsize =>
      obtain ⟨hactive, hcursor⟩ := hstop.resolve_left hsize
      apply h.goesOn
      · exact ⟨hcopied'.data, hcopied'.sizes, hcopied'.within⟩
      · exact copied.beginWait_waits hactive hcursor
      · exact hahead'

theorem Inv.goOn (h : s.Inv) (hcall : s.call = some call) (hregular : s.Regular .goOn) :
    (s.goOn call).Inv := by
  obtain ⟨hcopied, hstands⟩ := h.call call hcall
  have hcopied' (point : Point) : ({ call with point } : Call).Copied s.typed s.offset :=
    ⟨hcopied.data, hcopied.sizes, hcopied.within⟩
  have hahead := h.ahead
  simp only [pos, hcall, Option.elim_some] at hahead
  cases hpoint : call.point with
  | acquire =>
      simp only [Call.Stands, hpoint] at hstands
      simp only [State.goOn, hpoint]
      split
      · exact h.goesOn (hcopied' .search) ⟨hstands, rfl⟩ hahead
      · exact h
  | search =>
      simp only [State.goOn, hpoint]
      exact h.search hcall hpoint hregular
  | transfer =>
      simp only [State.goOn, hpoint]
      exact h.transfer hcall hpoint
  | released =>
      simp only [Call.Stands, hpoint] at hstands
      simp only [State.goOn, hpoint]
      split
      · exact h
      · next hread =>
          refine h.goesOn (hcopied' .spin) ⟨?_, fun hr => absurd hr hread⟩ hahead
          exact ⟨hstands.scrolls_le, hstands.lastLine, hstands.cursor⟩
  | spin =>
      simp only [Call.Stands, hpoint] at hstands
      simp only [State.goOn, hpoint]
      split
      · next hread =>
          -- the wake-up comes with the scroll that the call has provided for
          have hcursor := hstands.1.cursor
          rw [hstands.2 hread, Nat.add_sub_cancel] at hcursor
          exact h.goesOn (hcopied' .transfer) ⟨hread, hcursor⟩ hahead
      · exact h

/-- Each step keeps the invariant. -/
theorem Inv.step {op : Op} {s' : State} (h : s.Inv) (hallowed : s.Allowed op)
    (hregular : s.Regular op) (hs : s.step op = some s') : s'.Inv := by
  cases op with
  | putc c => exact h.putc hallowed hregular hs
  | read size => exact h.read hs
  | goOn =>
      obtain ⟨call, hcall, rfl⟩ := Option.map_eq_some_iff.mp hs
      exact h.goOn hcall hregular

theorem Inv.delivered (h : s.Inv) : s.Delivered := by
  intro d hd
  obtain ⟨hdata, hsize⟩ := h.done d hd
  refine ⟨?_, hsize⟩
  rw [← hsize]
  exact List.prefix_iff_eq_take.mp hdata

/-- Typed input is delivered exactly once and in order, in every run that searches for no end of a
    line that is being typed and in which no wait misses a scroll of the buffer. -/
theorem delivered_of_regular (waitingReaders stat : BitVec 32) (text : Nat → Nat → BitVec 8)
    (hr : Reaches step (fun s op => s.Allowed op ∧ s.Regular op)
      (init waitingReaders stat text) s) : s.Delivered :=
  (hr.invariant (inv_init waitingReaders stat text)
    fun _ _ _ hinv hok hs => hinv.step hok.1 hok.2 hs).delivered

/-- A read of three characters that waits while `a`, `b` and the end of the line are typed. -/
theorem delivered_of_regular_line :
    ∃ s, Reaches step (fun s op => s.Allowed op ∧ s.Regular op)
        (init 0#32 0#32 fun _ _ => 0#8) s ∧
      s.done = [⟨0, 3, [0x61#8, 0x62#8, 0x0a#8]⟩] ∧ s.Delivered := by
  have hrun : (runChecked step (fun s op => s.Allowed op ∧ s.Regular op)
      (init 0#32 0#32 fun _ _ => 0#8)
      [.read 3#32, .goOn, .goOn, .goOn, .putc 0x61#8, .putc 0x62#8, .goOn, .putc 0x0a#8, .goOn,
        .goOn]).any
      (fun s => s.done == [⟨0, 3, [0x61#8, 0x62#8, 0x0a#8]⟩]) = true := by
    decide +kernel
  obtain ⟨s, hr, hs⟩ := exists_reaches_of_any hrun
  exact ⟨s, hr, by simpa using hs, delivered_of_regular _ _ _ hr⟩

/-- A reader that has read the one character of the active line gets it again: the search for the
    end of that line puts the reader at its start. -/
theorem typed_char_read_twice :
    ¬ ∀ (waitingReaders stat : BitVec 32) (text : Nat → Nat → BitVec 8) (s : State),
      Reaches step Allowed (init waitingReaders stat text) s → s.Delivered := by
  intro hall
  have hrun : (runChecked step Allowed (init 0#32 0#32 fun _ _ => 0#8)
      [.putc 0x61#8, .read 1#32, .goOn, .goOn, .goOn, .read 1#32, .goOn, .goOn, .goOn]).any
      (fun s => s.done == [⟨0, 1, [0x61#8]⟩, ⟨1, 1, [0x61#8]⟩] && s.typed == [0x61#8]) = true := by
    decide +kernel
  obtain ⟨s, hr, hs⟩ := exists_reaches_of_any hrun
  simp only [Bool.and_eq_true, beq_iff_eq] at hs
  obtain ⟨hdone, htyped⟩ := hs
  have hread := hall _ _ _ s hr ⟨1, 1, [0x61#8]⟩ (by simp [hdone])
  simp [htyped] at hread

end State

end Muse.Term
