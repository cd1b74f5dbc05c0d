import Muse.Console.Proofs.Pixels

/-!
# The text grid

The console as a grid of characters. A character fills the cell of the cursor and the cursor moves
on; behind the last cell of a row and at a newline it goes to the next row, and from the last row
the grid is moved up. The framebuffer shows this grid after every sequence of characters.
-/

namespace Muse.Console

open Library

/-- The cells, by row and column, and the cursor. A cell is empty or shows a character in a
    color. -/
structure Grid where
  cells : Nat → Nat → Option (BitVec 8 × BitVec 32)
  x : Nat
  y : Nat

namespace Grid

def blank : Grid where
  cells := fun _ _ => none
  x := 0
  y := 0

/-- The next row, in a grid of `h` rows. -/
def nextRow (h : Nat) (g : Grid) : Grid :=
  if g.y + 1 < h then { g with x := 0, y := g.y + 1 }
  else
    { g with
      cells := fun row col => if row + 1 < h then g.cells (row + 1) col else none
      x := 0 }

/-- The cell of the cursor is filled. -/
def fill (c : BitVec 8) (color : BitVec 32) (g : Grid) : Grid :=
  { g with cells := fun row col =>
      if row = g.y ∧ col = g.x then some (c, color) else g.cells row col }

/-- A character is put, in a grid of `w` columns and `h` rows. -/
def putChar (w h : Nat) (c : BitVec 8) (color : BitVec 32) (g : Grid) : Grid :=
  if c = Screen.newline then g.nextRow h
  else if g.x + 1 < w then { g.fill c color with x := g.x + 1 }
  else (g.fill c color).nextRow h

def putChars (w h : Nat) (calls : List (BitVec 8 × BitVec 32)) (g : Grid) : Grid :=
  calls.foldl (fun g call => g.putChar w h call.1 call.2) g

end Grid

section Rendering

variable (fb : Framebuffer) (font : PsfFont)

/-- The columns and rows of the console. -/
def columns : Nat :=
  fb.width.toNat / font.width.toNat

def rows : Nat :=
  fb.height.toNat / font.height.toNat

/-- A byte of a pixel of a cell. -/
def cellByte (cell : Option (BitVec 8 × BitVec 32)) (px py k : Nat) : BitVec 8 :=
  match cell with
  | none => 0#8
  | some (c, color) => pixelByte color (font.glyphBit c px py) k

/-- The byte `r` of the pixel row `y`, as the grid has it. What lies outside the cells is black. -/
def render (g : Grid) (y r : Nat) : BitVec 8 :=
  if y / font.height.toNat < rows fb font ∧ r / 3 / font.width.toNat < columns fb font then
    cellByte font (g.cells (y / font.height.toNat) (r / 3 / font.width.toNat))
      (r / 3 % font.width.toNat) (y % font.height.toNat) (r % 3)
  else 0#8

/-- The screen shows the grid, with the cursor in it. -/
structure Shows (s : Screen) (g : Grid) : Prop where
  x : s.x.toNat = g.x
  y : s.y.toNat = g.y
  xInside : g.x < columns fb font
  yInside : g.y < rows fb font
  bytes : ∀ y r, y < fb.height.toNat → r < fb.pitch.toNat →
    fb.byteAt s.bfr y r = render fb font g y r

end Rendering

variable {fb : Framebuffer} {font : PsfFont} {s : Screen} {g : Grid}

section Sizes

variable (h : Fits fb font)

include h

theorem columns_pos : 0 < columns fb font :=
  Nat.div_pos h.width h.widthPos

theorem rows_pos : 0 < rows fb font :=
  Nat.div_pos h.height h.heightPos

theorem consoleW_sub_one : (Screen.consoleW fb font - 1#32).toNat = columns fb font - 1 := by
  have hpos := columns_pos h
  rw [BitVec.toNat_sub_of_le]
  · rw [Screen.consoleW, BitVec.toNat_udiv]
    rfl
  · rw [BitVec.le_def, Screen.consoleW, BitVec.toNat_udiv]
    exact hpos

theorem consoleH_sub_one : (Screen.consoleH fb font - 1#32).toNat = rows fb font - 1 := by
  have hpos := rows_pos h
  rw [BitVec.toNat_sub_of_le]
  · rw [Screen.consoleH, BitVec.toNat_udiv]
    rfl
  · rw [BitVec.le_def, Screen.consoleH, BitVec.toNat_udiv]
    exact hpos

/-- A cell of the grid lies inside the framebuffer. -/
theorem cell_fits {x y : Nat} (hx : x < columns fb font) (hy : y < rows fb font) :
    (x + 1) * font.width.toNat ≤ fb.width.toNat ∧
      (y + 1) * font.height.toNat ≤ fb.height.toNat :=
  ⟨(Nat.le_div_iff_mul_le h.widthPos).mp hx, (Nat.le_div_iff_mul_le h.heightPos).mp hy⟩

end Sizes

namespace Shows

variable (h : Fits fb font) (hs : Shows fb font s g)

include h hs

/-- A glyph is drawn in the cell of the cursor. -/
theorem fill (c : BitVec 8) (color : BitVec 32) :
    ∃ m, fb.psfPutChar font c s.x s.y color s.bfr = some m ∧
      Shows fb font { s with bfr := m } (g.fill c color) := by
  obtain ⟨hxfits, hyfits⟩ := cell_fits h hs.xInside hs.yInside
  obtain ⟨m, hm, hbytes⟩ := Framebuffer.psfPutChar_spec h hxfits hyfits c color s.bfr
  rw [← hs.x, ← hs.y, BitVec.ofNat_toNat, BitVec.ofNat_toNat, BitVec.setWidth_eq,
    BitVec.setWidth_eq] at hm
  refine ⟨m, hm, hs.x, hs.y, hs.xInside, hs.yInside, fun y r hy hr => ?_⟩
  show fb.byteAt m y r = _
  rw [hbytes y r hy hr, hs.bytes y r hy hr, render, render]
  by_cases hcell : y / font.height.toNat = g.y ∧ r / 3 / font.width.toNat = g.x
  · rw [if_pos hcell, if_pos (by rw [hcell.1, hcell.2]; exact ⟨hs.yInside, hs.xInside⟩)]
    simp only [Grid.fill, hcell, and_self, if_true]
    rfl
  · simp only [Grid.fill, hcell, if_false]

/-- The next row, with the framebuffer moved up behind the last one. -/
theorem nextRow :
    ∃ t, s.putNewline fb font = some t ∧ Shows fb font t (g.nextRow (rows fb font)) := by
  have hpos := rows_pos h
  have hlast : s.y < Screen.consoleH fb font - 1#32 ↔ g.y + 1 < rows fb font := by
    rw [BitVec.lt_def, consoleH_sub_one h, hs.y]
    omega
  by_cases hy : g.y + 1 < rows fb font
  · refine ⟨{ s with x := 0#32, y := s.y + 1#32 }, ?_, ?_⟩
    · rw [Screen.putNewline, if_pos (hlast.mpr hy)]
    · rw [Grid.nextRow, if_pos hy]
      refine ⟨rfl, ?_, columns_pos h, hy, fun y r hyr hr => hs.bytes y r hyr hr⟩
      have hle : rows fb font ≤ fb.height.toNat := Nat.div_le_self _ _
      have hlt := fb.height.isLt
      show (s.y + 1#32).toNat = g.y + 1
      rw [BitVec.toNat_add, hs.y, BitVec.toNat_ofNat]
      omega
  · obtain ⟨m, hm, hbytes⟩ := Framebuffer.scroll_spec h s.bfr
    refine ⟨{ s with bfr := m, x := 0#32 }, ?_, ?_⟩
    · rw [Screen.putNewline, if_neg (fun hlt => hy (hlast.mp hlt)), hm]
      rfl
    · rw [Grid.nextRow, if_neg hy]
      refine ⟨rfl, hs.y, columns_pos h, hs.yInside, fun y r hyr hr => ?_⟩
      show fb.byteAt m y r = _
      rw [hbytes y r hyr hr]
      have hf := h.heightPos
      have hlow : y < (fb.height.toNat / font.height.toNat - 1) * font.height.toNat ↔
          y / font.height.toNat + 1 < rows fb font := by
        rw [← Nat.div_lt_iff_lt_mul hf,
          show fb.height.toNat / font.height.toNat = rows fb font from rfl]
        exact Nat.lt_sub_iff_add_lt
      by_cases hin : y / font.height.toNat + 1 < rows fb font
      · -- the row of cells below
        have hrows : rows fb font * font.height.toNat ≤ fb.height.toNat := Nat.div_mul_le_self _ _
        have hbelow : y + font.height.toNat < fb.height.toNat := by
          have hdiv : (y + font.height.toNat) / font.height.toNat < rows fb font := by
            rwa [Nat.add_div_right _ hf]
          exact Nat.lt_of_lt_of_le ((Nat.div_lt_iff_lt_mul hf).mp hdiv) hrows
        rw [if_pos (hlow.mpr hin), hs.bytes _ r hbelow hr, render, render,
          Nat.add_div_right _ hf, Nat.add_mod_right]
        simp only [hin, if_true, true_and, Nat.lt_of_succ_lt hin]
      · rw [if_neg (fun hlt => hin (hlow.mp hlt)), render]
        simp only [hin, if_false, cellByte, ite_self]

theorem putChar (c : BitVec 8) (color : BitVec 32) :
    ∃ t, s.consolePutChar fb font c color = some t ∧
      Shows fb font t (g.putChar (columns fb font) (rows fb font) c color) := by
  by_cases hc : c = Screen.newline
  · rw [Screen.consolePutChar, if_pos hc, Grid.putChar, if_pos hc]
    exact hs.nextRow h
  · obtain ⟨m, hm, hfill⟩ := hs.fill h c color
    have hpos := columns_pos h
    have hlast : s.x < Screen.consoleW fb font - 1#32 ↔ g.x + 1 < columns fb font := by
      rw [BitVec.lt_def, consoleW_sub_one h, hs.x]
      omega
    rw [Screen.consolePutChar, if_neg hc, hm, Grid.putChar, if_neg hc]
    by_cases hx : g.x + 1 < columns fb font
    · refine ⟨{ s with bfr := m, x := s.x + 1#32 }, if_pos (hlast.mpr hx), ?_⟩
      rw [if_pos hx]
      refine ⟨?_, hfill.y, hx, hfill.yInside, hfill.bytes⟩
      have hle : columns fb font ≤ fb.width.toNat := Nat.div_le_self _ _
      have hlt := fb.width.isLt
      show (s.x + 1#32).toNat = g.x + 1
      rw [BitVec.toNat_add, hs.x, BitVec.toNat_ofNat]
      omega
    · obtain ⟨t, ht, hshows⟩ := hfill.nextRow h
      refine ⟨t, ?_, ?_⟩
      · exact (if_neg (fun hlt => hx (hlast.mp hlt))).trans ht
      · rw [if_neg hx]
        exact hshows

end Shows

/-- The run of a sequence of characters. -/
theorem putChars_shows (h : Fits fb font) (calls : List (BitVec 8 × BitVec 32))
    (hs : Shows fb font s g) :
    ∃ t, s.consolePutChars fb font calls = some t ∧
      Shows fb font t (g.putChars (columns fb font) (rows fb font) calls) := by
  induction calls generalizing s g with
  | nil => exact ⟨s, rfl, hs⟩
  | cons call calls ih =>
    obtain ⟨t, ht, hshows⟩ := hs.putChar h call.1 call.2
    obtain ⟨u, hu, hend⟩ := ih hshows
    refine ⟨u, ?_, hend⟩
    rw [Screen.consolePutChars, List.foldlM_cons, ht]
    exact hu

/-- An empty grid on a framebuffer of zeros. -/
theorem blank_shows (h : Fits fb font) {m : Pixels}
    (hzero : ∀ offset : BitVec 32, offset.toNat < fb.size → m offset = 0#8) :
    Shows fb font ⟨m, 0#32, 0#32⟩ Grid.blank where
  x := rfl
  y := rfl
  xInside := columns_pos h
  yInside := rows_pos h
  bytes := by
    intro y r hy hr
    have hbyte : fb.byteAt m y r = 0#8 := by
      apply hzero
      rw [Framebuffer.ofNat_toNat_row h.size hy hr]
      exact Framebuffer.row_lt hy hr
    rw [hbyte, render]
    simp only [Grid.blank, cellByte, ite_self]

theorem console_shows_grid (h : Fits fb font) {m : Pixels}
    (hzero : ∀ offset : BitVec 32, offset.toNat < fb.size → m offset = 0#8)
    (calls : List (BitVec 8 × BitVec 32)) :
    ∃ s, Screen.consolePutChars fb font calls ⟨m, 0#32, 0#32⟩ = some s ∧
      Shows fb font s (Grid.blank.putChars (columns fb font) (rows fb font) calls) :=
  putChars_shows h calls (blank_shows h hzero)

/-- Two pixels by three, with rows of eight bytes. -/
def smallFramebuffer : Framebuffer := ⟨2#32, 3#32, 8#32⟩

/-- A font of one pixel. -/
def smallFont : PsfFont := ⟨psfMagic, 32#32, 0#32, 1#32, 1#32, 1#32, fun _ => 128#8⟩

/-- Two characters fill the first row, one and a newline the second, and two the last one. -/
def threeRows : List (BitVec 8 × BitVec 32) :=
  [(65#8, 0xFFFFFF#32), (66#8, 0xFFFFFF#32), (67#8, 0xFFFFFF#32), (10#8, 0#32), (68#8, 0xFF#32),
    (69#8, 0xFF#32)]

/-- The screen is moved up behind the last one of them. -/
theorem console_shows_grid_scrolled :
    ∃ s g, Screen.consolePutChars smallFramebuffer smallFont threeRows
        ⟨fun _ => 0#8, 0#32, 0#32⟩ = some s ∧ Shows smallFramebuffer smallFont s g ∧
      g.x = 0 ∧ g.y = 2 ∧ (List.range 3).map (fun row => (List.range 2).map (g.cells row)) =
        [[some (67#8, 0xFFFFFF#32), none], [some (68#8, 0xFF#32), some (69#8, 0xFF#32)],
          [none, none]] := by
  have hfits : Fits smallFramebuffer smallFont :=
    ⟨by decide, by decide, rfl, rfl, by decide, by decide, by decide, by decide⟩
  obtain ⟨s, hs, hshows⟩ := console_shows_grid hfits (fun _ _ => rfl) threeRows
  exact ⟨s, _, hs, hshows, rfl, rfl, rfl⟩

end Muse.Console
