import Mathlib.Tactic.Ring
import Muse.Console.Framebuffer
import Muse.Library.ByteMemory
import Muse.Library.CopyRun

/-!
# Bytes of the framebuffer

What drawing a character and scrolling do to the byte `r` of the row `y`. A glyph changes the
rectangle of its cell only, and scrolling moves every row up by the height of a font row.
-/

namespace Muse.Console

open Library

/-- A framebuffer that holds its rows, and a font that can be drawn on it. -/
structure Fits (fb : Framebuffer) (font : PsfFont) : Prop where
  pitch : 3 * fb.width.toNat ≤ fb.pitch.toNat
  size : fb.size ≤ 2 ^ 32
  magic : font.magic = psfMagic
  flags : font.flags = 0#32
  widthPos : 1 ≤ font.width.toNat
  width : font.width.toNat ≤ fb.width.toNat
  heightPos : 1 ≤ font.height.toNat
  height : font.height.toNat ≤ fb.height.toNat

/-- A byte of a color. -/
def colorByte (c : BitVec 32) (k : Nat) : BitVec 8 :=
  (c >>> (8 * k)).setWidth 8

/-- A byte of a pixel of a glyph. -/
def pixelByte (color : BitVec 32) (on : Bool) (k : Nat) : BitVec 8 :=
  if on then colorByte color k else 0#8

theorem colorByte_zero (k : Nat) : colorByte 0#32 k = 0#8 := by
  rw [colorByte, BitVec.zero_ushiftRight, BitVec.setWidth_zero]

theorem ofNat_mul_word (k : Nat) (v : BitVec 32) :
    BitVec.ofNat 32 k * v = BitVec.ofNat 32 (k * v.toNat) := by
  rw [BitVec.ofNat_mul, BitVec.ofNat_toNat, BitVec.setWidth_eq]

/-- A round of a loop that draws: what it draws and what was drawn before is what is drawn then. -/
theorem ite_drawn {α : Type} {now before drawn : Prop} [Decidable now] [Decidable before]
    [Decidable drawn] {a b c : α} (hdrawn : drawn ↔ now ∨ before) (hnow : now → a = b) :
    (if now then a else if before then b else c) = if drawn then b else c := by
  by_cases h : now
  · rw [if_pos h, if_pos (hdrawn.mpr (Or.inl h)), hnow h]
  · rw [if_neg h]
    by_cases h' : before
    · rw [if_pos h', if_pos (hdrawn.mpr (Or.inr h'))]
    · rw [if_neg h', if_neg (fun hd => (hdrawn.mp hd).elim h h')]

/-- What the pixel of a glyph is drawn with. -/
theorem pixelByte_eq (color : BitVec 32) (on : Bool) (k : Nat) :
    colorByte (if on then color else 0#32) k = pixelByte color on k := by
  cases on with
  | true => rfl
  | false => exact colorByte_zero k

namespace Framebuffer

variable (fb : Framebuffer)

/-- The byte `r` of the row `y`. -/
def byteAt (m : Pixels) (y r : Nat) : BitVec 8 :=
  m (BitVec.ofNat 32 (y * fb.pitch.toNat + r))

variable {fb} {m : Pixels} {y y' r r' : Nat}

theorem row_lt (hy : y < fb.height.toNat) (hr : r < fb.pitch.toNat) :
    y * fb.pitch.toNat + r < fb.size := by
  have hle : (y + 1) * fb.pitch.toNat ≤ fb.height.toNat * fb.pitch.toNat :=
    Nat.mul_le_mul_right _ hy
  rw [Nat.add_mul, Nat.one_mul] at hle
  rw [size, Nat.mul_comm fb.pitch.toNat]
  omega

/-- A byte has one row and one place in it. -/
theorem row_inj {p : Nat} (hr : r < p) (hr' : r' < p) :
    y * p + r = y' * p + r' ↔ y = y' ∧ r = r' := by
  constructor
  · intro h
    have hdiv := congrArg (· / p) h
    have hmod := congrArg (· % p) h
    have hp : 0 < p := Nat.zero_lt_of_lt hr
    simp only [Nat.mul_comm _ p, Nat.mul_add_div hp, Nat.div_eq_of_lt hr, Nat.div_eq_of_lt hr',
      Nat.add_zero, Nat.mul_add_mod, Nat.mod_eq_of_lt hr, Nat.mod_eq_of_lt hr'] at hdiv hmod
    exact ⟨hdiv, hmod⟩
  · rintro ⟨rfl, rfl⟩
    rfl

theorem store_eq {offset : BitVec 32} (h : offset.toNat < fb.size) (b : BitVec 8) :
    fb.store m offset b = some (Function.update m offset b) :=
  if_pos h

section Bytes

variable (hsize : fb.size ≤ 2 ^ 32)

include hsize

theorem ofNat_toNat_row (hy : y < fb.height.toNat) (hr : r < fb.pitch.toNat) :
    (BitVec.ofNat 32 (y * fb.pitch.toNat + r)).toNat = y * fb.pitch.toNat + r := by
  rw [BitVec.toNat_ofNat, Nat.mod_eq_of_lt (Nat.lt_of_lt_of_le (row_lt hy hr) hsize)]

theorem store_row (hy : y < fb.height.toNat) (hr : r < fb.pitch.toNat) (b : BitVec 8) :
    fb.store m (BitVec.ofNat 32 (y * fb.pitch.toNat + r)) b =
      some (Function.update m (BitVec.ofNat 32 (y * fb.pitch.toNat + r)) b) :=
  store_eq (by rw [ofNat_toNat_row hsize hy hr]; exact row_lt hy hr) b

/-- The effect of one store. -/
theorem byteAt_update (hy : y < fb.height.toNat) (hr : r < fb.pitch.toNat)
    (hy' : y' < fb.height.toNat) (hr' : r' < fb.pitch.toNat) (b : BitVec 8) :
    fb.byteAt (Function.update m (BitVec.ofNat 32 (y' * fb.pitch.toNat + r')) b) y r =
      if y = y' ∧ r = r' then b else fb.byteAt m y r := by
  rw [byteAt]
  by_cases h : y = y' ∧ r = r'
  · rw [if_pos h, h.1, h.2, Function.update_self]
  · rw [if_neg h, Function.update_of_ne, byteAt]
    intro heq
    apply h
    rw [← row_inj hr hr', ← ofNat_toNat_row hsize hy hr, heq, ofNat_toNat_row hsize hy' hr']

end Bytes

/-- `put_pixel` changes the three bytes of the pixel. -/
theorem putPixel_spec (hpitch : 3 * fb.width.toNat ≤ fb.pitch.toNat) (hsize : fb.size ≤ 2 ^ 32)
    {px py : Nat} (hx : px < fb.width.toNat) (hy : py < fb.height.toNat) (c : BitVec 32)
    (m : Pixels) :
    ∃ m', fb.putPixel (BitVec.ofNat 32 px) (BitVec.ofNat 32 py) c m = some m' ∧
      ∀ y r, y < fb.height.toNat → r < fb.pitch.toNat →
        fb.byteAt m' y r =
          if y = py ∧ r / 3 = px then colorByte c (r % 3) else fb.byteAt m y r := by
  have hoff : ∀ k : Nat, BitVec.ofNat 32 px * 3#32 + BitVec.ofNat 32 py * fb.pitch +
      BitVec.ofNat 32 k = BitVec.ofNat 32 (py * fb.pitch.toNat + (3 * px + k)) := by
    intro k
    rw [ofNat_mul_word py, BitVec.ofNat_add, BitVec.ofNat_add, BitVec.ofNat_mul 3,
      BitVec.mul_comm (BitVec.ofNat 32 px), ← BitVec.add_assoc,
      BitVec.add_comm (BitVec.ofNat 32 (py * fb.pitch.toNat))]
  have hzero : BitVec.ofNat 32 px * 3#32 + BitVec.ofNat 32 py * fb.pitch =
      BitVec.ofNat 32 (py * fb.pitch.toNat + (3 * px + 0)) := by
    rw [← hoff 0, BitVec.add_zero]
  have hin : ∀ k, k < 3 → 3 * px + k < fb.pitch.toNat := fun k hk => by omega
  have hstore : ∀ k, k < 3 → ∀ (m : Pixels) (b : BitVec 8),
      fb.store m (BitVec.ofNat 32 (py * fb.pitch.toNat + (3 * px + k))) b =
        some (Function.update m (BitVec.ofNat 32 (py * fb.pitch.toNat + (3 * px + k))) b) :=
    fun k hk m b => store_row hsize hy (hin k hk) b
  let stored (k : Nat) (b : BitVec 8) (m : Pixels) : Pixels :=
    Function.update m (BitVec.ofNat 32 (py * fb.pitch.toNat + (3 * px + k))) b
  refine ⟨stored 2 (colorByte c 2) (stored 1 (colorByte c 1) (stored 0 (colorByte c 0) m)), ?_, ?_⟩
  · simp only [putPixel, mask_setWidth, hzero]
    rw [← hzero, hoff 1, hoff 2, hzero, hstore 0 (by decide)]
    show (fb.store _ _ _).bind _ = _
    rw [hstore 1 (by decide), Option.bind_some, hstore 2 (by decide)]
    rfl
  · intro y r hy' hr
    have hbyte : ∀ k, k < 3 → ∀ (m : Pixels) (b : BitVec 8),
        fb.byteAt (stored k b m) y r = if y = py ∧ r = 3 * px + k then b else fb.byteAt m y r :=
      fun k hk m b => byteAt_update hsize hy' hr hy (hin k hk) b
    rw [hbyte 2 (by decide), hbyte 1 (by decide), hbyte 0 (by decide)]
    by_cases hcell : y = py ∧ r / 3 = px
    · rw [if_pos hcell]
      have hr3 : r % 3 = 0 ∨ r % 3 = 1 ∨ r % 3 = 2 := by omega
      rcases hr3 with h | h | h
      · rw [if_neg (by omega), if_neg (by omega), if_pos (by omega), h]
      · rw [if_neg (by omega), if_pos (by omega), h]
      · rw [if_pos (by omega), h]
    · rw [if_neg hcell, if_neg (by omega), if_neg (by omega), if_neg (by omega)]

end Framebuffer

/-- The bit of the glyph of `c` at the column `x` of its row `y`. Each row has whole bytes, and the
    first column is the highest bit. -/
def PsfFont.glyphBit (font : PsfFont) (c : BitVec 8) (x y : Nat) : Bool :=
  (font.file (BitVec.ofNat 32 (font.headerSize.toNat + font.glyphSize.toNat * c.toNat +
    (y * ((font.width.toNat + 7) / 8) + x / 8)))).getLsbD (7 - x % 8)

/-- A shifted `char` is odd if the bit is set. -/
theorem shifted_odd_iff (b : BitVec 8) {n : Nat} (hn : n < 8) :
    ((b.signExtend 32).sshiftRight n) &&& 1#32 ≠ 0#32 ↔ b.getLsbD n = true := by
  have hbit : ((b.signExtend 32).sshiftRight n).getLsbD 0 = b.getLsbD n := by
    rw [BitVec.getLsbD_sshiftRight, BitVec.getLsbD_signExtend, if_pos (by omega), if_pos (by omega)]
    simp
    omega
  rw [BitVec.and_one_eq_setWidth_ofBool_getLsbD, hbit]
  cases b.getLsbD n <;> decide

namespace Framebuffer

variable {fb : Framebuffer} {font : PsfFont}

/-- The bit that the row loop tests in round `i`. -/
theorem rowBit_iff {c : BitVec 8} {i y : Nat} (hi : i < font.width.toNat) :
    ((((font.file (font.headerSize + font.glyphSize * c.setWidth 32 +
      (BitVec.ofNat 32 (y * ((font.width.toNat + 7) / 8)) + BitVec.ofNat 32 i / 8#32))).signExtend
        32).sshiftRight (7#32 - BitVec.ofNat 32 i % 8#32).toNat) &&& 1#32 ≠ 0#32) ↔
      font.glyphBit c i y = true := by
  have hlt : i < 2 ^ 32 := Nat.lt_trans hi font.width.isLt
  have h8 : (8#32).toNat = 8 := rfl
  have h7 : (7#32).toNat = 7 := rfl
  have hdiv : BitVec.ofNat 32 i / 8#32 = BitVec.ofNat 32 (i / 8) := by
    apply BitVec.eq_of_toNat_eq
    rw [BitVec.toNat_udiv, h8, BitVec.toNat_ofNat, BitVec.toNat_ofNat, Nat.mod_eq_of_lt hlt,
      Nat.mod_eq_of_lt (by omega)]
  have hmod : (7#32 - BitVec.ofNat 32 i % 8#32).toNat = 7 - i % 8 := by
    rw [BitVec.toNat_sub, BitVec.toNat_umod, h8, h7, BitVec.toNat_ofNat, Nat.mod_eq_of_lt hlt]
    omega
  have haddr : font.headerSize + font.glyphSize * c.setWidth 32 +
      (BitVec.ofNat 32 (y * ((font.width.toNat + 7) / 8)) + BitVec.ofNat 32 i / 8#32) =
      BitVec.ofNat 32 (font.headerSize.toNat + font.glyphSize.toNat * c.toNat +
        (y * ((font.width.toNat + 7) / 8) + i / 8)) := by
    generalize y * ((font.width.toNat + 7) / 8) = k
    rw [hdiv, BitVec.ofNat_add, BitVec.ofNat_add, BitVec.ofNat_add, BitVec.ofNat_mul,
      BitVec.ofNat_toNat, BitVec.ofNat_toNat, BitVec.ofNat_toNat, BitVec.setWidth_eq,
      BitVec.setWidth_eq]
  rw [haddr, hmod, shifted_odd_iff _ (by omega), PsfFont.glyphBit]

/-- The bytes of a row of a glyph. The width of a font that fits is far below the wrap. -/
theorem lineSize_eq (h : Fits fb font) :
    (font.width + 7#32) / 8#32 = BitVec.ofNat 32 ((font.width.toNat + 7) / 8) := by
  have hpitch := h.pitch
  have hwidth := h.width
  have hlt := fb.pitch.isLt
  have h8 : (8#32).toNat = 8 := rfl
  have h7 : (7#32).toNat = 7 := rfl
  apply BitVec.eq_of_toNat_eq
  rw [BitVec.toNat_udiv, BitVec.toNat_add, h7, h8, BitVec.toNat_ofNat, Nat.mod_eq_of_lt (by omega),
    Nat.mod_eq_of_lt (by omega)]

/-- A row of a glyph changes the pixels of that row of the cell. -/
theorem psfPutRow_spec (h : Fits fb font) {xa ya y : Nat}
    (hx : xa + font.width.toNat ≤ fb.width.toNat)
    (hy : ya + y < fb.height.toNat) (c : BitVec 8) (lineSize color : BitVec 32) (m : Pixels) :
    ∃ m', fb.psfPutRow font (font.headerSize + font.glyphSize * c.setWidth 32)
        (BitVec.ofNat 32 xa) (BitVec.ofNat 32 ya) lineSize color y
        (BitVec.ofNat 32 (y * ((font.width.toNat + 7) / 8)), m) =
          some (BitVec.ofNat 32 (y * ((font.width.toNat + 7) / 8)) + lineSize, m') ∧
      ∀ y' r, y' < fb.height.toNat → r < fb.pitch.toNat →
        fb.byteAt m' y' r =
          if y' = ya + y ∧ xa ≤ r / 3 ∧ r / 3 < xa + font.width.toNat then
            pixelByte color (font.glyphBit c (r / 3 - xa) y) (r % 3)
          else fb.byteAt m y' r := by
  have hloop := forLoop_rule
    (fb.psfPutBit font (font.headerSize + font.glyphSize * c.setWidth 32)
      (BitVec.ofNat 32 (y * ((font.width.toNat + 7) / 8))) (BitVec.ofNat 32 xa) (BitVec.ofNat 32 ya)
      (BitVec.ofNat 32 y) color) 0 font.width.toNat (s := m)
    (fun i m' => ∀ y' r, y' < fb.height.toNat → r < fb.pitch.toNat →
      fb.byteAt m' y' r =
        if y' = ya + y ∧ xa ≤ r / 3 ∧ r / 3 < xa + i then
          pixelByte color (font.glyphBit c (r / 3 - xa) y) (r % 3)
        else fb.byteAt m y' r) ?_ ?_
  · rw [Nat.zero_add] at hloop
    obtain ⟨m', hm', hbytes⟩ := hloop
    refine ⟨m', ?_, hbytes⟩
    rw [psfPutRow, hm']
    rfl
  · intro i _ hi m1 hinv
    rw [Nat.zero_add] at hi
    obtain ⟨m2, hm2, hpix⟩ := putPixel_spec h.pitch h.size
      (show xa + i < fb.width.toNat by omega) hy (if font.glyphBit c i y then color else 0#32) m1
    refine ⟨m2, ?_, ?_⟩
    · rw [BitVec.ofNat_add, BitVec.ofNat_add, BitVec.add_comm (BitVec.ofNat 32 xa),
        BitVec.add_comm (BitVec.ofNat 32 ya)] at hm2
      dsimp only [psfPutBit]
      by_cases hbit : font.glyphBit c i y = true
      · rw [if_pos ((rowBit_iff hi).mpr hbit)]
        rwa [if_pos hbit] at hm2
      · rw [if_neg (fun hodd => hbit ((rowBit_iff hi).mp hodd))]
        rwa [if_neg hbit] at hm2
    · intro y' r hy' hr
      rw [hpix y' r hy' hr, hinv y' r hy' hr, pixelByte_eq]
      apply ite_drawn
      · omega
      · intro hcell
        rw [show r / 3 - xa = i by omega]
  · intro y' r _ _
    rw [if_neg (by omega)]

/-- The numbers whose quotient is `k`. -/
theorem cell_iff {q f k : Nat} (hf : 1 ≤ f) : q / f = k ↔ k * f ≤ q ∧ q < k * f + f := by
  rw [Nat.div_eq_iff hf]
  omega

theorem cell_sub {q f k : Nat} (h : q / f = k) : q - k * f = q % f := by
  rw [← h, Nat.mod_eq_sub_mul_div, Nat.mul_comm]

/-- A character changes the rectangle of its cell. -/
theorem psfPutChar_spec (h : Fits fb font) {xc yc : Nat}
    (hx : (xc + 1) * font.width.toNat ≤ fb.width.toNat)
    (hy : (yc + 1) * font.height.toNat ≤ fb.height.toNat) (c : BitVec 8) (color : BitVec 32)
    (m : Pixels) :
    ∃ m', fb.psfPutChar font c (BitVec.ofNat 32 xc) (BitVec.ofNat 32 yc) color m = some m' ∧
      ∀ y r, y < fb.height.toNat → r < fb.pitch.toNat →
        fb.byteAt m' y r =
          if y / font.height.toNat = yc ∧ r / 3 / font.width.toNat = xc then
            pixelByte color (font.glyphBit c (r / 3 % font.width.toNat) (y % font.height.toNat))
              (r % 3)
          else fb.byteAt m y r := by
  have hw := h.widthPos
  rw [Nat.add_mul, Nat.one_mul] at hx hy
  have hloop := forLoop_rule
    (fb.psfPutRow font (font.headerSize + font.glyphSize * c.setWidth 32)
      (BitVec.ofNat 32 (xc * font.width.toNat)) (BitVec.ofNat 32 (yc * font.height.toNat))
      (BitVec.ofNat 32 ((font.width.toNat + 7) / 8)) color) 0 font.height.toNat (s := (0#32, m))
    (fun j s => s.1 = BitVec.ofNat 32 (j * ((font.width.toNat + 7) / 8)) ∧
      ∀ y r, y < fb.height.toNat → r < fb.pitch.toNat →
      fb.byteAt s.2 y r =
        if yc * font.height.toNat ≤ y ∧ y < yc * font.height.toNat + j ∧
            xc * font.width.toNat ≤ r / 3 ∧ r / 3 < xc * font.width.toNat + font.width.toNat then
          pixelByte color (font.glyphBit c (r / 3 - xc * font.width.toNat)
            (y - yc * font.height.toNat)) (r % 3)
        else fb.byteAt m y r) ?_ ?_
  · rw [Nat.zero_add] at hloop
    obtain ⟨⟨offset, m'⟩, hm', -, hbytes⟩ := hloop
    refine ⟨m', ?_, fun y r hy' hr => ?_⟩
    · rw [psfPutChar, if_neg (by simp [h.flags, h.magic]), ofNat_mul_word,
        ofNat_mul_word, lineSize_eq h]
      dsimp only
      rw [hm']
      rfl
    · rw [hbytes y r hy' hr]
      by_cases hcell : y / font.height.toNat = yc ∧ r / 3 / font.width.toNat = xc
      · obtain ⟨hyin, hxin⟩ := hcell
        have hylo := (cell_iff h.heightPos).mp hyin
        rw [if_pos ⟨hylo.1, hylo.2, (cell_iff hw).mp hxin⟩, if_pos ⟨hyin, hxin⟩, cell_sub hyin,
          cell_sub hxin]
      · rw [if_neg hcell, if_neg]
        rintro ⟨hlo, hhi, hxin⟩
        exact hcell ⟨(cell_iff h.heightPos).mpr ⟨hlo, hhi⟩, (cell_iff hw).mpr hxin⟩
  · rintro j _ hj ⟨_, m1⟩ ⟨rfl, hinv⟩
    rw [Nat.zero_add] at hj
    obtain ⟨m2, hm2, hrow⟩ := psfPutRow_spec h hx
      (show yc * font.height.toNat + j < fb.height.toNat by omega) c
      (BitVec.ofNat 32 ((font.width.toNat + 7) / 8)) color m1
    refine ⟨_, hm2, ?_, fun y r hy' hr => ?_⟩
    · show _ + _ = _
      rw [Nat.add_mul, Nat.one_mul, BitVec.ofNat_add]
    · show fb.byteAt m2 y r = _
      rw [hrow y r hy' hr, hinv y r hy' hr]
      apply ite_drawn
      · omega
      · intro hcell
        rw [show y - yc * font.height.toNat = j by omega]
  · refine ⟨by rw [Nat.zero_mul], fun y r _ _ => ?_⟩
    rw [if_neg (by omega)]

section Scroll

variable {d : Nat}

/-- The copy moves the rows from `d` on up to the first rows. -/
theorem memcpy_spec (hsize : fb.size ≤ 2 ^ 32) {rows : Nat} (hd : 0 < d)
    (hrows : rows + d ≤ fb.height.toNat) {src size : BitVec 32}
    (hsrc : src = BitVec.ofNat 32 (fb.pitch.toNat * d))
    (hcount : size.toNat = rows * fb.pitch.toNat) (m : Pixels) :
    ∃ m', fb.memcpy 0#32 src size m = some m' ∧
      ∀ y r, y < fb.height.toNat → r < fb.pitch.toNat →
        fb.byteAt m' y r = if y < rows then fb.byteAt m (y + d) r else fb.byteAt m y r := by
  have hlt : rows * fb.pitch.toNat + fb.pitch.toNat * d ≤ fb.size := by
    rw [Framebuffer.size, Nat.mul_comm rows, ← Nat.mul_add]
    exact Nat.mul_le_mul_left _ hrows
  have hloop := forLoop_rule
    (fun i m => fb.store m (0#32 + BitVec.ofNat 32 i) (m (src + BitVec.ofNat 32 i))) 0 size.toNat
    (fun i m' => m' = copyRun (fun i => BitVec.ofNat 32 i) (fun i => src + BitVec.ofNat 32 i) m i)
    ?_ rfl
  · obtain ⟨m', hm', hrun⟩ := hloop
    rw [Nat.zero_add, hcount] at hrun
    refine ⟨m', hm', fun y r hy hr => ?_⟩
    have hpos : 0 < fb.pitch.toNat := Nat.zero_lt_of_lt hr
    by_cases hlow : y < rows
    · rw [if_pos hlow]
      have hin : y * fb.pitch.toNat + r < rows * fb.pitch.toNat := by
        calc y * fb.pitch.toNat + r < (y + 1) * fb.pitch.toNat := by
              rw [Nat.add_mul, Nat.one_mul]
              omega
          _ ≤ rows * fb.pitch.toNat := Nat.mul_le_mul_right _ hlow
      have hcopied := copyRun_dst (fun i => BitVec.ofNat 32 i)
        (fun i => src + BitVec.ofNat 32 i) (m := m) ?_ ?_ hin
      · rw [byteAt, hrun, hcopied, hsrc, ← BitVec.ofNat_add, byteAt]
        congr 2
        ring
      · -- a byte that is read lies behind all bytes that were stored
        intro i j hij hj heq
        have hd' : fb.pitch.toNat ≤ fb.pitch.toNat * d := Nat.le_mul_of_pos_right _ hd
        rw [hsrc, ← BitVec.ofNat_add, ← BitVec.toNat_inj, BitVec.toNat_ofNat, BitVec.toNat_ofNat,
          Nat.mod_eq_of_lt (by omega), Nat.mod_eq_of_lt (by omega)] at heq
        omega
      · intro i j hij hj heq
        rw [← BitVec.toNat_inj, BitVec.toNat_ofNat, BitVec.toNat_ofNat, Nat.mod_eq_of_lt (by omega),
          Nat.mod_eq_of_lt (by omega)] at heq
        omega
    · rw [if_neg hlow, byteAt, hrun, byteAt]
      apply copyRun_other
      intro i hi heq
      have hge : rows * fb.pitch.toNat ≤ y * fb.pitch.toNat :=
        Nat.mul_le_mul_right _ (Nat.le_of_not_lt hlow)
      rw [← BitVec.toNat_inj, ofNat_toNat_row hsize hy hr, BitVec.toNat_ofNat,
        Nat.mod_eq_of_lt (by omega)] at heq
      omega
  · intro i _ hi m1 hinv
    rw [Nat.zero_add, hcount] at hi
    refine ⟨Function.update m1 (BitVec.ofNat 32 i) (m1 (src + BitVec.ofNat 32 i)), ?_, ?_⟩
    · rw [BitVec.zero_add]
      apply store_eq
      rw [BitVec.toNat_ofNat, Nat.mod_eq_of_lt (by omega)]
      omega
    · rw [copyRun_succ, ← hinv]

theorem clearRow_spec (hsize : fb.size ≤ 2 ^ 32) {y : Nat} (hy : y < fb.height.toNat) (m : Pixels) :
    ∃ m', fb.clearRow (BitVec.ofNat 32 y) m = some m' ∧
      ∀ y' r, y' < fb.height.toNat → r < fb.pitch.toNat →
        fb.byteAt m' y' r = if y' = y then 0#8 else fb.byteAt m y' r := by
  have hrow : ∀ i, BitVec.ofNat 32 y * fb.pitch + BitVec.ofNat 32 i =
      BitVec.ofNat 32 (y * fb.pitch.toNat + i) := by
    intro i
    rw [BitVec.ofNat_add, ofNat_mul_word]
  have hloop := forLoop_rule
    (fun i m => fb.store m (BitVec.ofNat 32 y * fb.pitch + BitVec.ofNat 32 i) 0#8) 0 fb.pitch.toNat
    (s := m) (fun i m' => ∀ y' r, y' < fb.height.toNat → r < fb.pitch.toNat →
      fb.byteAt m' y' r = if y' = y ∧ r < i then 0#8 else fb.byteAt m y' r) ?_ ?_
  · obtain ⟨m', hm', hbytes⟩ := hloop
    refine ⟨m', hm', fun y' r hy' hr => ?_⟩
    rw [hbytes y' r hy' hr]
    by_cases heq : y' = y
    · rw [if_pos ⟨heq, by omega⟩, if_pos heq]
    · rw [if_neg (fun h => heq h.1), if_neg heq]
  · intro i _ hi m1 hinv
    rw [Nat.zero_add] at hi
    refine ⟨Function.update m1 (BitVec.ofNat 32 (y * fb.pitch.toNat + i)) 0#8, ?_,
      fun y' r hy' hr => ?_⟩
    · rw [hrow, store_row hsize hy hi]
    · rw [byteAt_update hsize hy' hr hy hi, hinv y' r hy' hr]
      exact ite_drawn (by omega) (fun _ => rfl)
  · intro y' r _ _
    rw [if_neg (by omega)]

/-- The rows that `scroll` keeps. -/
theorem toNat_keptRows (h : Fits fb font) :
    (fb.height - fb.height % font.height - font.height).toNat =
      (fb.height.toNat / font.height.toNat - 1) * font.height.toNat := by
  have hdiv := Nat.div_add_mod fb.height.toNat font.height.toNat
  have hmul : font.height.toNat ≤ font.height.toNat * (fb.height.toNat / font.height.toNat) :=
    Nat.le_mul_of_pos_right _ (Nat.div_pos h.height h.heightPos)
  have hmod : fb.height % font.height ≤ fb.height := by
    rw [BitVec.le_def, BitVec.toNat_umod]
    exact Nat.mod_le _ _
  have haligned : font.height ≤ fb.height - fb.height % font.height := by
    rw [BitVec.le_def, BitVec.toNat_sub_of_le hmod, BitVec.toNat_umod]
    omega
  rw [BitVec.toNat_sub_of_le haligned, BitVec.toNat_sub_of_le hmod, BitVec.toNat_umod, Nat.sub_mul,
    Nat.one_mul, Nat.mul_comm]
  omega

theorem keptRows_add_le (h : Fits fb font) :
    (fb.height.toNat / font.height.toNat - 1) * font.height.toNat + font.height.toNat ≤
      fb.height.toNat := by
  have hdiv : 1 ≤ fb.height.toNat / font.height.toNat := Nat.div_pos h.height h.heightPos
  calc (fb.height.toNat / font.height.toNat - 1) * font.height.toNat + font.height.toNat
      = fb.height.toNat / font.height.toNat * font.height.toNat := by
        rw [← Nat.succ_mul, Nat.succ_eq_add_one, Nat.sub_add_cancel hdiv]
    _ ≤ fb.height.toNat := Nat.div_mul_le_self _ _

/-- The bytes that `scroll` copies, which are fewer than the framebuffer has. -/
theorem toNat_keptBytes (h : Fits fb font) {rows : Nat}
    (hrows : rows + font.height.toNat ≤ fb.height.toNat) {top : BitVec 32}
    (htop : top.toNat = rows) : (top * fb.pitch).toNat = rows * fb.pitch.toNat := by
  have hpitch := h.pitch
  have hwidth := h.width
  have hsize := h.size
  have hlt : (rows + font.height.toNat) * fb.pitch.toNat ≤ fb.size := by
    rw [Framebuffer.size, Nat.mul_comm]
    exact Nat.mul_le_mul_left _ hrows
  have hpos : 0 < font.height.toNat * fb.pitch.toNat :=
    Nat.mul_pos h.heightPos (by have := h.widthPos; omega)
  rw [Nat.add_mul] at hlt
  rw [BitVec.toNat_mul, htop, Nat.mod_eq_of_lt (by omega)]

/-- `scroll` moves the rows up by the height of a font row and clears the last one and the
    margin. -/
theorem scroll_spec (h : Fits fb font) (m : Pixels) :
    ∃ m', fb.scroll font.height m = some m' ∧
      ∀ y r, y < fb.height.toNat → r < fb.pitch.toNat →
        fb.byteAt m' y r =
          if y < (fb.height.toNat / font.height.toNat - 1) * font.height.toNat then
            fb.byteAt m (y + font.height.toNat) r
          else 0#8 := by
  have hsize := h.size
  have htop := toNat_keptRows h
  have hrows := keptRows_add_le h
  generalize (fb.height.toNat / font.height.toNat - 1) * font.height.toNat = rows at htop hrows ⊢
  have hcount := toNat_keptBytes h hrows htop
  have hsrc : fb.pitch * font.height = BitVec.ofNat 32 (fb.pitch.toNat * font.height.toNat) := by
    rw [← ofNat_mul_word, BitVec.ofNat_toNat, BitVec.setWidth_eq]
  obtain ⟨m1, hm1, hcopied⟩ := memcpy_spec hsize h.heightPos hrows hsrc hcount m
  have hloop := forLoop_rule (fun y => fb.clearRow (BitVec.ofNat 32 y)) rows
    (fb.height.toNat - rows) (s := m1)
    (fun y m' => ∀ y' r, y' < fb.height.toNat → r < fb.pitch.toNat →
      fb.byteAt m' y' r = if rows ≤ y' ∧ y' < y then 0#8 else fb.byteAt m1 y' r) ?_ ?_
  · obtain ⟨m', hm', hbytes⟩ := hloop
    refine ⟨m', ?_, fun y r hy hr => ?_⟩
    · rw [scroll, hm1]
      show forLoop _ _ _ _ = _
      rw [htop, hm']
    · rw [hbytes y r hy hr, hcopied y r hy hr]
      by_cases hlow : y < rows
      · rw [if_pos hlow, if_pos hlow, if_neg (by omega)]
      · rw [if_neg hlow, if_neg hlow, if_pos (by omega)]
  · intro y hlo hhi m2 hinv
    obtain ⟨m3, hm3, hcleared⟩ := clearRow_spec hsize (y := y) (by omega) m2
    refine ⟨m3, hm3, fun y' r hy' hr => ?_⟩
    rw [hcleared y' r hy' hr, hinv y' r hy' hr]
    exact ite_drawn (by omega) (fun _ => rfl)
  · intro y' r _ _
    rw [if_neg (by omega)]

end Scroll

end Framebuffer

end Muse.Console
