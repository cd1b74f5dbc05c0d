import Muse.Console.Format
import Muse.Console.Proofs.Grid
import Muse.Console.Proofs.Numeral
import Muse.Library.CString
import Muse.Library.Fuel

/-!
# What a format prints

A format is read once from left to right. `Renders` says which characters it stands for with the
arguments that it uses up; the calls that are made are these characters in this order, so the
console shows them behind what was there. A percent sign that is the last character takes the zero
byte behind it along, and the format goes on behind that. The log puts its level and its class in
front, and both can be read from the line.
-/

namespace Muse.Console

open Library

/-- The digits of a number. -/
def digits (base : Nat) (x : BitVec 32) : List (BitVec 8) :=
  (numeral base x.toNat).map fun d => digitChar (BitVec.ofNat 32 d)

/-- The format stands for the characters, with these words as its arguments. -/
inductive Renders (mem : ByteMem) : List (BitVec 8) → List (BitVec 32) → List (BitVec 8) → Prop
  | nil : Renders mem [] [] []
  | lit {c : BitVec 8} {fmt : List (BitVec 8)} {args : List (BitVec 32)} {out : List (BitVec 8)} :
      c ≠ 0#8 → c ≠ char '%' → Renders mem fmt args out → Renders mem (c :: fmt) args (c :: out)
  | str {p : BitVec 32} {s fmt : List (BitVec 8)} {args : List (BitVec 32)}
      {out : List (BitVec 8)} :
      CStringAt mem p s → Renders mem fmt args out →
      Renders mem (char '%' :: char 's' :: fmt) (p :: args) (s ++ out)
  | int {x : BitVec 32} {fmt : List (BitVec 8)} {args : List (BitVec 32)} {out : List (BitVec 8)} :
      Renders mem fmt args out →
      Renders mem (char '%' :: char 'i' :: fmt) (x :: args) (digits 10 x ++ out)
  | hex {x : BitVec 32} {fmt : List (BitVec 8)} {args : List (BitVec 32)} {out : List (BitVec 8)} :
      Renders mem fmt args out →
      Renders mem (char '%' :: char 'x' :: fmt) (x :: args) (chars "0x" ++ digits 16 x ++ out)
  | other {c : BitVec 8} {fmt : List (BitVec 8)} {args : List (BitVec 32)} {out : List (BitVec 8)} :
      c ≠ 0#8 → consumeSpecifier c = .none → Renders mem fmt args out →
      Renders mem (char '%' :: c :: fmt) args (char '%' :: c :: out)

/-- A row of bytes. -/
def BytesAt (mem : ByteMem) : BitVec 32 → List (BitVec 8) → Prop
  | _, [] => True
  | a, c :: cs => mem a = c ∧ BytesAt mem (a + 1#32) cs

/-- A row of words. -/
def WordsAt (mem : ByteMem) : BitVec 32 → List (BitVec 32) → Prop
  | _, [] => True
  | a, w :: ws => readWord mem a = w ∧ WordsAt mem (a + 4#32) ws

variable {mem : ByteMem} {color fmt args : BitVec 32} {format s out : List (BitVec 8)}
  {ws : List (BitVec 32)} {calls : Calls}

theorem CStringAt.bytesAt {p : BitVec 32} (h : CStringAt mem p s) : BytesAt mem p s := by
  induction s generalizing p with
  | nil => trivial
  | cons c s ih => exact ⟨h.cons_byte, ih h.tail⟩

@[simp] theorem colored_append (color : BitVec 32) (s t : List (BitVec 8)) :
    colored color (s ++ t) = colored color s ++ colored color t := List.map_append

/-- The characters of a string, in order. -/
theorem kprintFancy_returns {p : BitVec 32} (h : CStringAt mem p s) (color : BitVec 32) (fuel : Nat)
    (hfuel : s.length < fuel) : kprintFancy mem color fuel p = some (colored color s) := by
  induction s generalizing p fuel with
  | nil =>
      cases fuel with
      | zero => exact absurd hfuel (Nat.not_lt_zero _)
      | succ fuel => rw [kprintFancy, if_pos h.nil_byte, colored, List.map_nil]
  | cons c s ih =>
      cases fuel with
      | zero => exact absurd hfuel (Nat.not_lt_zero _)
      | succ fuel =>
          have hne : mem p ≠ 0#8 := by
            rw [h.cons_byte]
            exact h.cons_ne
          have hrest := ih h.tail fuel (Nat.lt_of_succ_lt_succ hfuel)
          rw [kprintFancy, if_neg hne, hrest, h.cons_byte]
          rfl

theorem kprintIntFancy_digits (x base color : BitVec 32) (hlo : 10 ≤ base.toNat)
    (hhi : base.toNat ≤ 36) :
    kprintIntFancy x base color = colored color (digits base.toNat x) := by
  rw [kprintIntFancy_eq color hlo hhi, colored, digits, List.map_map]
  rfl

/-! ## One part of a format -/

/-- The first call makes the calls `a` and goes on as the second one. -/
def Continues (call next : Nat → Option Calls) (a : Calls) : Prop :=
  ∀ calls, Returns call calls ↔ ∃ rest, Returns next rest ∧ a ++ rest = calls

namespace Continues

variable {call next last : Nat → Option Calls} {a b : Calls}

theorem refl : Continues call call [] := by
  intro calls
  simp

theorem trans (h : Continues call next a) (h' : Continues next last b) :
    Continues call last (a ++ b) := by
  intro calls
  rw [h calls]
  constructor
  · rintro ⟨rest, hrest, rfl⟩
    obtain ⟨rest', hrest', rfl⟩ := (h' rest).mp hrest
    exact ⟨rest', hrest', List.append_assoc ..⟩
  · rintro ⟨rest, hrest, rfl⟩
    exact ⟨b ++ rest, (h' _).mpr ⟨rest, hrest, rfl⟩, (List.append_assoc ..).symm⟩

theorem of_round (bound : Nat)
    (h : ∀ fuel, bound ≤ fuel → call (fuel + 1) = (next fuel).map fun rest => a ++ rest) :
    Continues call next a := fun _ => returns_round_iff (List.append_right_injective a) bound h

end Continues

section Parts

variable {c : BitVec 8}

/-- What is left of a call with other pointers. -/
def printing (mem : ByteMem) (color fmt args : BitVec 32) : Nat → Option Calls := fun fuel =>
  kvprintfFancy mem color fuel fmt args

theorem printing_lit (hc : mem fmt = c) (hzero : c ≠ 0#8) (hpercent : c ≠ char '%') :
    Continues (printing mem color fmt args) (printing mem color (fmt + 1#32) args)
      (colored color [c]) := by
  apply Continues.of_round 0
  intro fuel _
  rw [printing, kvprintfFancy, hc, if_neg hzero, if_neg hpercent, printing]
  cases kvprintfFancy mem color fuel (fmt + 1#32) args <;> rfl

section Percent

variable (hpercent : mem fmt = char '%') (hc : mem (fmt + 1#32) = c)

include hpercent hc

theorem kvprintf_percent (fuel : Nat) : kvprintfFancy mem color (fuel + 1) fmt args =
    match consumeSpecifier c with
    | .none => (kvprintfFancy mem color fuel (fmt + 1#32 + 1#32) args).bind fun rest =>
        some ((char '%', color) :: (c, color) :: rest)
    | .str => (kprintFancy mem color fuel (readWord mem args)).bind fun calls =>
        (kvprintfFancy mem color fuel (fmt + 1#32 + 1#32) (args + 4#32)).bind fun rest =>
          some (calls ++ rest)
    | .int => (kvprintfFancy mem color fuel (fmt + 1#32 + 1#32) (args + 4#32)).bind fun rest =>
        some (kprintIntFancy (readWord mem args) 10#32 color ++ rest)
    | .hex => (kvprintfFancy mem color fuel (fmt + 1#32 + 1#32) (args + 4#32)).bind fun rest =>
        some (colored color (chars "0x") ++ kprintIntFancy (readWord mem args) 16#32 color ++
          rest) := by
  have hne : char '%' ≠ 0#8 := by decide
  rw [kvprintfFancy, hpercent, if_neg hne, if_pos rfl]
  simp only [hc]
  rfl

/-- A percent sign and a character that is none of the three. -/
theorem printing_other (hspec : consumeSpecifier c = .none) :
    Continues (printing mem color fmt args) (printing mem color (fmt + 1#32 + 1#32) args)
      (colored color [char '%', c]) := by
  apply Continues.of_round 0
  intro fuel _
  rw [printing, kvprintf_percent hpercent hc, hspec, printing]
  cases kvprintfFancy mem color fuel (fmt + 1#32 + 1#32) args <;> rfl

theorem printing_str (hspec : consumeSpecifier c = .str)
    (hs : CStringAt mem (readWord mem args) s) :
    Continues (printing mem color fmt args) (printing mem color (fmt + 1#32 + 1#32) (args + 4#32))
      (colored color s) := by
  apply Continues.of_round (s.length + 1)
  intro fuel hfuel
  rw [printing, kvprintf_percent hpercent hc, hspec, printing]
  simp only [kprintFancy_returns hs color fuel hfuel, Option.bind_some]
  cases kvprintfFancy mem color fuel (fmt + 1#32 + 1#32) (args + 4#32) <;> rfl

theorem printing_int (hspec : consumeSpecifier c = .int) :
    Continues (printing mem color fmt args) (printing mem color (fmt + 1#32 + 1#32) (args + 4#32))
      (colored color (digits 10 (readWord mem args))) := by
  have hdigits : kprintIntFancy (readWord mem args) 10#32 color =
      colored color (digits 10 (readWord mem args)) :=
    kprintIntFancy_digits _ 10#32 color (by decide) (by decide)
  apply Continues.of_round 0
  intro fuel _
  rw [printing, kvprintf_percent hpercent hc, hspec, printing, hdigits]
  cases kvprintfFancy mem color fuel (fmt + 1#32 + 1#32) (args + 4#32) <;> rfl

theorem printing_hex (hspec : consumeSpecifier c = .hex) :
    Continues (printing mem color fmt args) (printing mem color (fmt + 1#32 + 1#32) (args + 4#32))
      (colored color (chars "0x" ++ digits 16 (readWord mem args))) := by
  have hdigits : kprintIntFancy (readWord mem args) 16#32 color =
      colored color (digits 16 (readWord mem args)) :=
    kprintIntFancy_digits _ 16#32 color (by decide) (by decide)
  apply Continues.of_round 0
  intro fuel _
  rw [printing, kvprintf_percent hpercent hc, hspec, printing, hdigits, colored_append]
  cases kvprintfFancy mem color fuel (fmt + 1#32 + 1#32) (args + 4#32) <;> rfl

end Percent

end Parts

/-! ## A whole format -/

theorem add_length (a : BitVec 32) (n : Nat) :
    a + 1#32 + BitVec.ofNat 32 n = a + BitVec.ofNat 32 (n + 1) := by
  rw [BitVec.add_assoc, BitVec.add_comm 1#32, ofNat_succ]

theorem add_length_two (a : BitVec 32) (n : Nat) :
    a + 1#32 + 1#32 + BitVec.ofNat 32 n = a + BitVec.ofNat 32 (n + 1 + 1) := by
  rw [add_length (a + 1#32), add_length]

theorem add_words (a : BitVec 32) (n : Nat) :
    a + 4#32 + BitVec.ofNat 32 (4 * n) = a + BitVec.ofNat 32 (4 * (n + 1)) := by
  rw [BitVec.add_assoc, ← BitVec.ofNat_add, Nat.mul_succ, Nat.add_comm 4]

/-- The run over a format, up to what is behind it. -/
theorem printing_renders (h : Renders mem format ws out) (hfmt : BytesAt mem fmt format)
    (hargs : WordsAt mem args ws) : Continues (printing mem color fmt args)
      (printing mem color (fmt + BitVec.ofNat 32 format.length)
        (args + BitVec.ofNat 32 (4 * ws.length))) (colored color out) := by
  induction h generalizing fmt args with
  | nil =>
      simp only [List.length_nil, Nat.mul_zero, BitVec.add_zero]
      exact .refl
  | lit hzero hpercent _ ih =>
      obtain ⟨hc, hfmt⟩ := hfmt
      have hrest := ih hfmt hargs
      rw [add_length] at hrest
      exact (printing_lit hc hzero hpercent).trans hrest
  | str hs _ ih =>
      obtain ⟨hpercent, hc, hfmt⟩ := hfmt
      obtain ⟨hp, hargs⟩ := hargs
      have hrest := ih hfmt hargs
      rw [add_length_two, add_words] at hrest
      rw [← hp] at hs
      rw [colored_append]
      exact (printing_str hpercent hc (by decide) hs).trans hrest
  | int _ ih =>
      obtain ⟨hpercent, hc, hfmt⟩ := hfmt
      obtain ⟨rfl, hargs⟩ := hargs
      have hrest := ih hfmt hargs
      rw [add_length_two, add_words] at hrest
      rw [colored_append]
      exact (printing_int hpercent hc (by decide)).trans hrest
  | hex _ ih =>
      obtain ⟨hpercent, hc, hfmt⟩ := hfmt
      obtain ⟨rfl, hargs⟩ := hargs
      have hrest := ih hfmt hargs
      rw [add_length_two, add_words] at hrest
      rw [colored_append]
      exact (printing_hex hpercent hc (by decide)).trans hrest
  | other _ hspec _ ih =>
      obtain ⟨hpercent, hc, hfmt⟩ := hfmt
      have hrest := ih hfmt hargs
      rw [add_length_two] at hrest
      exact (printing_other hpercent hc hspec).trans hrest

theorem printing_end (hzero : mem fmt = 0#8) : Returns (printing mem color fmt args) [] := by
  refine ⟨1, fun fuel hfuel => ?_⟩
  cases fuel with
  | zero => exact absurd hfuel (Nat.not_succ_le_zero 0)
  | succ fuel => rw [printing, kvprintfFancy, if_pos hzero]

/-- A format that ends with its zero byte. -/
theorem kvprintf_returns (h : Renders mem format ws out) (hfmt : CStringAt mem fmt format)
    (hargs : WordsAt mem args ws) (color : BitVec 32) :
    Returns (printing mem color fmt args) (colored color out) := by
  have hend : Returns (printing mem color (fmt + BitVec.ofNat 32 format.length)
      (args + BitVec.ofNat 32 (4 * ws.length))) [] := printing_end hfmt.terminator
  exact (printing_renders h (CStringAt.bytesAt hfmt) hargs _).mpr ⟨[], hend, List.append_nil _⟩

/-! ## A line of the log -/

/-- What the log puts in front of the text of a line that it does not leave out. -/
theorem vlog_eq {level : BitVec 32} (hlevel : logInfo ≤ level) (lclass : BitVec 32) (fuel : Nat) :
    vlog mem true level lclass fmt args fuel = (printing mem white fmt args fuel).map
      fun calls => levelCalls level ++ classCalls lclass ++ calls := by
  rw [vlog, if_neg (by simp), if_neg (BitVec.not_lt.mpr hlevel), printing]

/-- A line shows its level, its class and what the format stands for. -/
theorem vlog_returns {level : BitVec 32} (hlevel : logInfo ≤ level) (lclass : BitVec 32)
    (h : Renders mem format ws out) (hfmt : CStringAt mem fmt format)
    (hargs : WordsAt mem args ws) :
    Returns (vlog mem true level lclass fmt args)
      (levelCalls level ++ classCalls lclass ++ colored white out) := by
  obtain ⟨bound, hbound⟩ := kvprintf_returns h hfmt hargs white
  refine ⟨bound, fun fuel hfuel => ?_⟩
  rw [vlog_eq hlevel, hbound fuel hfuel, Option.map_some]

/-- All levels behind the last one look the same. -/
theorem levelCalls_min (level : BitVec 32) :
    levelCalls level = levelCalls (BitVec.ofNat 32 (min level.toNat 4)) := by
  by_cases h : level.toNat ≤ 4
  · rw [Nat.min_eq_left h, BitVec.ofNat_toNat, BitVec.setWidth_eq]
  · rw [Nat.min_eq_right (by omega), levelCalls]
    split <;> first | omega | rfl

/-- And so do all classes. -/
theorem classCalls_min (lclass : BitVec 32) :
    classCalls lclass = classCalls (BitVec.ofNat 32 (min lclass.toNat 16)) := by
  by_cases h : lclass.toNat ≤ 16
  · rw [Nat.min_eq_left h, BitVec.ofNat_toNat, BitVec.setWidth_eq]
  · rw [Nat.min_eq_right (by omega), classCalls]
    split <;> first | omega | rfl

theorem levelCalls_inj : ∀ i < 5, ∀ j < 5,
    (levelCalls (BitVec.ofNat 32 i)).length = (levelCalls (BitVec.ofNat 32 j)).length ∧
      (levelCalls (BitVec.ofNat 32 i) = levelCalls (BitVec.ofNat 32 j) → i = j) := by
  decide +kernel

/-- No class is the beginning of another one. -/
theorem classCalls_prefixFree : ∀ i < 17, ∀ j < 17,
    classCalls (BitVec.ofNat 32 i) <+: classCalls (BitVec.ofNat 32 j) → i = j := by
  decide +kernel

/-- **Log lines.** A line tells its level, its class and its text, up to the numbers that stand for
    none of the levels or classes. -/
theorem line_parts {level level' lclass lclass' : BitVec 32} {text text' : Calls}
    (h : levelCalls level ++ classCalls lclass ++ text =
      levelCalls level' ++ classCalls lclass' ++ text') :
    min level.toNat 4 = min level'.toNat 4 ∧ min lclass.toNat 16 = min lclass'.toNat 16 ∧
      text = text' := by
  rw [List.append_assoc, List.append_assoc, levelCalls_min level, levelCalls_min level',
    classCalls_min lclass, classCalls_min lclass'] at h
  obtain ⟨hlength, hlevel⟩ := levelCalls_inj (min level.toNat 4) (by omega)
    (min level'.toNat 4) (by omega)
  obtain ⟨hfirst, hrest⟩ := List.append_inj h hlength
  -- one of the two classes is the beginning of the other one
  have hclass : min lclass.toNat 16 = min lclass'.toNat 16 := by
    rcases List.prefix_or_prefix_of_prefix (List.prefix_append _ text)
      (hrest ▸ List.prefix_append _ text') with hpre | hpre
    · exact classCalls_prefixFree _ (by omega) _ (by omega) hpre
    · exact (classCalls_prefixFree _ (by omega) _ (by omega) hpre).symm
  rw [hclass] at hrest
  exact ⟨hlevel hfirst, hclass, List.append_cancel_left hrest⟩

end Muse.Console
