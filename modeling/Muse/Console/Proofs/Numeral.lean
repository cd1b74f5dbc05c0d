import Mathlib.Data.List.GetD
import Mathlib.Data.Nat.Digits.Lemmas
import Mathlib.Tactic.Ring
import Muse.Console.Print

/-!
# Numerals

`kprint_int_fancy` looks at as many digit positions as the base says. From base 10 on they are
enough for every 32-bit number: the characters are the digits of the number without leading zeros,
and they are read back as the number.
-/

namespace Muse.Console

/-- The digits of `x`, the highest one first. -/
def numeral (base x : Nat) : List Nat :=
  if x = 0 then [0] else (Nat.digits base x).reverse

/-- The value of a digit character, `0` to `9` and `A` to `Z`. -/
def digitOf (c : BitVec 8) : Option Nat :=
  if 48#8 ≤ c ∧ c ≤ 57#8 then some (c.toNat - 48)
  else if 65#8 ≤ c ∧ c ≤ 90#8 then some (c.toNat - 65 + 10)
  else none

/-- A row of characters is read as a number, behind the value `acc` of those before it. -/
def readNumeral (base : Nat) : Nat → List (BitVec 8) → Option Nat
  | acc, [] => some acc
  | acc, c :: cs => do
      let d ← digitOf c
      if d < base then readNumeral base (acc * base + d) cs else none

section Digits

variable {x base : Nat}

/-- The digit at position `k`. -/
def digitAt (x base k : Nat) : Nat :=
  x / base ^ k % base

/-- The digits at the positions below `m`, the highest one first. -/
def digitsBelow (x base m : Nat) : List Nat :=
  (List.range m).reverse.map (digitAt x base)

theorem digitsBelow_succ (x base m : Nat) :
    digitsBelow x base (m + 1) = digitAt x base m :: digitsBelow x base m := by
  rw [digitsBelow, List.range_succ, List.reverse_append, List.reverse_singleton,
    List.singleton_append, List.map_cons, digitsBelow]

/-- All digits of the number. -/
theorem digitsBelow_length (hb : 2 ≤ base) :
    digitsBelow x base (Nat.digits base x).length = (Nat.digits base x).reverse := by
  rw [digitsBelow, List.map_reverse]
  congr 1
  apply List.ext_getElem
  · rw [List.length_map, List.length_range]
  · intro i h1 h2
    rw [List.getElem_map, List.getElem_range, digitAt, ← Nat.getD_digits x i hb,
      List.getD_eq_getElem _ _ h2]

/-- With the leading zeros left out, any number of positions that is large enough gives the
    digits. -/
theorem dropWhile_digitsBelow (hb : 2 ≤ base) (hx : x ≠ 0) {m : Nat} (hm : x < base ^ m) :
    (digitsBelow x base m).dropWhile (· = 0) = (Nat.digits base x).reverse := by
  have hlen : (Nat.digits base x).length ≤ m := (Nat.digits_length_le_iff hb x).mpr hm
  obtain ⟨d, rfl⟩ := Nat.exists_eq_add_of_le hlen
  clear hlen hm
  induction d with
  | zero =>
    rw [Nat.add_zero, digitsBelow_length hb]
    have hne : Nat.digits base x ≠ [] := Nat.digits_ne_nil_iff_ne_zero.mpr hx
    rw [← List.dropLast_append_getLast hne, List.reverse_append, List.reverse_singleton,
      List.singleton_append, List.dropWhile_cons_of_neg]
    simpa using Nat.getLast_digit_ne_zero base hx
  | succ d ih =>
    have hzero : digitAt x base ((Nat.digits base x).length + d) = 0 := by
      rw [digitAt, ← Nat.getD_digits x _ hb, List.getD_eq_default]
      exact Nat.le_add_right _ _
    rw [← Nat.add_assoc, digitsBelow_succ, List.dropWhile_cons_of_pos (by simpa using hzero)]
    exact ih

end Digits

section Loop

variable {x base color : BitVec 32}

theorem nthDigitLoop_toNat (x base : BitVec 32) (k : Nat) :
    (nthDigitLoop base k x).toNat = x.toNat / base.toNat ^ k := by
  induction k generalizing x with
  | zero => rw [nthDigitLoop, Nat.pow_zero, Nat.div_one]
  | succ k ih =>
    rw [nthDigitLoop, ih, BitVec.toNat_udiv, Nat.div_div_eq_div_mul, Nat.pow_succ', Nat.mul_comm]

theorem nthDigit_toNat (x digit base : BitVec 32) :
    (nthDigit x digit base).toNat = digitAt x.toNat base.toNat digit.toNat := by
  rw [nthDigit, BitVec.toNat_umod, nthDigitLoop_toNat, digitAt]

/-- The call that prints a digit. -/
def printDigit (color : BitVec 32) (d : Nat) : BitVec 8 × BitVec 32 :=
  (digitChar (BitVec.ofNat 32 d), color)

/-- From round `i` on, the loop prints the digits at the positions that are left; as long as no
    digit was printed, without leading zeros. -/
theorem kprintIntLoop_eq (hbase : base.toNat < 2 ^ 31) {m : Nat} {i : BitVec 32}
    (hi : i.toNat + m = base.toNat) (foundNonzero : Bool) :
    kprintIntLoop x base color m i foundNonzero =
      (if foundNonzero then digitsBelow x.toNat base.toNat m
        else (digitsBelow x.toNat base.toNat m).dropWhile (· = 0)).map (printDigit color) := by
  induction m generalizing i foundNonzero with
  | zero =>
    rw [kprintIntLoop, digitsBelow, List.range_zero]
    cases foundNonzero <;> rfl
  | succ m ih =>
    have hslt : i.slt base = true := by
      rw [BitVec.slt_eq_decide, decide_eq_true_iff,
        BitVec.toInt_eq_toNat_of_lt (by omega), BitVec.toInt_eq_toNat_of_lt (by omega)]
      omega
    have hpos : (base - 1#32 - i).toNat = m := by
      rw [BitVec.toNat_sub, BitVec.toNat_sub, BitVec.toNat_ofNat]
      omega
    have hnext : (i + 1#32).toNat + m = base.toNat := by
      rw [BitVec.toNat_add, BitVec.toNat_ofNat]
      omega
    have hdigit := nthDigit_toNat x (base - 1#32 - i) base
    rw [hpos] at hdigit
    have hprint : (digitChar (nthDigit x (base - 1#32 - i) base), color) =
        printDigit color (digitAt x.toNat base.toNat m) := by
      rw [printDigit, ← hdigit, BitVec.ofNat_toNat, BitVec.setWidth_eq]
    have hiff : nthDigit x (base - 1#32 - i) base = 0#32 ↔
        digitAt x.toNat base.toNat m = 0 := by
      rw [← hdigit]
      exact ⟨fun h => by rw [h]; rfl, fun h => BitVec.eq_of_toNat_eq h⟩
    rw [kprintIntLoop, if_pos hslt, digitsBelow_succ]
    simp only [ih hnext, hprint]
    by_cases hzero : digitAt x.toNat base.toNat m = 0
    · rw [hiff.mpr hzero]
      cases foundNonzero with
      | true => simp
      | false => simp [hzero]
    · have hne : nthDigit x (base - 1#32 - i) base ≠ 0#32 := fun h => hzero (hiff.mp h)
      cases foundNonzero with
      | true => simp
      | false => simp [hne, hzero]

end Loop

/-- The largest base is 36, and ten positions are enough for base 10. -/
theorem lt_base_pow {x base : BitVec 32} (hlo : 10 ≤ base.toNat) :
    x.toNat < base.toNat ^ base.toNat := by
  calc x.toNat < 2 ^ 32 := x.isLt
    _ ≤ 10 ^ 10 := by decide
    _ ≤ base.toNat ^ 10 := Nat.pow_le_pow_left hlo 10
    _ ≤ base.toNat ^ base.toNat := Nat.pow_le_pow_right (by omega) hlo

theorem kprintIntFancy_eq {x base : BitVec 32} (color : BitVec 32) (hlo : 10 ≤ base.toNat)
    (hhi : base.toNat ≤ 36) :
    kprintIntFancy x base color = (numeral base.toNat x.toNat).map (printDigit color) := by
  rw [kprintIntFancy, numeral]
  by_cases hx : x = 0#32
  · subst hx
    rfl
  · have hne : x.toNat ≠ 0 := fun h => hx (BitVec.eq_of_toNat_eq h)
    rw [if_neg hx, if_neg hne, kprintIntLoop_eq (by omega) (Nat.zero_add _),
      if_neg Bool.false_ne_true, dropWhile_digitsBelow (by omega) hne (lt_base_pow hlo)]

section Reading

variable {base : Nat}

theorem digitOf_digitChar {d : Nat} (h : d < 36) :
    digitOf (digitChar (BitVec.ofNat 32 d)) = some d := by
  have hall : ∀ e < 36, digitOf (digitChar (BitVec.ofNat 32 e)) = some e := by decide
  exact hall d h

theorem readNumeral_digits (hbase : base ≤ 36) {ds : List Nat} (h : ∀ d ∈ ds, d < base)
    (acc : Nat) :
    readNumeral base acc (ds.map fun d => digitChar (BitVec.ofNat 32 d)) =
      some (acc * base ^ ds.length + Nat.ofDigits base ds.reverse) := by
  induction ds generalizing acc with
  | nil => rw [List.map_nil, readNumeral, List.length_nil, Nat.pow_zero, Nat.mul_one,
      List.reverse_nil, Nat.ofDigits_nil, Nat.add_zero]
  | cons d ds ih =>
    have hd : d < base := h d List.mem_cons_self
    rw [List.map_cons, readNumeral, digitOf_digitChar (Nat.lt_of_lt_of_le hd hbase)]
    show (if d < base then _ else none) = _
    rw [if_pos hd, ih (fun e he => h e (List.mem_cons_of_mem d he)), List.reverse_cons,
      Nat.ofDigits_append, Nat.ofDigits_singleton, List.length_reverse, List.length_cons,
      Nat.pow_succ]
    congr 1
    ring

theorem numeral_lt (hbase : 2 ≤ base) {x d : Nat} (h : d ∈ numeral base x) : d < base := by
  rw [numeral] at h
  by_cases hx : x = 0
  · rw [if_pos hx, List.mem_singleton] at h
    omega
  · rw [if_neg hx, List.mem_reverse] at h
    exact Nat.digits_lt_base hbase h

theorem ofDigits_numeral (base x : Nat) : Nat.ofDigits base (numeral base x).reverse = x := by
  rw [numeral]
  by_cases hx : x = 0
  · rw [if_pos hx, hx]
    rfl
  · rw [if_neg hx, List.reverse_reverse, Nat.ofDigits_digits]

/-- A numeral begins with zero only if it is the one of zero. -/
theorem numeral_head {x : Nat} (h : (numeral base x).head? = some 0) : x = 0 := by
  by_contra hx
  rw [numeral, if_neg hx, List.head?_reverse] at h
  have hne : Nat.digits base x ≠ [] := Nat.digits_ne_nil_iff_ne_zero.mpr hx
  rw [List.getLast?_eq_some_getLast hne, Option.some.injEq] at h
  exact Nat.getLast_digit_ne_zero base hx h

end Reading

/-- What is printed for the number `x` in the base `base`. -/
structure PrintsNumeral (x base color : BitVec 32) : Prop where
  digits : (kprintIntFancy x base color).map Prod.fst =
    (numeral base.toNat x.toNat).map fun d => digitChar (BitVec.ofNat 32 d)
  sameColor : ∀ call ∈ kprintIntFancy x base color, call.2 = color
  noLeadingZero : (kprintIntFancy x base color).head? = some (48#8, color) →
    kprintIntFancy x base color = [(48#8, color)] ∧ x = 0#32
  readBack : readNumeral base.toNat 0 ((kprintIntFancy x base color).map Prod.fst) = some x.toNat

theorem printDigit_zero {color : BitVec 32} {d : Nat} (hd : d < 36)
    (h : printDigit color d = (48#8, color)) : d = 0 := by
  have hchar : digitChar (BitVec.ofNat 32 d) = 48#8 := congrArg Prod.fst h
  have hdigit := digitOf_digitChar hd
  rw [hchar] at hdigit
  exact (Option.some.inj hdigit).symm

theorem kprintIntFancy_prints (x base color : BitVec 32) (hlo : 10 ≤ base.toInt)
    (hhi : base.toInt ≤ 36) : PrintsNumeral x base color := by
  have hbase : 10 ≤ base.toNat ∧ base.toNat ≤ 36 := by
    have := base.isLt
    rw [BitVec.toInt_eq_toNat_cond] at hlo hhi
    split at hlo <;> split at hhi <;> omega
  have heq := kprintIntFancy_eq (x := x) color hbase.1 hbase.2
  have hlt : ∀ d ∈ numeral base.toNat x.toNat, d < base.toNat := fun d hd =>
    numeral_lt (by omega) hd
  have hdigits : (kprintIntFancy x base color).map Prod.fst =
      (numeral base.toNat x.toNat).map fun d => digitChar (BitVec.ofNat 32 d) := by
    rw [heq, List.map_map]
    rfl
  refine ⟨hdigits, ?_, ?_, ?_⟩
  · intro call hcall
    rw [heq] at hcall
    obtain ⟨d, -, rfl⟩ := List.mem_map.mp hcall
    rfl
  · intro hhead
    rw [heq, List.head?_map, Option.map_eq_some_iff] at hhead
    obtain ⟨d, hd, hchar⟩ := hhead
    have hmem : d ∈ numeral base.toNat x.toNat := List.mem_of_mem_head? hd
    rw [printDigit_zero (Nat.lt_of_lt_of_le (hlt d hmem) hbase.2) hchar] at hd
    have hx : x = 0#32 := BitVec.eq_of_toNat_eq (numeral_head hd)
    refine ⟨?_, hx⟩
    rw [hx, kprintIntFancy, if_pos rfl]
  · rw [hdigits, readNumeral_digits hbase.2 hlt, ofDigits_numeral, Nat.zero_mul, Nat.zero_add]

/-- The number 255 in base 16. -/
theorem kprintIntFancy_prints_hex : PrintsNumeral 255#32 16#32 0xFFFFFF#32 :=
  kprintIntFancy_prints 255#32 16#32 0xFFFFFF#32 (by decide) (by decide)

end Muse.Console
