import Mathlib.Data.List.GetD
import Mathlib.Data.Nat.Notation
import Mathlib.Logic.Function.Basic
import Muse.Library.ByteMemory

/-!
# Strings in byte memory

A string is a row of bytes other than zero with a zero behind it. A program that works on strings
has the memory as its state, together with the addresses that it has read; `put` replaces a row of
bytes.
-/

namespace Muse.Library

/-- A memory, and the addresses that were read, in order. -/
structure Access where
  mem : ByteMem
  reads : List (BitVec 32)

namespace Access

def read (a : Access) (p : BitVec 32) : Access :=
  { a with reads := a.reads ++ [p] }

def write (a : Access) (p : BitVec 32) (b : BitVec 8) : Access :=
  { a with mem := Function.update a.mem p b }

/-- The byte at `src` is read and stored at `dst`. -/
def copy (a : Access) (dst src : BitVec 32) : Access :=
  (a.read src).write dst (a.mem src)

variable (a : Access) (p q : BitVec 32) (b : BitVec 8)

@[simp] theorem read_mem : (a.read p).mem = a.mem := rfl

@[simp] theorem read_reads : (a.read p).reads = a.reads ++ [p] := rfl

@[simp] theorem write_mem : (a.write p b).mem = Function.update a.mem p b := rfl

@[simp] theorem copy_mem : (a.copy p q).mem = Function.update a.mem p (a.mem q) := rfl

/-- The addresses read from now on are all in `S`. -/
def ReadsIn (S : BitVec 32 → Prop) : Prop :=
  ∀ q ∈ a.reads, S q

variable {a p} {S : BitVec 32 → Prop}

theorem ReadsIn.read (h : a.ReadsIn S) (hp : S p) : (a.read p).ReadsIn S := by
  intro q hq
  rcases List.mem_append.mp hq with hq | hq
  · exact h q hq
  · rw [List.mem_singleton.mp hq]
    exact hp

end Access

section Addresses

variable {s t : BitVec 32} {i j : Nat}

theorem toNat_add_ofNat (h : s.toNat + i < 2 ^ 32) :
    (s + BitVec.ofNat 32 i).toNat = s.toNat + i := by
  rw [BitVec.toNat_add, BitVec.toNat_ofNat, Nat.add_mod_mod, Nat.mod_eq_of_lt h]

theorem add_ofNat_succ (s : BitVec 32) (i : Nat) :
    s + BitVec.ofNat 32 (i + 1) = s + BitVec.ofNat 32 i + 1#32 := by
  rw [BitVec.ofNat_add, BitVec.add_assoc]

theorem ofNat_inj (hi : i < 2 ^ 32) (hj : j < 2 ^ 32) (h : BitVec.ofNat 32 i = BitVec.ofNat 32 j) :
    i = j := by
  have heq := congrArg BitVec.toNat h
  rwa [BitVec.toNat_ofNat, BitVec.toNat_ofNat, Nat.mod_eq_of_lt hi, Nat.mod_eq_of_lt hj] at heq

theorem add_ofNat_inj (hi : i < 2 ^ 32) (hj : j < 2 ^ 32)
    (h : s + BitVec.ofNat 32 i = s + BitVec.ofNat 32 j) : i = j :=
  ofNat_inj hi hj (BitVec.add_right_inj s |>.mp h)

theorem add_ofNat_ne (hi : s.toNat + i < 2 ^ 32) (hj : t.toNat + j < 2 ^ 32)
    (h : s.toNat + i ≠ t.toNat + j) : s + BitVec.ofNat 32 i ≠ t + BitVec.ofNat 32 j := by
  intro heq
  apply h
  rw [← toNat_add_ofNat hi, heq, toNat_add_ofNat hj]

theorem ofNat_lt_iff {n : BitVec 32} (hi : i < 2 ^ 32) : BitVec.ofNat 32 i < n ↔ i < n.toNat := by
  rw [BitVec.lt_def, BitVec.toNat_ofNat, Nat.mod_eq_of_lt hi]

end Addresses

/-- The string `chars` is at `s`. -/
structure CStringAt (mem : ByteMem) (s : BitVec 32) (chars : List (BitVec 8)) : Prop where
  fits : s.toNat + chars.length < 2 ^ 32
  nonzero : ∀ b ∈ chars, b ≠ 0#8
  bytes : ∀ i ≤ chars.length, mem (s + BitVec.ofNat 32 i) = chars.getD i 0#8

namespace CStringAt

variable {mem : ByteMem} {s : BitVec 32} {chars : List (BitVec 8)} (h : CStringAt mem s chars)

include h

theorem length_lt : chars.length < 2 ^ 32 := by
  have := h.fits
  omega

theorem byte_eq {i : Nat} (hi : i < chars.length) : mem (s + BitVec.ofNat 32 i) = chars[i] := by
  rw [h.bytes i (Nat.le_of_lt hi), List.getD_eq_getElem _ _ hi]

theorem byte_ne {i : Nat} (hi : i < chars.length) : mem (s + BitVec.ofNat 32 i) ≠ 0#8 := by
  rw [h.byte_eq hi]
  exact h.nonzero _ (List.getElem_mem hi)

theorem terminator : mem (s + BitVec.ofNat 32 chars.length) = 0#8 := by
  rw [h.bytes _ (Nat.le_refl _), List.getD_eq_default _ _ (Nat.le_refl _)]

end CStringAt

namespace CStringAt

variable {mem : ByteMem} {s : BitVec 32} {c : BitVec 8} {chars : List (BitVec 8)}

theorem nil_byte (h : CStringAt mem s []) : mem s = 0#8 := by
  have := h.terminator
  rwa [List.length_nil, BitVec.add_zero] at this

theorem cons_byte (h : CStringAt mem s (c :: chars)) : mem s = c := by
  have := h.byte_eq (i := 0) (Nat.succ_pos _)
  rwa [BitVec.add_zero] at this

theorem cons_ne (h : CStringAt mem s (c :: chars)) : c ≠ 0#8 :=
  h.nonzero c List.mem_cons_self

/-- The empty string is the one that begins with its terminator. -/
theorem eq_nil_iff (h : CStringAt mem s chars) : chars = [] ↔ mem s = 0#8 := by
  cases chars with
  | nil => simp [h.nil_byte]
  | cons c chars => simp [h.cons_byte, h.cons_ne]

theorem tail (h : CStringAt mem s (c :: chars)) : CStringAt mem (s + 1#32) chars where
  fits := by
    have hfits : s.toNat + (chars.length + 1) < 2 ^ 32 := h.fits
    rw [BitVec.toNat_add, BitVec.toNat_ofNat]
    omega
  nonzero := fun b hb => h.nonzero b (List.mem_cons_of_mem c hb)
  bytes := by
    intro i hi
    have hbyte := h.bytes (i + 1) (Nat.succ_le_succ hi)
    rwa [List.getD_cons_succ, add_ofNat_succ, BitVec.add_assoc, BitVec.add_comm _ 1#32,
      ← BitVec.add_assoc] at hbyte

end CStringAt

/-- The `n` bytes from `s` on. -/
def bytesAt (mem : ByteMem) (s : BitVec 32) : Nat → List (BitVec 8)
  | 0 => []
  | n + 1 => mem s :: bytesAt mem (s + 1#32) n

theorem mem_bytesAt {mem : ByteMem} {s z : BitVec 32} {n : Nat} (hsz : s.toNat ≤ z.toNat)
    (hn : z.toNat < s.toNat + n) : mem z ∈ bytesAt mem s n := by
  induction n generalizing s with
  | zero => omega
  | succ n ih =>
    rw [bytesAt]
    by_cases heq : s = z
    · subst heq
      exact List.mem_cons_self
    · have hne := BitVec.toNat_ne_iff_ne.mpr heq
      have hz := z.isLt
      have hnext : (s + 1#32).toNat = s.toNat + 1 := by
        rw [BitVec.toNat_add, BitVec.toNat_ofNat]
        omega
      exact List.mem_cons_of_mem _ (ih (by omega) (by omega))

/-- The memory with `bytes` from `p` on. -/
def put (m : ByteMem) (p : BitVec 32) (bytes : List (BitVec 8)) : ByteMem := fun a =>
  bytes.getD (a - p).toNat (m a)

section Put

variable {m : ByteMem} {p a : BitVec 32} {bytes : List (BitVec 8)}

@[simp] theorem put_nil : put m p [] = m := rfl

theorem put_at {i : Nat} (hi : i < bytes.length) (hlt : i < 2 ^ 32) :
    put m p bytes (p + BitVec.ofNat 32 i) = bytes[i] := by
  rw [put, BitVec.add_comm, BitVec.add_sub_cancel, BitVec.toNat_ofNat, Nat.mod_eq_of_lt hlt,
    List.getD_eq_getElem _ _ hi]

theorem put_other (h : ∀ i < bytes.length, a ≠ p + BitVec.ofNat 32 i) : put m p bytes a = m a := by
  rw [put, List.getD_eq_default]
  by_contra hlt
  apply h (a - p).toNat (Nat.lt_of_not_le hlt)
  rw [BitVec.ofNat_toNat, BitVec.setWidth_eq, BitVec.add_comm, BitVec.sub_add_cancel]

/-- One more byte. -/
theorem put_concat {b : BitVec 8} (h : bytes.length < 2 ^ 32) :
    put m p (bytes ++ [b]) =
      Function.update (put m p bytes) (p + BitVec.ofNat 32 bytes.length) b := by
  funext a
  by_cases ha : a = p + BitVec.ofNat 32 bytes.length
  · subst ha
    rw [Function.update_self, put_at (by simp) h]
    simp
  · rw [Function.update_of_ne ha]
    unfold put
    rcases Nat.lt_trichotomy (a - p).toNat bytes.length with hlt | heq | hgt
    · rw [List.getD_append _ _ _ _ hlt]
    · exfalso
      apply ha
      rw [← heq, BitVec.ofNat_toNat, BitVec.setWidth_eq, BitVec.add_comm, BitVec.sub_add_cancel]
    · have hlen : (bytes ++ [b]).length ≤ (a - p).toNat := by
        rw [List.length_append]
        exact hgt
      rw [List.getD_eq_default _ _ hlen, List.getD_eq_default _ _ (Nat.le_of_lt hgt)]

/-- The first bytes are already there. -/
theorem put_append_of_bytes {xs ys : List (BitVec 8)}
    (h : ∀ i, ∀ hi : i < xs.length, m (p + BitVec.ofNat 32 i) = xs[i])
    (hlen : xs.length + ys.length ≤ 2 ^ 32) :
    put m p (xs ++ ys) = put m (p + BitVec.ofNat 32 xs.length) ys := by
  funext a
  have ha : a = p + BitVec.ofNat 32 (a - p).toNat := by
    rw [BitVec.ofNat_toNat, BitVec.setWidth_eq, BitVec.add_comm, BitVec.sub_add_cancel]
  have hk : (a - p).toNat < 2 ^ 32 := BitVec.isLt _
  have hsub : (a - (p + BitVec.ofNat 32 xs.length)).toNat =
      (2 ^ 32 - xs.length + (a - p).toNat) % 2 ^ 32 := by
    rw [← BitVec.sub_sub, BitVec.toNat_sub, BitVec.toNat_ofNat]
    omega
  by_cases hlt : (a - p).toNat < xs.length
  · rw [put, List.getD_append _ _ _ _ hlt, List.getD_eq_getElem _ _ hlt, ← h _ hlt, ← ha, put,
      List.getD_eq_default _ _ (by rw [hsub]; omega)]
  · rw [put, put, List.getD_append_right _ _ _ _ (Nat.le_of_not_lt hlt), hsub]
    congr 1
    omega

/-- One more byte of a row that is put. -/
theorem put_take_succ {i : Nat} (hi : i < bytes.length) (hlt : i < 2 ^ 32) :
    Function.update (put m p (bytes.take i)) (p + BitVec.ofNat 32 i) bytes[i] =
      put m p (bytes.take (i + 1)) := by
  have hlen : (bytes.take i).length = i := List.length_take_of_le (Nat.le_of_lt hi)
  rw [List.take_succ_eq_append_getElem hi, put_concat (by rw [hlen]; exact hlt), hlen]

end Put

end Muse.Library
