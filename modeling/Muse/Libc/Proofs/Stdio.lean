import Mathlib.Algebra.Group.Nat.Defs
import Muse.Libc.Stdio
import Muse.Library.Transition

/-!
# Buffered output

A buffered stream denotes the bytes that the kernel accepted, followed by those in the buffer. A
call that stores bytes appends them, as long as every flush inside of it is complete: after a flush
that was accepted in part the whole buffer is kept, and its first bytes are written twice.
-/

namespace Muse.Libc

open Muse.Library

namespace Output

/-- The bytes that were stored in the stream. -/
def bytes (s : Output) : List (BitVec 8) := s.accepted ++ s.file.pending

/-- The stream took `bytes` in, and is otherwise the same. -/
structure Appends (s t : Output) (bytes : List (BitVec 8)) : Prop where
  bytes : t.bytes = s.bytes ++ bytes
  buffered : t.file.buffered = s.file.buffered
  bfrCap : t.file.bfrCap = s.file.bfrCap
  lineBuffered : t.file.lineBuffered = s.file.lineBuffered
  available : t.available = s.available

theorem Appends.refl (s : Output) : s.Appends s [] :=
  ⟨(List.append_nil _).symm, rfl, rfl, rfl, rfl⟩

theorem Appends.trans {s t u : Output} {xs ys : List (BitVec 8)} (h : s.Appends t xs)
    (h' : t.Appends u ys) : s.Appends u (xs ++ ys) where
  bytes := by rw [h'.bytes, h.bytes, List.append_assoc]
  buffered := h'.buffered.trans h.buffered
  bfrCap := h'.bfrCap.trans h.bfrCap
  lineBuffered := h'.lineBuffered.trans h.lineBuffered
  available := h'.available.trans h.available

end Output

/-- A stream and the bytes that the program has written successfully. -/
structure Written where
  out : Output
  written : List (BitVec 8)

namespace Written

inductive Op where
  | fputc (c : BitVec 32)
  | fwrite (ptr : List (BitVec 8)) (size nmemb : BitVec 32)
  | fputs (str : List (BitVec 8))
  | fflush
  deriving DecidableEq

/-- A call. What it has written successfully is what its value says: the character, as many elements
    as `fwrite` returns, or the string, unless the value is `EOF`. -/
def step (answer : Nat → Nat) (s : Written) : Op → Option Written
  | .fputc c => (s.out.fputc answer c).map fun (ret, out) =>
      ⟨out, s.written ++ if ret = eof then [] else [c.setWidth 8]⟩
  | .fwrite ptr size nmemb => (s.out.fwrite answer ptr size nmemb).map fun (ret, out) =>
      ⟨out, s.written ++ ptr.take (ret.toNat * size.toNat)⟩
  | .fputs str => (s.out.fputs answer str).map fun (ret, out) =>
      ⟨out, s.written ++ if ret = eof then [] else str⟩
  | .fflush => some ⟨(s.out.fflush answer).2, s.written⟩

/-- `ptr` has `nmemb` elements, a string has no null character inside, and both fit into the address
    space. -/
def Allowed : Op → Prop
  | .fwrite ptr size nmemb => ptr.length = size.toNat * nmemb.toNat ∧ ptr.length + 2 < 2 ^ 32
  | .fputs str => 0#8 ∉ str ∧ str.length + 2 < 2 ^ 32
  | .fputc _ | .fflush => True

instance : DecidablePred Allowed := fun op =>
  match op with
  | .fwrite _ _ _ | .fputs _ => inferInstanceAs (Decidable (_ ∧ _))
  | .fputc _ | .fflush => inferInstanceAs (Decidable True)

/-- Storing `c` behind `m` pending bytes leads to a flush. -/
def Flushes (f : File) (m : Nat) (c : BitVec 32) : Prop :=
  m + 1 = f.bfrCap ∨ f.lineBuffered ∧ c = newline

instance (f : File) (m : Nat) (c : BitVec 32) : Decidable (Flushes f m c) :=
  inferInstanceAs (Decidable (_ ∨ _))

/-- Storing the bytes from number `i` on, behind `m` pending ones and before call number `k`: every
    flush is complete, or the kernel accepts nothing of it and `stop` allows to end there, as it
    must where a byte looks like `EOF`. -/
def Unbroken (answer : Nat → Nat) (f : File) (stop : Nat → Prop) :
    List (BitVec 8) → Nat → Nat → Nat → Prop
  | [], _, _, _ => True
  | b :: bytes, i, m, k =>
      m < f.bfrCap ∧
      if Flushes f m (b.signExtend 32) then
        (m + 1 ≤ answer k ∧ Unbroken answer f stop bytes (i + 1) 0 (k + 1)) ∨
          (answer k = 0 ∧ stop (i + 1))
      else if b = 0xFF#8 then stop (i + 1)
      else Unbroken answer f stop bytes (i + 1) (m + 1) k

instance decidableUnbroken (answer : Nat → Nat) (f : File) (stop : Nat → Prop)
    [DecidablePred stop] : ∀ bytes i m k, Decidable (Unbroken answer f stop bytes i m k)
  | [], _, _, _ => inferInstanceAs (Decidable True)
  | b :: bytes, i, m, k =>
      have := decidableUnbroken answer f stop bytes (i + 1) 0 (k + 1)
      have := decidableUnbroken answer f stop bytes (i + 1) (m + 1) k
      inferInstanceAs (Decidable (_ ∧ if Flushes f m (b.signExtend 32) then _ ∨ (_ ∧ stop (i + 1))
        else if b = 0xFF#8 then stop (i + 1) else _))

/-- The calls that neither lose nor repeat a byte. A flush inside of `fputc`, `fwrite` or `fputs` is
    complete, one by `fflush` may also be refused as a whole; characters that look like `EOF` are
    not stored, and `fwrite` stops at the end of an element only, `fputs` at the end of the
    string. -/
def Clean (answer : Nat → Nat) (s : Written) (op : Op) : Prop :=
  let m := s.out.file.pending.length
  Allowed op ∧ match op with
    | .fputc c => m < s.out.file.bfrCap ∧
        if Flushes s.out.file m c then m + 1 ≤ answer s.out.calls else c ≠ eof
    | .fwrite ptr size _ =>
        Unbroken answer s.out.file (fun n => size.toNat ∣ n) ptr 0 m s.out.calls
    | .fputs str => Unbroken answer s.out.file (fun n => n = str.length) str 0 m s.out.calls
    | .fflush => m ≤ answer s.out.calls ∨ answer s.out.calls = 0

instance (answer : Nat → Nat) (s : Written) (op : Op) : Decidable (Clean answer s op) :=
  match op with
  | .fputc c => inferInstanceAs (Decidable (_ ∧ _ ∧
      if Flushes s.out.file s.out.file.pending.length c then _ ≤ _ else c ≠ eof))
  | .fwrite _ _ _ | .fputs _ => inferInstanceAs (Decidable (_ ∧ Unbroken _ _ _ _ _ _ _))
  | .fflush => inferInstanceAs (Decidable (_ ∧ (_ ∨ _)))

/-- What the kernel accepted and what is pending is what was written. -/
def Kept (s : Written) : Prop := s.out.accepted ++ s.out.file.pending = s.written

instance (s : Written) : Decidable s.Kept := inferInstanceAs (Decidable (_ = _))

/-- A new buffered stream. -/
def fresh (bfrCap : Nat) (lineBuffered : Bool) (pos : BitVec 32) : Written :=
  ⟨⟨⟨pos, true, [], bfrCap, lineBuffered⟩, bfrCap, [], 0⟩, []⟩

end Written

namespace Output

open Written

variable {answer : Nat → Nat} {s t : Output} {c : BitVec 32}

/-- A flush that the kernel accepts as a whole. -/
theorem fflush_complete (h : s.file.pending.length ≤ answer s.calls) :
    ∃ t, s.fflush answer = (0#32, t) ∧ s.Appends t [] ∧ t.file.pending = [] ∧
      t.calls = s.calls + 1 := by
  have hall : min (answer s.calls) s.file.pending.length = s.file.pending.length :=
    Nat.min_eq_right h
  rw [fflush, write]
  simp only [hall, if_true]
  refine ⟨_, rfl, ⟨?_, rfl, rfl, rfl, rfl⟩, rfl, rfl⟩
  simp [bytes]

/-- A flush of which the kernel accepts nothing. -/
theorem fflush_refused (h : answer s.calls = 0) (hpending : s.file.pending ≠ []) :
    ∃ t, s.fflush answer = (eof, t) ∧ s.Appends t [] := by
  have hlen : ¬ 0 = s.file.pending.length := by
    intro hzero
    exact hpending (List.length_eq_zero_iff.mp hzero.symm)
  rw [fflush, write]
  simp only [h, Nat.zero_min, if_neg hlen]
  refine ⟨_, rfl, ⟨?_, rfl, rfl, rfl, rfl⟩⟩
  simp [bytes]

/-- The stream with a byte more in its buffer. -/
def store (s : Output) (b : BitVec 8) : Output :=
  { s with file := { s.file with pending := s.file.pending ++ [b] } }

theorem store_appends (s : Output) (b : BitVec 8) : s.Appends (s.store b) [b] :=
  ⟨(List.append_assoc _ _ _).symm, rfl, rfl, rfl, rfl⟩

theorem store_length (s : Output) (b : BitVec 8) :
    (s.store b).file.pending.length = s.file.pending.length + 1 := by
  rw [store, List.length_append]
  rfl

/-- `fputc` stores its character and flushes if it has to. -/
theorem fputc_eq (hbuffered : s.file.buffered = true)
    (hroom : s.file.pending.length < s.available) : s.fputc answer c =
      some (if Flushes s.file s.file.pending.length c then (s.store (c.setWidth 8)).fflush answer
        else (c, s.store (c.setWidth 8))) := by
  have hcond : ((s.store (c.setWidth 8)).file.pending.length = s.file.bfrCap ∨
      s.file.lineBuffered ∧ c = newline) ↔ Flushes s.file s.file.pending.length c := by
    rw [store_length, Flushes]
  rw [fputc, if_neg (by simp [hbuffered]), if_neg (by omega)]
  by_cases hflush : Flushes s.file s.file.pending.length c
  · rw [if_pos hflush]
    exact if_pos (hcond.mpr hflush)
  · rw [if_neg hflush]
    exact if_neg (fun h => hflush (hcond.mp h))

/-- Behind a flush that `fputc` has to make and the kernel accepts. -/
theorem fputc_flushed (hbuffered : s.file.buffered = true)
    (hroom : s.file.pending.length < s.available)
    (hflush : Flushes s.file s.file.pending.length c)
    (haccepts : s.file.pending.length + 1 ≤ answer s.calls) :
    ∃ t, s.fputc answer c = some (0#32, t) ∧ s.Appends t [c.setWidth 8] ∧ t.file.pending = [] ∧
      t.calls = s.calls + 1 := by
  rw [← store_length s (c.setWidth 8)] at haccepts
  obtain ⟨t, hret, happends, hpending, hcalls⟩ := fflush_complete haccepts
  refine ⟨t, ?_, (s.store_appends _).trans happends, hpending, hcalls⟩
  rw [fputc_eq hbuffered hroom, if_pos hflush, hret]

/-- Behind a flush that `fputc` has to make and of which the kernel accepts nothing. -/
theorem fputc_refused (hbuffered : s.file.buffered = true)
    (hroom : s.file.pending.length < s.available)
    (hflush : Flushes s.file s.file.pending.length c) (hrefuses : answer s.calls = 0) :
    ∃ t, s.fputc answer c = some (eof, t) ∧ s.Appends t [c.setWidth 8] := by
  have hpending : (s.store (c.setWidth 8)).file.pending ≠ [] := List.append_ne_nil_of_right_ne_nil
    _ (List.cons_ne_nil _ _)
  obtain ⟨t, hret, happends⟩ := fflush_refused (s := s.store (c.setWidth 8)) hrefuses hpending
  refine ⟨t, ?_, (s.store_appends _).trans happends⟩
  rw [fputc_eq hbuffered hroom, if_pos hflush, hret]

/-- Behind a character that `fputc` only stores. -/
theorem fputc_stored (hbuffered : s.file.buffered = true)
    (hroom : s.file.pending.length < s.available)
    (hflush : ¬ Flushes s.file s.file.pending.length c) :
    s.fputc answer c = some (c, s.store (c.setWidth 8)) := by
  rw [fputc_eq hbuffered hroom, if_neg hflush]

theorem setWidth_signExtend (b : BitVec 8) : (b.signExtend 32).setWidth 8 = b := by
  ext i hi
  simp only [BitVec.getElem_setWidth, BitVec.getLsbD_signExtend, if_pos hi,
    BitVec.getLsbD_eq_getElem hi]
  have hwide : i < 32 := by omega
  simp only [hwide, decide_true, Bool.true_and]

/-- A byte that `fputc` returns is `EOF` if all of its bits are set. -/
theorem signExtend_eq_eof (b : BitVec 8) : b.signExtend 32 = eof ↔ b = 0xFF#8 := by
  constructor
  · intro h
    rw [← setWidth_signExtend b, h]
    rfl
  · rintro rfl
    rfl

/-- Only the capacity and the kind of buffering decide on flushes. -/
theorem unbroken_congr {f g : File} {stop : Nat → Prop} (hcap : g.bfrCap = f.bfrCap)
    (hline : g.lineBuffered = f.lineBuffered) (bytes : List (BitVec 8)) (i m k : Nat) :
    Unbroken answer g stop bytes i m k ↔ Unbroken answer f stop bytes i m k := by
  induction bytes generalizing i m k with
  | nil => exact Iff.rfl
  | cons b bytes ih =>
      have hflushes : Flushes g m (b.signExtend 32) ↔ Flushes f m (b.signExtend 32) := by
        rw [Flushes, Flushes, hcap, hline]
      rw [Unbroken, Unbroken, hcap]
      simp only [hflushes, ih]

/-- The value `r` of the loop of `fwrite` that starts at byte `i`: it stored all `bytes`, or those
    up to one where `stop` allows to end. -/
def Stores (stop : Nat → Prop) (s : Output) (bytes : List (BitVec 8)) (i : Nat)
    (r : Option (Nat × Output)) : Prop :=
  ∃ j t, r = some (j, t) ∧
    ((j = i + bytes.length ∧ s.Appends t bytes) ∨
      (i ≤ j ∧ j < i + bytes.length ∧ stop (j + 1) ∧ s.Appends t (bytes.take (j + 1 - i))))

variable {stop : Nat → Prop} {b : BitVec 8} {bytes : List (BitVec 8)} {i : Nat}

/-- The loop goes on behind a byte that was stored. -/
theorem Stores.cons {r : Option (Nat × Output)} (ht : s.Appends t [b])
    (h : Stores stop t bytes (i + 1) r) : Stores stop s (b :: bytes) i r := by
  obtain ⟨j, u, hu, hcase⟩ := h
  refine ⟨j, u, hu, ?_⟩
  rw [List.length_cons]
  rcases hcase with ⟨hj, hall⟩ | ⟨hij, hj, hstop, hsome⟩
  · exact .inl ⟨by omega, ht.trans hall⟩
  · obtain ⟨n, hn⟩ : ∃ n, j + 1 - i = n + 1 := ⟨j - i, by omega⟩
    have hn' : j + 1 - (i + 1) = n := by omega
    rw [hn'] at hsome
    refine .inr ⟨by omega, by omega, hstop, ?_⟩
    rw [hn, List.take_succ_cons]
    exact ht.trans hsome

/-- The loop ends behind a byte that was stored. -/
theorem Stores.stopped (ht : s.Appends t [b]) (hstop : stop (i + 1)) :
    Stores stop s (b :: bytes) i (some (i, t)) := by
  have hone : i + 1 - i = 1 := by omega
  refine ⟨i, t, rfl, .inr ⟨Nat.le_refl i, by rw [List.length_cons]; omega, hstop, ?_⟩⟩
  rw [hone]
  exact ht

/-- The loop of `fwrite` stores a prefix of the bytes, and ends early only where it may. -/
theorem fwriteLoop_spec (bytes : List (BitVec 8)) (i : Nat) (s : Output)
    (hbuffered : s.file.buffered = true) (havailable : s.available = s.file.bfrCap)
    (hclean : Unbroken answer s.file stop bytes i s.file.pending.length s.calls) :
    Stores stop s bytes i (fwriteLoop answer bytes i s) := by
  induction bytes generalizing i s with
  | nil => exact ⟨i, s, rfl, .inl ⟨rfl, .refl s⟩⟩
  | cons b bytes ih =>
      obtain ⟨hroom, hclean⟩ := hclean
      rw [← havailable] at hroom
      have hrest : ∀ t, s.Appends t [b] →
          Unbroken answer s.file stop bytes (i + 1) t.file.pending.length t.calls →
          Stores stop s (b :: bytes) i (fwriteLoop answer bytes (i + 1) t) := by
        intro t ht hclean
        refine .cons ht (ih (i + 1) t (ht.buffered.trans hbuffered) ?_ ?_)
        · rw [ht.available, havailable, ht.bfrCap]
        · exact (unbroken_congr ht.bfrCap ht.lineBuffered _ _ _ _).mpr hclean
      rw [fwriteLoop]
      by_cases hflush : Flushes s.file s.file.pending.length (b.signExtend 32)
      · rw [if_pos hflush] at hclean
        rcases hclean with ⟨haccepts, hclean⟩ | ⟨hrefuses, hstop⟩
        · obtain ⟨t, hret, ht, hpending, hcalls⟩ := fputc_flushed hbuffered hroom hflush haccepts
          rw [setWidth_signExtend] at ht
          simp only [hret, Option.bind_eq_bind, Option.bind_some]
          rw [if_neg (by decide)]
          exact hrest t ht (by rw [hpending, hcalls]; exact hclean)
        · obtain ⟨t, hret, ht⟩ := fputc_refused hbuffered hroom hflush hrefuses
          rw [setWidth_signExtend] at ht
          simp only [hret, Option.bind_eq_bind, Option.bind_some]
          rw [if_pos trivial]
          exact .stopped ht hstop
      · rw [if_neg hflush] at hclean
        have ht := s.store_appends ((b.signExtend 32).setWidth 8)
        have hlength := s.store_length ((b.signExtend 32).setWidth 8)
        simp only [fputc_stored hbuffered hroom hflush, Option.bind_eq_bind, Option.bind_some]
        rw [setWidth_signExtend] at ht hlength ⊢
        by_cases heof : b = 0xFF#8
        · rw [if_pos heof] at hclean
          rw [if_pos ((signExtend_eq_eof b).mpr heof)]
          exact .stopped ht hclean
        · rw [if_neg heof] at hclean
          rw [if_neg (mt (signExtend_eq_eof b).mp heof)]
          exact hrest _ ht (by rw [hlength]; exact hclean)

/-- The elements that `fwrite` says it has written are those that it stored. -/
theorem fwrite_spec {ptr : List (BitVec 8)} {size nmemb ret : BitVec 32}
    (hbuffered : s.file.buffered = true) (havailable : s.available = s.file.bfrCap)
    (hlength : ptr.length = size.toNat * nmemb.toNat) (hfits : ptr.length + 2 < 2 ^ 32)
    (hclean : Unbroken answer s.file (fun n => size.toNat ∣ n) ptr 0 s.file.pending.length s.calls)
    (h : s.fwrite answer ptr size nmemb = some (ret, t)) :
    s.Appends t (ptr.take (ret.toNat * size.toNat)) := by
  have hproduct : (size * nmemb).toNat = ptr.length := by
    rw [BitVec.toNat_mul, ← hlength]
    exact Nat.mod_eq_of_lt (by omega)
  obtain ⟨j, u, hloop, hcase⟩ := fwriteLoop_spec ptr 0 s hbuffered havailable hclean
  rw [fwrite, if_neg (by simp [hbuffered]), hproduct, List.take_length, hloop] at h
  simp only [Option.bind_eq_bind, Option.bind_some] at h
  by_cases hsize : size = 0#32
  · rw [if_pos hsize] at h
    cases h
  rw [if_neg hsize] at h
  cases h
  have hpos : 0 < size.toNat := by
    refine Nat.pos_of_ne_zero fun hzero => hsize (BitVec.eq_of_toNat_eq hzero)
  have hret : j ≤ ptr.length → (BitVec.ofNat 32 (j + 1) / size).toNat = (j + 1) / size.toNat := by
    intro hj
    rw [BitVec.toNat_udiv, BitVec.toNat_ofNat, Nat.mod_eq_of_lt (by omega)]
  rw [Nat.zero_add, Nat.sub_zero] at hcase
  rcases hcase with ⟨rfl, hall⟩ | ⟨-, hj, hstop, hsome⟩
  · -- one byte more than there are does not change the number of whole elements, or leaves one over
    have hcount : nmemb.toNat ≤ (ptr.length + 1) / size.toNat := by
      rw [Nat.le_div_iff_mul_le hpos, Nat.mul_comm, ← hlength]
      exact Nat.le_succ _
    have hmul : ptr.length ≤ (ptr.length + 1) / size.toNat * size.toNat := by
      calc ptr.length = nmemb.toNat * size.toNat := by rw [hlength, Nat.mul_comm]
        _ ≤ _ := Nat.mul_le_mul_right size.toNat hcount
    rw [hret (Nat.le_refl _), List.take_of_length_le hmul]
    exact hall
  · rw [hret (Nat.le_of_lt hj), Nat.div_mul_cancel hstop]
    exact hsome

/-- A string that `fputs` says it has written was stored. -/
theorem fputs_spec {str : List (BitVec 8)} {ret : BitVec 32} (hbuffered : s.file.buffered = true)
    (havailable : s.available = s.file.bfrCap) (hfits : str.length + 2 < 2 ^ 32)
    (hclean : Unbroken answer s.file (fun n => n = str.length) str 0 s.file.pending.length s.calls)
    (h : s.fputs answer str = some (ret, t)) :
    s.Appends t (if ret = eof then [] else str) := by
  have hlength : (1#32 * BitVec.ofNat 32 str.length).toNat = str.length := by
    rw [BitVec.one_mul, BitVec.toNat_ofNat]
    exact Nat.mod_eq_of_lt (by omega)
  obtain ⟨j, u, hloop, hcase⟩ := fwriteLoop_spec str 0 s hbuffered havailable hclean
  rw [fputs, fwrite, if_neg (by simp [hbuffered]), hlength, List.take_length, hloop] at h
  simp only [Option.bind_eq_bind, Option.bind_some] at h
  rw [if_neg (by decide), BitVec.udiv_one] at h
  cases h
  have hret : j ≤ str.length → ¬ BitVec.ofNat 32 (j + 1) = eof := by
    intro hj heof
    have htoNat := congrArg BitVec.toNat heof
    rw [BitVec.toNat_ofNat, Nat.mod_eq_of_lt (by omega)] at htoNat
    have hvalue : eof.toNat = 2 ^ 32 - 1 := rfl
    omega
  rw [Nat.zero_add, Nat.sub_zero] at hcase
  rcases hcase with ⟨rfl, hall⟩ | ⟨-, hj, hstop, hsome⟩
  · rw [if_neg (hret (Nat.le_refl _))]
    exact hall
  · rw [if_neg (hret (Nat.le_of_lt hj))]
    rw [hstop, List.take_length] at hsome
    exact hsome

/-- A character that `fputc` says it has written was stored. -/
theorem fputc_spec {ret : BitVec 32} (hbuffered : s.file.buffered = true)
    (havailable : s.available = s.file.bfrCap)
    (hroom : s.file.pending.length < s.file.bfrCap)
    (hclean : if Flushes s.file s.file.pending.length c then
      s.file.pending.length + 1 ≤ answer s.calls else c ≠ eof)
    (h : s.fputc answer c = some (ret, t)) :
    s.Appends t (if ret = eof then [] else [c.setWidth 8]) := by
  rw [← havailable] at hroom
  by_cases hflush : Flushes s.file s.file.pending.length c
  · rw [if_pos hflush] at hclean
    obtain ⟨u, hret, hu, -, -⟩ := fputc_flushed hbuffered hroom hflush hclean
    rw [hret] at h
    cases h
    exact hu
  · rw [if_neg hflush] at hclean
    rw [fputc_stored hbuffered hroom hflush] at h
    cases h
    rw [if_neg hclean]
    exact s.store_appends _

/-- A flush that the kernel accepts or refuses as a whole. -/
theorem fflush_spec (h : s.file.pending.length ≤ answer s.calls ∨ answer s.calls = 0) :
    s.Appends (s.fflush answer).2 [] := by
  by_cases hall : s.file.pending.length ≤ answer s.calls
  · obtain ⟨t, hret, ht, -, -⟩ := fflush_complete hall
    rw [hret]
    exact ht
  · have hpending : s.file.pending ≠ [] := by
      intro hnil
      rw [hnil] at hall
      exact hall (Nat.zero_le _)
    obtain ⟨t, hret, ht⟩ := fflush_refused (h.resolve_left hall) hpending
    rw [hret]
    exact ht

end Output

namespace Written

open Output

/-- A buffered stream with `bfrCap` bytes at `bfr`, of which nothing was lost or repeated. -/
structure Holds (s : Written) : Prop where
  buffered : s.out.file.buffered = true
  available : s.out.available = s.out.file.bfrCap
  kept : s.Kept

theorem Holds.fresh (bfrCap : Nat) (lineBuffered : Bool) (pos : BitVec 32) :
    (fresh bfrCap lineBuffered pos).Holds :=
  ⟨rfl, rfl, rfl⟩

theorem Holds.of_appends {s t : Written} {bytes : List (BitVec 8)} (h : s.Holds)
    (happends : s.out.Appends t.out bytes) (hwritten : t.written = s.written ++ bytes) :
    t.Holds where
  buffered := happends.buffered.trans h.buffered
  available := by rw [happends.available, h.available, happends.bfrCap]
  kept := by
    have hkept : s.out.bytes = s.written := h.kept
    rw [Kept, hwritten, ← hkept]
    exact happends.bytes

theorem Holds.step {answer : Nat → Nat} {s t : Written} {op : Op} (h : s.Holds)
    (hclean : Clean answer s op) (ht : step answer s op = some t) : t.Holds := by
  obtain ⟨hallowed, hclean⟩ := hclean
  cases op with
  | fputc c =>
      obtain ⟨⟨ret, out⟩, hret, rfl⟩ := Option.map_eq_some_iff.mp ht
      exact h.of_appends (fputc_spec h.buffered h.available hclean.1 hclean.2 hret) rfl
  | fwrite ptr size nmemb =>
      obtain ⟨⟨ret, out⟩, hret, rfl⟩ := Option.map_eq_some_iff.mp ht
      exact h.of_appends
        (fwrite_spec h.buffered h.available hallowed.1 hallowed.2 hclean hret) rfl
  | fputs str =>
      obtain ⟨⟨ret, out⟩, hret, rfl⟩ := Option.map_eq_some_iff.mp ht
      exact h.of_appends (fputs_spec h.buffered h.available hallowed.2 hclean hret) rfl
  | fflush =>
      cases ht
      exact h.of_appends (fflush_spec hclean) (List.append_nil _).symm

/-- In every run of clean calls from a new buffered stream, what the kernel accepted and what is
    pending is what the program has written successfully. -/
theorem output_kept (answer : Nat → Nat) (bfrCap : Nat) (lineBuffered : Bool) (pos : BitVec 32)
    (s : Written) (h : Reaches (step answer) (Clean answer) (fresh bfrCap lineBuffered pos) s) :
    s.Kept := by
  have hholds : s.Holds :=
    h.invariant (Holds.fresh bfrCap lineBuffered pos) fun _ _ _ hs hclean hstep =>
      hs.step hclean hstep
  exact hholds.kept

/-- A string that does not fit into the buffer is flushed when the buffer is full. -/
theorem output_kept_full :
    ∃ s : Written, s.out.accepted = [97#8, 98#8, 99#8, 100#8] ∧
      s.out.file.pending = [101#8, 102#8, 103#8] ∧ s.Kept := by
  have hrun : (runChecked (step fun _ => 4) (Clean fun _ => 4) (fresh 4 false 0#32)
      [.fputs [97#8, 98#8], .fputs [99#8, 100#8, 101#8, 102#8], .fputc 103#32]).any
        (fun s => decide (s.out.accepted = [97#8, 98#8, 99#8, 100#8] ∧
          s.out.file.pending = [101#8, 102#8, 103#8])) = true := by decide
  obtain ⟨s, hr, hobs⟩ := exists_reaches_of_any hrun
  obtain ⟨haccepted, hpending⟩ := of_decide_eq_true hobs
  exact ⟨s, haccepted, hpending, output_kept (fun _ => 4) 4 false 0#32 s hr⟩

/-- The kernel accepts the first of two pending characters, and both stay in the buffer. -/
theorem flush_repeated : ∃ s : Written,
    Reaches (step fun _ => 1) (fun _ op => Allowed op) (fresh 4 false 0#32) s ∧
      s.written = [97#8, 98#8] ∧ s.out.accepted = [97#8] ∧ s.out.file.pending = [97#8, 98#8] ∧
      ¬ s.Kept := by
  refine ⟨⟨⟨⟨1#32, true, [97#8, 98#8], 4, false⟩, 4, [97#8], 1⟩, [97#8, 98#8]⟩, ?_, rfl, rfl, rfl,
    by decide⟩
  have hfirst : Reaches (step fun _ => 1) (fun _ op => Allowed op) (fresh 4 false 0#32)
      ⟨⟨⟨0#32, true, [97#8], 4, false⟩, 4, [], 0⟩, [97#8]⟩ :=
    .tail (a := .fputc 97#32) .refl trivial rfl
  have hsecond : Reaches (step fun _ => 1) (fun _ op => Allowed op) (fresh 4 false 0#32)
      ⟨⟨⟨0#32, true, [97#8, 98#8], 4, false⟩, 4, [], 0⟩, [97#8, 98#8]⟩ :=
    .tail (a := .fputc 98#32) hfirst trivial rfl
  exact .tail (a := .fflush) hsecond trivial rfl

end Written

end Muse.Libc
