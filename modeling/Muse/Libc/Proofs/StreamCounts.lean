import Muse.Libc.Proofs.StreamBounds

/-!
# What `fwrite` counts

Each `fputc` of the loop of `fwrite` has its byte accepted, also where a flush fails, as the buffer
is then kept. The value adds 1 to the number of calls that did not fail: that is the failing call,
if there is one, and a byte too many if there is none.
-/

namespace Muse.Libc.Stream

open Written

variable {kernel : Kernel} {s t : Stream} {c : BitVec 32}

theorem accepted_of_buffered (h : s.file.buffered = true) :
    s.accepted = (s.transfers.map Transfer.flushed).flatten ++ s.file.pending :=
  if_pos h

/-- What a write adds to the bytes that are read off the transfers. -/
theorem syscallWrite_transfers (kernel : Kernel) (s : Stream) (bytes : List (BitVec 8))
    (f : Transfer → List (BitVec 8)) :
    ((s.syscallWrite kernel bytes).2.transfers.map f).flatten =
      (s.transfers.map f).flatten ++ f (.write bytes (s.syscallWrite kernel bytes).1) := by
  rw [syscallWrite, List.map_append, List.flatten_append, List.map_singleton,
    List.flatten_singleton]

/-- A flush does not lose a byte: if the kernel took a part only, the buffer is kept. -/
theorem fflush_accepted (h : s.file.buffered = true) :
    (s.fflush kernel).2.accepted = s.accepted := by
  have htransfers := syscallWrite_transfers kernel s s.file.pending Transfer.flushed
  rw [Transfer.flushed] at htransfers
  obtain ⟨hfollows, -⟩ := fflush_spec kernel s
  rw [accepted_of_buffered h, accepted_of_buffered (hfollows.buffered.trans h)]
  by_cases hret : (s.syscallWrite kernel s.file.pending).1.toNat = s.file.pending.length
  · rw [if_pos hret] at htransfers
    rw [fflush_complete hret, ← htransfers]
    exact List.append_nil _
  · rw [if_neg hret, List.append_nil] at htransfers
    rw [fflush_failed hret, ← htransfers]
    rfl

theorem storeChar_accepted (h : s.file.buffered = true) (c : BitVec 32) :
    (s.storeChar c).accepted = s.accepted ++ [c.setWidth 8] := by
  rw [accepted_of_buffered h, accepted_of_buffered ((s.storeChar_follows c).buffered.trans h),
    List.append_assoc]
  rfl

/-- The byte of an `fputc` is accepted, also where its flush fails. -/
theorem fputc_accepted (kernel : Kernel) (h : s.file.buffered = true) (c : BitVec 32) :
    (s.fputc kernel c).2.accepted = s.accepted ++ [c.setWidth 8] := by
  rw [fputc_eq h, ← storeChar_accepted h]
  split
  · exact fflush_accepted ((s.storeChar_follows c).buffered.trans h)
  · rfl

/-- The kernel accepts the flush of a buffer of `m` bytes in its call number `k`. -/
def FlushTaken (kernel : Kernel) (m k : Nat) : Prop :=
  (kernel.returns k (BitVec.ofNat 32 m)).toNat = m

instance (kernel : Kernel) (m k : Nat) : Decidable (FlushTaken kernel m k) :=
  inferInstanceAs (Decidable (_ = _))

/-- An `fputc` that flushes. -/
theorem fputc_flushed (h : s.file.buffered = true)
    (hflush : Flushes s.file s.file.pending.length c)
    (htaken : FlushTaken kernel (s.file.pending.length + 1) s.transfers.length) :
    (s.fputc kernel c).1 ≠ eof ∧ (s.fputc kernel c).2.file.pending = [] ∧
      (s.fputc kernel c).2.transfers.length = s.transfers.length + 1 := by
  rw [FlushTaken, ← storeChar_length s c] at htaken
  have hzero : (0#32 : BitVec 32) ≠ eof := by decide
  rw [fputc_eq h, if_pos hflush, fflush_complete (s := s.storeChar c) htaken]
  exact ⟨hzero, rfl, List.length_append⟩

/-- An `fputc` whose flush fails. -/
theorem fputc_refused (h : s.file.buffered = true)
    (hflush : Flushes s.file s.file.pending.length c)
    (htaken : ¬ FlushTaken kernel (s.file.pending.length + 1) s.transfers.length) :
    (s.fputc kernel c).1 = eof := by
  rw [FlushTaken, ← storeChar_length s c] at htaken
  rw [fputc_eq h, if_pos hflush, fflush_failed (s := s.storeChar c) htaken]

/-- Storing the bytes behind `m` pending ones, before call number `k`, meets a flush that the kernel
    does not accept as a whole, or a byte that looks like `EOF`. -/
def Stops (kernel : Kernel) (f : File) : List (BitVec 8) → Nat → Nat → Prop
  | [], _, _ => False
  | b :: bytes, m, k =>
      if Flushes f m (b.signExtend 32) then
        FlushTaken kernel (m + 1) k → Stops kernel f bytes 0 (k + 1)
      else b = 0xFF#8 ∨ Stops kernel f bytes (m + 1) k

/-- Only the capacity and the kind of buffering matter to it. -/
theorem stops_congr {f g : File} (hcap : g.bfrCap = f.bfrCap)
    (hline : g.lineBuffered = f.lineBuffered) (bytes : List (BitVec 8)) (m k : Nat) :
    Stops kernel g bytes m k ↔ Stops kernel f bytes m k := by
  induction bytes generalizing m k with
  | nil => exact Iff.rfl
  | cons b bytes ih =>
      have hflushes : Flushes g m (b.signExtend 32) ↔ Flushes f m (b.signExtend 32) := by
        rw [Flushes, Flushes, hcap, hline]
      rw [Stops, Stops]
      simp only [hflushes, ih]

/-- The value of the loop of `fwrite` that starts at byte `i`, and the stream behind it: the first
    `n` bytes were accepted. If the loop stopped, its value does not count the last of them. -/
structure Loop (kernel : Kernel) (s : Stream) (bytes : List (BitVec 8)) (i n : Nat)
    (r : Nat × Stream) : Prop where
  le : n ≤ bytes.length
  accepted : r.2.accepted = s.accepted ++ bytes.take n
  stopped : Stops kernel s.file bytes s.file.pending.length s.transfers.length → r.1 + 1 = i + n
  done : ¬ Stops kernel s.file bytes s.file.pending.length s.transfers.length →
    r.1 = i + n ∧ n = bytes.length

/-- The loop goes on behind a byte. -/
theorem Loop.cons {b : BitVec 8} {bytes : List (BitVec 8)} {i n : Nat} {r : Nat × Stream}
    (haccepted : t.accepted = s.accepted ++ [b])
    (hstops : Stops kernel s.file (b :: bytes) s.file.pending.length s.transfers.length ↔
      Stops kernel t.file bytes t.file.pending.length t.transfers.length)
    (h : Loop kernel t bytes (i + 1) n r) : Loop kernel s (b :: bytes) i (n + 1) r where
  le := Nat.succ_le_succ h.le
  accepted := by
    rw [h.accepted, haccepted, List.take_succ_cons, List.append_assoc]
    rfl
  stopped := by
    intro hstop
    have hvalue := h.stopped (hstops.mp hstop)
    omega
  done := by
    intro hstop
    obtain ⟨hvalue, hlength⟩ := h.done (fun h' => hstop (hstops.mpr h'))
    rw [List.length_cons]
    omega

/-- The loop ends at a byte. -/
theorem Loop.ends {b : BitVec 8} {bytes : List (BitVec 8)} {i : Nat}
    (haccepted : t.accepted = s.accepted ++ [b])
    (hstops : Stops kernel s.file (b :: bytes) s.file.pending.length s.transfers.length) :
    Loop kernel s (b :: bytes) i 1 (i, t) where
  le := Nat.succ_le_succ (Nat.zero_le _)
  accepted := haccepted
  stopped := fun _ => rfl
  done := fun h => absurd hstops h

theorem fwriteLoop_spec (kernel : Kernel) (bytes : List (BitVec 8)) (i : Nat) (s : Stream)
    (hbuffered : s.file.buffered = true) :
    ∃ n, Loop kernel s bytes i n (fwriteLoop kernel bytes i s) := by
  induction bytes generalizing i s with
  | nil => exact ⟨0, Nat.le_refl 0, (List.append_nil _).symm, False.elim, fun _ => ⟨rfl, rfl⟩⟩
  | cons b bytes ih =>
      obtain ⟨hfollows, -⟩ := fputc_spec kernel (b.signExtend 32) hbuffered
      have haccepted := fputc_accepted kernel hbuffered (b.signExtend 32)
      rw [Output.setWidth_signExtend] at haccepted
      -- the loop goes on behind a byte whose call does not fail
      have hgoes : (s.fputc kernel (b.signExtend 32)).1 ≠ eof →
          (Stops kernel s.file (b :: bytes) s.file.pending.length s.transfers.length ↔
            Stops kernel s.file bytes (s.fputc kernel (b.signExtend 32)).2.file.pending.length
              (s.fputc kernel (b.signExtend 32)).2.transfers.length) →
          ∃ n, Loop kernel s (b :: bytes) i n (fwriteLoop kernel (b :: bytes) i s) := by
        intro hret hstops
        obtain ⟨n, hloop⟩ := ih (i + 1) _ (hfollows.buffered.trans hbuffered)
        refine ⟨n + 1, ?_⟩
        rw [fwriteLoop]
        dsimp only
        rw [if_neg hret]
        exact .cons haccepted
          (hstops.trans (stops_congr hfollows.bfrCap hfollows.lineBuffered _ _ _).symm) hloop
      have hends : (s.fputc kernel (b.signExtend 32)).1 = eof →
          Stops kernel s.file (b :: bytes) s.file.pending.length s.transfers.length →
          ∃ n, Loop kernel s (b :: bytes) i n (fwriteLoop kernel (b :: bytes) i s) := by
        intro hret hstops
        refine ⟨1, ?_⟩
        rw [fwriteLoop]
        dsimp only
        rw [if_pos hret]
        exact .ends haccepted hstops
      by_cases hflush : Flushes s.file s.file.pending.length (b.signExtend 32)
      · by_cases htaken : FlushTaken kernel (s.file.pending.length + 1) s.transfers.length
        · obtain ⟨hret, hpending, htransfers⟩ := fputc_flushed hbuffered hflush htaken
          apply hgoes hret
          rw [hpending, htransfers, Stops, if_pos hflush]
          exact forall_prop_of_true htaken
        · apply hends (fputc_refused hbuffered hflush htaken)
          rw [Stops, if_pos hflush]
          exact fun h => absurd h htaken
      · have hstored : s.fputc kernel (b.signExtend 32) =
            (b.signExtend 32, s.storeChar (b.signExtend 32)) := by
          rw [fputc_eq hbuffered, if_neg hflush]
        by_cases heof : b = 0xFF#8
        · apply hends
          · rw [hstored]
            exact (Output.signExtend_eq_eof b).mpr heof
          · rw [Stops, if_neg hflush]
            exact .inl heof
        · apply hgoes
          · rw [hstored]
            exact fun h => heof ((Output.signExtend_eq_eof b).mp h)
          · rw [hstored, storeChar_length, Stops, if_neg hflush]
            exact or_iff_right heof

/-- The value `ret` of `fwrite` counts the elements of the `n` bytes that were accepted. -/
def Counts (ret size nmemb : BitVec 32) (n : Nat) : Prop :=
  ret.toNat = n / size.toNat ∧ (ret = nmemb ↔ n = size.toNat * nmemb.toNat)

/-- The second part follows, as no more bytes are accepted than there are. -/
theorem counts_iff {ret size nmemb : BitVec 32} {n : Nat} (hsize : 1 ≤ size.toNat)
    (hn : n ≤ size.toNat * nmemb.toNat) : Counts ret size nmemb n ↔ ret.toNat = n / size.toNat := by
  refine ⟨And.left, fun hret => ⟨hret, ?_⟩⟩
  rw [← BitVec.toNat_inj, hret]
  constructor
  · intro hall
    have hle : size.toNat * (n / size.toNat) ≤ n := Nat.mul_div_le n _
    rw [hall] at hle
    exact Nat.le_antisymm hn hle
  · rintro rfl
    exact Nat.mul_div_cancel_left _ hsize

end Muse.Libc.Stream
