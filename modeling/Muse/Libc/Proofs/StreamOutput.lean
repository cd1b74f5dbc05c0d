import Muse.Libc.Proofs.StreamBounds

/-!
# Streams and the bytes that the kernel accepts

If a kernel answers every write with a number of bytes that it accepts, then a stream is known by
what an `Output` records: a call on the output that returns, so does not store behind the buffer, is
the same call on the stream.
-/

namespace Muse.Libc.Stream

open Library Written

/-- The kernel that accepts the first `answer k` bytes in its call number `k`. -/
def answering (answer : Nat → Nat) : Kernel where
  returns k size := BitVec.ofNat 32 (min (answer k) size.toNat)
  data _ _ := 0#8

/-- The output that the stream is. -/
def output (s : Stream) : Output :=
  ⟨s.file, s.requested, (s.transfers.map Transfer.taken).flatten, s.transfers.length⟩

variable {answer : Nat → Nat} {s : Stream} {c r : BitVec 32} {u : Output}

/-- What was pending is in the buffer, and all sizes fit into the address space. -/
structure Held (s : Stream) : Prop where
  fill : s.file.pending.length ≤ s.requested
  fits : s.requested < 2 ^ 32

theorem Held.lt (h : s.Held) : s.file.pending.length < 2 ^ 32 := Nat.lt_of_le_of_lt h.fill h.fits

theorem Held.rests {t : Stream} (h : s.Held) (hrests : s.Rests t) : t.Held where
  fill := by
    rw [hrests.follows.requested]
    exact Nat.le_trans hrests.fill h.fill
  fits := by
    rw [hrests.follows.requested]
    exact h.fits

theorem syscallWrite_output (answer : Nat → Nat) (s : Stream) {bytes : List (BitVec 8)}
    (h : bytes.length < 2 ^ 32) :
    (s.syscallWrite (answering answer) bytes).1.toNat = (s.output.write answer bytes).1 ∧
      (s.syscallWrite (answering answer) bytes).2.output = (s.output.write answer bytes).2 := by
  have hreturns : (answering answer).returns s.transfers.length (BitVec.ofNat 32 bytes.length) =
      BitVec.ofNat 32 (min (answer s.transfers.length) bytes.length) := by
    show BitVec.ofNat 32 (min _ (BitVec.ofNat 32 bytes.length).toNat) = _
    rw [BitVec.toNat_ofNat, Nat.mod_eq_of_lt h]
  have hlt : min (answer s.transfers.length) bytes.length < 2 ^ 32 :=
    Nat.lt_of_le_of_lt (Nat.min_le_right _ _) h
  have htoNat : (BitVec.ofNat 32 (min (answer s.transfers.length) bytes.length)).toNat =
      min (answer s.transfers.length) bytes.length := by
    rw [BitVec.toNat_ofNat, Nat.mod_eq_of_lt hlt]
  refine ⟨(congrArg BitVec.toNat hreturns).trans htoNat, ?_⟩
  simp only [syscallWrite, hreturns, output, Output.write, List.map_append, List.map_singleton,
    List.flatten_append, List.flatten_singleton, Transfer.taken, htoNat, List.length_append,
    List.length_singleton]

theorem fflush_output (answer : Nat → Nat) (h : s.file.pending.length < 2 ^ 32) :
    (s.fflush (answering answer)).1 = (s.output.fflush answer).1 ∧
      (s.fflush (answering answer)).2.output = (s.output.fflush answer).2 := by
  obtain ⟨htoNat, houtput⟩ := syscallWrite_output answer s h
  by_cases hall : (s.output.write answer s.file.pending).1 = s.file.pending.length
  · have hflush : s.output.fflush answer = (0#32,
        { (s.output.write answer s.file.pending).2 with
          file := { (s.output.write answer s.file.pending).2.file with pending := [] } }) :=
      if_pos hall
    rw [fflush_complete (htoNat.trans hall), hflush, ← houtput]
    exact ⟨rfl, rfl⟩
  · have hflush : s.output.fflush answer = (eof, (s.output.write answer s.file.pending).2) :=
      if_neg hall
    rw [fflush_failed (fun h' => hall (htoNat.symm.trans h')), hflush, ← houtput]
    exact ⟨rfl, rfl⟩

/-- A character that the output takes goes into the buffer of the stream, or to the kernel. -/
theorem fputc_output (hs : s.Held) (h : s.output.fputc answer c = some (r, u)) :
    (s.fputc (answering answer) c).1 = r ∧ (s.fputc (answering answer) c).2.output = u ∧
      (s.fputc (answering answer) c).2.Held := by
  cases hbuffered : s.file.buffered with
  | false =>
      have hone : ∀ w : BitVec 32, w = 1#32 ↔ w.toNat = 1 := fun w => BitVec.toNat_inj.symm
      have hlength : 1 < 2 ^ 32 := by decide
      obtain ⟨htoNat, houtput⟩ := syscallWrite_output answer s
        (show [c.setWidth 8].length < 2 ^ 32 from hlength)
      rw [Output.fputc, if_pos (by simp [output, hbuffered])] at h
      cases h
      rw [fputc, if_pos (by simp [hbuffered])]
      refine ⟨?_, houtput, hs.rests (syscallWrite_rests _ s _)⟩
      simp only [hone, htoNat]
      rfl
  | true =>
      by_cases hfull : s.output.available ≤ s.output.file.pending.length
      · rw [Output.fputc, if_neg (by simp [output, hbuffered]), if_pos hfull] at h
        cases h
      · have hroom : s.file.pending.length < s.requested := Nat.lt_of_not_le hfull
        have hstored : (s.storeChar c).Held := by
          refine ⟨?_, hs.fits⟩
          rw [storeChar_length]
          exact hroom
        have hput : s.output.fputc answer c =
            some (if Flushes s.file s.file.pending.length c then
              (s.storeChar c).output.fflush answer
              else (c, (s.storeChar c).output)) :=
          Output.fputc_eq hbuffered hroom
        rw [hput] at h
        rw [fputc_eq hbuffered]
        by_cases hflush : Flushes s.file s.file.pending.length c
        · obtain ⟨hret, houtput⟩ := fflush_output answer hstored.lt
          rw [if_pos hflush] at h ⊢
          have hcall := Option.some.inj h
          exact ⟨hret.trans (congrArg Prod.fst hcall), houtput.trans (congrArg Prod.snd hcall),
            hstored.rests (fflush_rests _ _)⟩
        · rw [if_neg hflush] at h ⊢
          cases h
          exact ⟨rfl, rfl, hstored⟩

theorem fwriteLoop_output {bytes : List (BitVec 8)} {i j : Nat} (hs : s.Held)
    (h : s.output.fwriteLoop answer bytes i = some (j, u)) :
    (fwriteLoop (answering answer) bytes i s).1 = j ∧
      (fwriteLoop (answering answer) bytes i s).2.output = u ∧
      (fwriteLoop (answering answer) bytes i s).2.Held := by
  induction bytes generalizing i s with
  | nil =>
      cases h
      exact ⟨rfl, rfl, hs⟩
  | cons b bytes ih =>
      rw [Output.fwriteLoop, Option.bind_eq_bind, Option.bind_eq_some_iff] at h
      obtain ⟨⟨ret, t⟩, hput, hrest⟩ := h
      obtain ⟨hret, houtput, hheld⟩ := fputc_output hs hput
      dsimp only at hrest
      rw [fwriteLoop]
      dsimp only
      rw [hret]
      split at hrest
      · next heof =>
          rw [if_pos heof]
          cases hrest
          exact ⟨rfl, houtput, hheld⟩
      · next heof =>
          rw [if_neg heof]
          exact ih hheld (by rwa [houtput])

theorem firstBytes_getD (l : List (BitVec 8)) :
    firstBytes (fun i => l.getD i 0#8) l.length = l := by
  apply List.ext_getElem
  · exact firstBytes_length _ _
  · intro i hi hi'
    simp [firstBytes, hi']

theorem fwrite_output {ptr : List (BitVec 8)} {size nmemb : BitVec 32} (hs : s.Held)
    (hlength : ptr.length = (size * nmemb).toNat)
    (h : s.output.fwrite answer ptr size nmemb = some (r, u)) :
    ∃ t, s.fwrite (answering answer) (fun i => ptr.getD i 0#8) size nmemb = some (r, t) ∧
      t.output = u ∧ t.Held := by
  have hfits : ptr.length < 2 ^ 32 := hlength ▸ (size * nmemb).isLt
  rw [Output.fwrite, ← hlength, List.take_length] at h
  cases hbuffered : s.file.buffered with
  | false =>
      rw [if_pos (by simp [output, hbuffered])] at h
      rw [fwrite_unbuffered _ size nmemb hbuffered, ← hlength, firstBytes_getD]
      obtain ⟨htoNat, houtput⟩ := syscallWrite_output answer s hfits
      dsimp only at h
      split at h
      · cases h
      · next hsize =>
          cases h
          rw [if_neg hsize, ← htoNat, BitVec.ofNat_toNat, BitVec.setWidth_eq]
          exact ⟨_, rfl, houtput, hs.rests (syscallWrite_rests _ s _)⟩
  | true =>
      rw [if_neg (by simp [output, hbuffered]), Option.bind_eq_bind, Option.bind_eq_some_iff] at h
      obtain ⟨⟨i, t⟩, hloop, hvalue⟩ := h
      obtain ⟨hi, houtput, hheld⟩ := fwriteLoop_output hs hloop
      rw [fwrite_buffered _ size nmemb hbuffered, ← hlength, firstBytes_getD, hi]
      dsimp only at hvalue
      split at hvalue
      · cases hvalue
      · next hsize =>
          cases hvalue
          rw [if_neg hsize]
          exact ⟨_, rfl, houtput, hheld⟩

/-- The same call on a stream. -/
def ofWritten : Written.Op → Op
  | .fputc c => .fputc c
  | .fwrite ptr size nmemb => .fwrite (fun i => ptr.getD i 0#8) size nmemb
  | .fputs str => .fputs str
  | .fflush => .fflush

theorem step_output {w w' : Written} {op : Written.Op} (hs : s.Held) (hw : s.output = w.out)
    (hallowed : Allowed op) (h : Written.step answer w op = some w') :
    ∃ t, s.step (answering answer) (ofWritten op) = some t ∧ t.output = w'.out ∧ t.Held := by
  cases op with
  | fputc c =>
      obtain ⟨⟨r, u⟩, hcall, rfl⟩ := Option.map_eq_some_iff.mp h
      rw [← hw] at hcall
      obtain ⟨-, houtput, hheld⟩ := fputc_output hs hcall
      exact ⟨_, rfl, houtput, hheld⟩
  | fwrite ptr size nmemb =>
      obtain ⟨⟨r, u⟩, hcall, rfl⟩ := Option.map_eq_some_iff.mp h
      rw [← hw] at hcall
      have hlength : ptr.length = (size * nmemb).toNat := by
        rw [BitVec.toNat_mul, ← hallowed.1, Nat.mod_eq_of_lt (Nat.lt_of_add_right_lt hallowed.2)]
      obtain ⟨t, hret, houtput, hheld⟩ := fwrite_output hs hlength hcall
      exact ⟨t, congrArg (Option.map Prod.snd) hret, houtput, hheld⟩
  | fputs str =>
      obtain ⟨⟨r, u⟩, hcall, rfl⟩ := Option.map_eq_some_iff.mp h
      rw [← hw] at hcall
      have hlength : str.length = (1#32 * BitVec.ofNat 32 str.length).toNat := by
        rw [BitVec.one_mul, BitVec.toNat_ofNat,
          Nat.mod_eq_of_lt (Nat.lt_of_add_right_lt hallowed.2)]
      obtain ⟨t, hret, houtput, hheld⟩ := fwrite_output hs hlength hcall
      exact ⟨t, congrArg (Option.map Prod.snd) hret, houtput, hheld⟩
  | fflush =>
      cases h
      obtain ⟨-, houtput⟩ := fflush_output answer hs.lt
      rw [hw] at houtput
      exact ⟨_, rfl, houtput, hs.rests (fflush_rests _ s)⟩

/-- A run on an output from the new `stdout` is one of the stream. -/
theorem run_output {w : Written} {pos : BitVec 32} (h : Reaches (Written.step answer)
      (fun _ op => Allowed op) (fresh bufsiz true pos) w) :
    ∃ ops t, Trace (step (answering answer)) (fun _ _ => True) (stdout pos) ops t ∧
      t.output = w.out := by
  have hruns : ∃ ops t, Trace (step (answering answer)) (fun _ _ => True) (stdout pos) ops t ∧
      t.output = w.out ∧ t.Held := by
    induction h with
    | refl => exact ⟨[], stdout pos, .nil, rfl, Nat.zero_le _, show bufsiz < 2 ^ 32 by decide⟩
    | tail _ hallowed hstep ih =>
        obtain ⟨ops, s, hrun, houtput, hheld⟩ := ih
        obtain ⟨t, ht, houtput, hheld⟩ := step_output hheld houtput hallowed hstep
        exact ⟨_, t, .snoc hrun trivial ht, houtput, hheld⟩
  obtain ⟨ops, t, hrun, houtput, -⟩ := hruns
  exact ⟨ops, t, hrun, houtput⟩

end Muse.Libc.Stream
