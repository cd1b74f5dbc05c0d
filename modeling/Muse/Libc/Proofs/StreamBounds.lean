import Muse.Libc.Proofs.Stdio
import Muse.Libc.Stream
import Muse.Library.Transition

/-!
# Stores into the buffers of streams

A call stores at the fill level of the buffer, which a flush that the kernel does not accept leaves
as it is. As `fputc` flushes a buffer that it has filled, and `fwrite` ends where `fputc` fails, a
call that starts with room in the buffer stays inside of it. A buffer of `fopen` has no room, as
none was requested, and a full buffer that was not flushed has none either.
-/

namespace Muse.Libc.Stream

open Library Written

variable {kernel : Kernel} {s t u : Stream} {c : BitVec 32} {op : Op}

/-! ## What stays the same -/

/-- Only the fill level, the position and what is recorded change. -/
structure Follows (s t : Stream) : Prop where
  buffered : t.file.buffered = s.file.buffered
  bfrCap : t.file.bfrCap = s.file.bfrCap
  lineBuffered : t.file.lineBuffered = s.file.lineBuffered
  requested : t.requested = s.requested
  stores : s.stores <+: t.stores

theorem Follows.refl (s : Stream) : s.Follows s := ⟨rfl, rfl, rfl, rfl, List.prefix_refl _⟩

theorem Follows.trans (h : s.Follows t) (h' : t.Follows u) : s.Follows u where
  buffered := h'.buffered.trans h.buffered
  bfrCap := h'.bfrCap.trans h.bfrCap
  lineBuffered := h'.lineBuffered.trans h.lineBuffered
  requested := h'.requested.trans h.requested
  stores := h.stores.trans h'.stores

/-- A store that was outside stays recorded. -/
theorem Follows.inside (h : s.Follows t) (ht : t.Inside) : s.Inside := by
  intro i hi
  have hlt := ht i (h.stores.subset hi)
  rwa [h.requested] at hlt

theorem syscallWrite_follows (kernel : Kernel) (s : Stream) (bytes : List (BitVec 8)) :
    s.Follows (s.syscallWrite kernel bytes).2 :=
  ⟨rfl, rfl, rfl, rfl, List.prefix_refl _⟩

theorem syscallRead_follows (kernel : Kernel) (s : Stream) (size : BitVec 32) :
    s.Follows (s.syscallRead kernel size).2 :=
  ⟨rfl, rfl, rfl, rfl, List.prefix_refl _⟩

/-- The stream with an empty buffer. -/
def emptied (s : Stream) : Stream :=
  { s with file := { s.file with pending := [] } }

/-- A flush that the kernel accepts as a whole. -/
theorem fflush_complete
    (h : (s.syscallWrite kernel s.file.pending).1.toNat = s.file.pending.length) :
    s.fflush kernel = (0#32, (s.syscallWrite kernel s.file.pending).2.emptied) :=
  if_pos h

theorem fflush_failed
    (h : (s.syscallWrite kernel s.file.pending).1.toNat ≠ s.file.pending.length) :
    s.fflush kernel = (eof, (s.syscallWrite kernel s.file.pending).2) :=
  if_neg h

/-- A flush stores nothing, and empties the buffer or fails. -/
theorem fflush_spec (kernel : Kernel) (s : Stream) :
    s.Follows (s.fflush kernel).2 ∧ (s.fflush kernel).2.stores = s.stores ∧
      ((s.fflush kernel).2.file.pending = [] ∨
        ((s.fflush kernel).1 = eof ∧ (s.fflush kernel).2.file.pending = s.file.pending)) := by
  by_cases h : (s.syscallWrite kernel s.file.pending).1.toNat = s.file.pending.length
  · rw [fflush_complete h]
    exact ⟨⟨rfl, rfl, rfl, rfl, List.prefix_refl _⟩, rfl, .inl rfl⟩
  · rw [fflush_failed h]
    exact ⟨⟨rfl, rfl, rfl, rfl, List.prefix_refl _⟩, rfl, .inr ⟨rfl, rfl⟩⟩

theorem storeChar_follows (s : Stream) (c : BitVec 32) : s.Follows (s.storeChar c) :=
  ⟨rfl, rfl, rfl, rfl, List.prefix_append _ _⟩

theorem storeChar_length (s : Stream) (c : BitVec 32) :
    (s.storeChar c).file.pending.length = s.file.pending.length + 1 :=
  List.length_append

/-- `fputc` on a buffered stream. -/
theorem fputc_eq (h : s.file.buffered = true) (c : BitVec 32) : s.fputc kernel c =
    if Flushes s.file s.file.pending.length c then (s.storeChar c).fflush kernel
    else (c, s.storeChar c) := by
  have hcond : ((s.storeChar c).file.pending.length = (s.storeChar c).file.bfrCap ∨
      (s.storeChar c).file.lineBuffered ∧ c = newline) ↔
          Flushes s.file s.file.pending.length c := by
    rw [Flushes, ← List.length_singleton (a := c.setWidth 8), ← List.length_append]
    rfl
  rw [fputc, if_neg (by simp [h])]
  by_cases hflush : Flushes s.file s.file.pending.length c
  · rw [if_pos hflush]
    exact if_pos (hcond.mpr hflush)
  · rw [if_neg hflush]
    exact if_neg (fun h' => hflush (hcond.mp h'))

/-- `fputc` on a buffered stream stores at the fill level. If there was room and the call does not
    fail, then there is room again. -/
theorem fputc_spec (kernel : Kernel) (c : BitVec 32) (hbuffered : s.file.buffered = true) :
    s.Follows (s.fputc kernel c).2 ∧
      (s.fputc kernel c).2.stores = s.stores ++ [s.file.pending.length] ∧
      (s.file.pending.length < s.file.bfrCap →
        (s.fputc kernel c).2.file.pending.length ≤ s.file.bfrCap ∧
        ((s.fputc kernel c).1 ≠ eof →
          (s.fputc kernel c).2.file.pending.length < s.file.bfrCap)) := by
  rw [fputc_eq hbuffered]
  split
  · obtain ⟨hfollows, hstores, hpending⟩ := fflush_spec kernel (s.storeChar c)
    refine ⟨(s.storeChar_follows c).trans hfollows, hstores, fun hroom => ?_⟩
    rcases hpending with hempty | ⟨heof, hkept⟩
    · rw [hempty]
      exact ⟨Nat.zero_le _, fun _ => Nat.zero_lt_of_lt hroom⟩
    · rw [hkept, storeChar_length]
      exact ⟨hroom, fun hne => absurd heof hne⟩
  · next hflush =>
      refine ⟨s.storeChar_follows c, rfl, fun hroom => ?_⟩
      rw [storeChar_length]
      exact ⟨hroom, fun _ => Nat.lt_of_le_of_ne hroom fun hfull => hflush (.inl hfull)⟩

theorem fwriteLoop_follows (kernel : Kernel) (bytes : List (BitVec 8)) (i : Nat) (s : Stream)
    (hbuffered : s.file.buffered = true) : s.Follows (fwriteLoop kernel bytes i s).2 := by
  induction bytes generalizing i s with
  | nil => exact Follows.refl s
  | cons b bytes ih =>
      obtain ⟨hfollows, -⟩ := fputc_spec kernel (b.signExtend 32) hbuffered
      rw [fwriteLoop]
      dsimp only
      split
      · exact hfollows
      · exact hfollows.trans (ih (i + 1) _ (hfollows.buffered.trans hbuffered))

/-! ## Where the stores are -/

/-- The fill level is at most the capacity, for which as many bytes were requested, and all stores
    were inside. -/
structure Roomy (s : Stream) : Prop where
  inside : s.Inside
  requested : s.requested = s.file.bfrCap
  fill : s.file.pending.length ≤ s.file.bfrCap

theorem Roomy.fflush (h : s.Roomy) : (s.fflush kernel).2.Roomy := by
  obtain ⟨hfollows, hstores, hpending⟩ := fflush_spec kernel s
  refine ⟨?_, ?_, ?_⟩
  · rw [Inside, hstores, hfollows.requested]
    exact h.inside
  · rw [hfollows.requested, hfollows.bfrCap, h.requested]
  · rw [hfollows.bfrCap]
    rcases hpending with hempty | ⟨-, hkept⟩
    · rw [hempty]
      exact Nat.zero_le _
    · rw [hkept]
      exact h.fill

theorem Roomy.fputc (kernel : Kernel) (c : BitVec 32) (h : s.Roomy)
    (hbuffered : s.file.buffered = true)
    (hroom : s.file.pending.length < s.file.bfrCap) :
    (s.fputc kernel c).2.Roomy ∧ ((s.fputc kernel c).1 ≠ eof →
      (s.fputc kernel c).2.file.pending.length < (s.fputc kernel c).2.file.bfrCap) := by
  obtain ⟨hfollows, hstores, hfill⟩ := fputc_spec kernel c hbuffered
  obtain ⟨hle, hlt⟩ := hfill hroom
  rw [hfollows.bfrCap]
  refine ⟨⟨fun i hi => ?_, ?_, ?_⟩, hlt⟩
  · rw [hfollows.requested]
    rw [hstores] at hi
    rcases List.mem_append.mp hi with hi | hi
    · exact h.inside i hi
    · rw [List.mem_singleton.mp hi, h.requested]
      exact hroom
  · rw [hfollows.requested, hfollows.bfrCap, h.requested]
  · rw [hfollows.bfrCap]
    exact hle

/-- The loop of `fwrite` ends where `fputc` fails, so it never meets a full buffer. -/
theorem Roomy.fwriteLoop (bytes : List (BitVec 8)) (i : Nat) (h : s.Roomy)
    (hbuffered : s.file.buffered = true)
    (hroom : bytes ≠ [] → s.file.pending.length < s.file.bfrCap) :
    (fwriteLoop kernel bytes i s).2.Roomy := by
  induction bytes generalizing i s with
  | nil => exact h
  | cons b bytes ih =>
      obtain ⟨hroomy, hagain⟩ := h.fputc kernel (b.signExtend 32) hbuffered
        (hroom (List.cons_ne_nil b bytes))
      obtain ⟨hfollows, -⟩ := fputc_spec kernel (b.signExtend 32) hbuffered
      rw [Stream.fwriteLoop]
      dsimp only
      split
      · exact hroomy
      · next hne => exact ih (i + 1) hroomy (hfollows.buffered.trans hbuffered) fun _ => hagain hne

/-! ## Calls -/

/-- Nothing is stored. -/
structure Rests (s t : Stream) : Prop where
  follows : s.Follows t
  stores : t.stores = s.stores
  fill : t.file.pending.length ≤ s.file.pending.length

theorem Rests.trans (h : s.Rests t) (h' : t.Rests u) : s.Rests u where
  follows := h.follows.trans h'.follows
  stores := h'.stores.trans h.stores
  fill := Nat.le_trans h'.fill h.fill

theorem syscallWrite_rests (kernel : Kernel) (s : Stream) (bytes : List (BitVec 8)) :
    s.Rests (s.syscallWrite kernel bytes).2 :=
  ⟨syscallWrite_follows kernel s bytes, rfl, Nat.le_refl _⟩

theorem syscallRead_rests (kernel : Kernel) (s : Stream) (size : BitVec 32) :
    s.Rests (s.syscallRead kernel size).2 :=
  ⟨syscallRead_follows kernel s size, rfl, Nat.le_refl _⟩

theorem fflush_rests (kernel : Kernel) (s : Stream) : s.Rests (s.fflush kernel).2 := by
  obtain ⟨hfollows, hstores, hpending⟩ := fflush_spec kernel s
  refine ⟨hfollows, hstores, ?_⟩
  rcases hpending with hempty | ⟨-, hkept⟩
  · rw [hempty]
    exact Nat.zero_le _
  · exact Nat.le_of_eq (congrArg List.length hkept)

theorem firstBytes_length (ptr : Nat → BitVec 8) (n : Nat) : (firstBytes ptr n).length = n := by
  rw [firstBytes, List.length_map, List.length_range]

theorem firstBytes_ne_nil (ptr : Nat → BitVec 8) (n : BitVec 32) :
    firstBytes ptr n.toNat ≠ [] ↔ n ≠ 0#32 := by
  rw [← List.length_pos_iff, firstBytes_length, ← BitVec.toNat_inj.ne]
  exact Nat.pos_iff_ne_zero

theorem fwrite_unbuffered (ptr : Nat → BitVec 8) (size nmemb : BitVec 32)
    (h : s.file.buffered = false) : s.fwrite kernel ptr size nmemb =
      if size = 0#32 then none
      else some ((s.syscallWrite kernel (firstBytes ptr (size * nmemb).toNat)).1 / size,
        (s.syscallWrite kernel (firstBytes ptr (size * nmemb).toNat)).2) := by
  rw [fwrite, if_pos (by simp [h])]

theorem fwrite_buffered (ptr : Nat → BitVec 8) (size nmemb : BitVec 32)
    (h : s.file.buffered = true) : s.fwrite kernel ptr size nmemb =
      if size = 0#32 then none
      else some (BitVec.ofNat 32
          ((fwriteLoop kernel (firstBytes ptr (size * nmemb).toNat) 0 s).1 + 1) /
        size, (fwriteLoop kernel (firstBytes ptr (size * nmemb).toNat) 0 s).2) := by
  rw [fwrite, if_neg (by simp [h])]

/-- A call of `fwrite` that does not fault goes through its loop, or makes one transfer. -/
theorem fwrite_cases {ptr : Nat → BitVec 8} {size nmemb : BitVec 32}
    (h : (s.fwrite kernel ptr size nmemb).map Prod.snd = some t) :
    (s.file.buffered = true ∧
      t = (fwriteLoop kernel (firstBytes ptr (size * nmemb).toNat) 0 s).2) ∨
    (s.file.buffered = false ∧ s.Rests t) := by
  cases hbuffered : s.file.buffered with
  | false =>
      rw [fwrite_unbuffered ptr size nmemb hbuffered] at h
      split at h
      · cases h
      · cases h
        exact .inr ⟨rfl, syscallWrite_rests kernel s _⟩
  | true =>
      rw [fwrite_buffered ptr size nmemb hbuffered] at h
      split at h
      · cases h
      · cases h
        exact .inl ⟨rfl, rfl⟩

/-- What a call does to the stream: it puts one character or a row of bytes into the buffer, or
    stores nothing. -/
theorem step_cases (h : s.step kernel op = some t) :
    (s.file.buffered = true ∧ ∃ c, op = .fputc c ∧ t = (s.fputc kernel c).2) ∨
    (s.file.buffered = true ∧ ∃ bytes, (bytes ≠ [] ↔ op.Puts) ∧
      t = (fwriteLoop kernel bytes 0 s).2) ∨
    (s.Rests t ∧ (s.file.buffered = true → ¬ op.Puts)) := by
  cases op with
  | fputc c =>
      cases h
      cases hbuffered : s.file.buffered with
      | true => exact .inl ⟨rfl, c, rfl, rfl⟩
      | false =>
          refine .inr (.inr ⟨?_, fun h => absurd h Bool.false_ne_true⟩)
          rw [fputc, if_pos (by simp [hbuffered])]
          exact syscallWrite_rests kernel s _
  | fwrite ptr size nmemb =>
      rcases fwrite_cases h with ⟨hbuffered, ht⟩ | ⟨hbuffered, hrests⟩
      · exact .inr (.inl ⟨hbuffered, _, firstBytes_ne_nil ptr _, ht⟩)
      · exact .inr (.inr ⟨hrests, fun h => absurd (hbuffered.symm.trans h) Bool.false_ne_true⟩)
  | fputs str =>
      rcases fwrite_cases h with ⟨hbuffered, ht⟩ | ⟨hbuffered, hrests⟩
      · rw [BitVec.one_mul] at ht
        exact .inr (.inl ⟨hbuffered, _, firstBytes_ne_nil _ _, ht⟩)
      · exact .inr (.inr ⟨hrests, fun h => absurd (hbuffered.symm.trans h) Bool.false_ne_true⟩)
  | fflush =>
      cases h
      exact .inr (.inr ⟨fflush_rests kernel s, fun _ h => h⟩)
  | fgetc =>
      cases h
      exact .inr (.inr ⟨(fflush_rests kernel s).trans (syscallRead_rests kernel _ _), fun _ h => h⟩)
  | fread size nmemb =>
      rw [step, fread, Option.map_eq_some_iff] at h
      obtain ⟨r, hr, rfl⟩ := h
      dsimp only at hr
      split at hr
      · cases hr
      · cases hr
        exact .inr (.inr
          ⟨(fflush_rests kernel s).trans (syscallRead_rests kernel _ _), fun _ h => h⟩)

theorem step_follows (h : s.step kernel op = some t) : s.Follows t := by
  rcases step_cases h with ⟨hbuffered, c, -, rfl⟩ | ⟨hbuffered, bytes, -, rfl⟩ | ⟨hrests, -⟩
  · exact (fputc_spec kernel c hbuffered).1
  · exact fwriteLoop_follows kernel bytes 0 s hbuffered
  · exact hrests.follows

/-! ## Runs -/

/-- The calls that keep inside the buffer. Into a buffer for which no bytes were requested, which is
    one of `fopen`, nothing is put, and nothing is put behind a full buffer, which is one that a
    flush has left. -/
def Clean (s : Stream) (op : Op) : Prop :=
  s.file.buffered = true → op.Puts →
    s.requested ≠ 0 ∧ s.file.pending.length ≠ s.file.bfrCap

/-- The invariant of the runs: no bytes were requested for the buffer, or as many as it can take. -/
structure Sound (s : Stream) : Prop where
  inside : s.Inside
  room : s.file.buffered = true →
    s.requested = 0 ∨ (s.requested = s.file.bfrCap ∧ s.file.pending.length ≤ s.file.bfrCap)

theorem Created.sound (h : Created s) : s.Sound := by
  have hnone : ∀ i ∈ ([] : List Nat), i < s.requested := fun i hi => absurd hi List.not_mem_nil
  cases h with
  | fopen h =>
      rw [Stream.fopen] at h
      dsimp only at h
      split at h
      · cases h
      · cases h
        exact ⟨hnone, fun _ => .inl rfl⟩
  | stdin pos => exact ⟨hnone, fun h => absurd h Bool.false_ne_true⟩
  | stdout pos => exact ⟨hnone, fun _ => .inr ⟨rfl, Nat.zero_le _⟩⟩
  | stderr pos => exact ⟨hnone, fun h => absurd h Bool.false_ne_true⟩

theorem Sound.rests (h : s.Sound) (hrests : s.Rests t) : t.Sound where
  inside := by
    rw [Inside, hrests.stores, hrests.follows.requested]
    exact h.inside
  room := by
    rw [hrests.follows.buffered, hrests.follows.requested, hrests.follows.bfrCap]
    intro hbuffered
    exact (h.room hbuffered).imp_right fun ⟨hrequested, hfill⟩ =>
      ⟨hrequested, Nat.le_trans hrests.fill hfill⟩

theorem Roomy.sound (h : s.Roomy) : s.Sound :=
  ⟨h.inside, fun _ => .inr ⟨h.requested, h.fill⟩⟩

/-- A clean call that puts something finds room. -/
theorem Sound.roomy (h : s.Sound) (hclean : s.Clean op) (hbuffered : s.file.buffered = true)
    (hputs : op.Puts) : s.Roomy ∧ s.file.pending.length < s.file.bfrCap := by
  obtain ⟨hrequested, hfull⟩ := hclean hbuffered hputs
  obtain ⟨hcap, hfill⟩ := (h.room hbuffered).resolve_left hrequested
  exact ⟨⟨h.inside, hcap, hfill⟩, Nat.lt_of_le_of_ne hfill hfull⟩

theorem Sound.step (h : s.Sound) (hclean : s.Clean op) (ht : s.step kernel op = some t) :
    t.Sound := by
  rcases step_cases ht with ⟨hbuffered, c, rfl, rfl⟩ | ⟨hbuffered, bytes, hputs, rfl⟩ | ⟨hrests, -⟩
  · obtain ⟨hroomy, hroom⟩ := h.roomy hclean hbuffered trivial
    exact (hroomy.fputc kernel c hbuffered hroom).1.sound
  · cases bytes with
    | nil => exact h
    | cons b bytes =>
        obtain ⟨hroomy, hroom⟩ := h.roomy hclean hbuffered (hputs.mp (List.cons_ne_nil b bytes))
        exact (hroomy.fwriteLoop (b :: bytes) 0 hbuffered fun _ => hroom).sound
  · exact h.rests hrests

/-- The first store of a call that is not clean is outside. -/
theorem Sound.clean (h : s.Sound) (ht : s.step kernel op = some t) (hinside : t.Inside) :
    s.Clean op := by
  intro hbuffered hputs
  have hstored : s.file.pending.length < s.requested := by
    have hfputc : ∀ c, (s.fputc kernel c).2.Inside → s.file.pending.length < s.requested := by
      intro c hc
      obtain ⟨hfollows, hstores, -⟩ := fputc_spec kernel c hbuffered
      have hlt := hc s.file.pending.length (by simp [hstores])
      rwa [hfollows.requested] at hlt
    rcases step_cases ht with ⟨-, c, -, rfl⟩ | ⟨-, bytes, hbytes, rfl⟩ | ⟨-, hno⟩
    · exact hfputc c hinside
    · cases bytes with
      | nil => exact absurd rfl (hbytes.mpr hputs)
      | cons b bytes =>
          obtain ⟨hfollows, -⟩ := fputc_spec kernel (b.signExtend 32) hbuffered
          apply hfputc (b.signExtend 32)
          rw [Stream.fwriteLoop] at hinside
          dsimp only at hinside
          split at hinside
          · exact hinside
          · exact (fwriteLoop_follows kernel bytes 1 _
              (hfollows.buffered.trans hbuffered)).inside hinside
    · exact absurd hputs (hno hbuffered)
  refine ⟨Nat.ne_of_gt (Nat.zero_lt_of_lt hstored), fun hfull => ?_⟩
  rcases h.room hbuffered with hzero | ⟨hcap, -⟩
  · rw [hzero] at hstored
    exact Nat.not_lt_zero _ hstored
  · rw [hfull, hcap] at hstored
    exact Nat.lt_irrefl _ hstored

/-- In every run from a stream of `fopen` or `init_io` all stores are inside the bytes that were
    requested for the buffer if and only if all calls are clean. -/
theorem stores_inside_iff (kernel : Kernel) (s : Stream) (hs : Created s) (ops : List Op)
    (t : Stream)
    (h : Trace (step kernel) (fun _ _ => True) s ops t) :
    t.Inside ↔ Trace (step kernel) Clean s ops t := by
  have hsound : ∀ {ops t}, Trace (step kernel) Clean s ops t → t.Sound := by
    intro ops t h
    induction h with
    | nil => exact hs.sound
    | snoc _ hclean ht ih => exact ih.step hclean ht
  refine ⟨fun hinside => ?_, fun hclean => (hsound hclean).inside⟩
  induction h with
  | nil => exact .nil
  | snoc _ _ ht ih =>
      have hbefore := ih ((step_follows ht).inside hinside)
      exact .snoc hbefore ((hsound hbefore).clean ht hinside) ht

/-- A kernel that accepts all bytes. -/
def accepting : Kernel := ⟨fun _ size => size, fun _ _ => 0#8⟩

/-- `stdout` behind a character and a flush. -/
def oneFlushed : Stream := ⟨⟨1#32, true, [], bufsiz, true⟩, bufsiz, [0], [.write [97#8] 1#32]⟩

theorem stores_inside_iff_flushed : oneFlushed.Inside := by
  have hfirst : ∀ {ok}, ok (stdout 0#32) (.fputc 97#32) → Trace (step accepting) ok (stdout 0#32)
      ([] ++ [.fputc 97#32]) ((stdout 0#32).storeChar 97#32) := fun h => .snoc .nil h rfl
  have hclean : Clean (stdout 0#32) (.fputc 97#32) := fun _ _ => by decide
  exact (stores_inside_iff accepting (stdout 0#32) (.stdout 0#32)
    ([] ++ [.fputc 97#32] ++ [.fflush]) oneFlushed (.snoc (hfirst trivial) trivial rfl)).mpr
    (.snoc (hfirst hclean) (fun _ h => absurd h id) rfl)

/-- A new stream of `fopen`, for whose buffer no byte was requested. -/
theorem fopen_overrun : ∃ s t, Created s ∧
    Trace (step accepting) (fun _ _ => True) s ([] ++ [.fputc 97#32]) t ∧ ¬ t.Inside := by
  have hopened : fopen (fun _ => 3#32) 0#32 (fun i => [119#8].getD i 0#8) =
      some ⟨⟨0#32, true, [], bufsiz, false⟩, 0, [], []⟩ := rfl
  refine ⟨_, _, .fopen hopened, .snoc .nil trivial rfl, fun hinside => ?_⟩
  exact Nat.not_lt_zero 0 (hinside 0 List.mem_cons_self)

end Muse.Libc.Stream
