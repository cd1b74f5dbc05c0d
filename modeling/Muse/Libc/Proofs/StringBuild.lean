import Muse.Libc.String
import Muse.Library.Fuel

/-!
# String building

`strcpy`, `strncpy` and `strcat` store what they should. Where `strncat` reaches the end of the
string that it appends, it counts the terminator as a character: the terminating zero is stored one
place too far, and the byte behind the characters keeps what it was.
-/

namespace Muse.Libc

open Library

/-- There is room for `size` bytes at `dst`, apart from the string at `src`. -/
structure Room (dst : BitVec 32) (size : Nat) (src : BitVec 32) (len : Nat) : Prop where
  fits : dst.toNat + size ≤ 2 ^ 32
  apart : dst.toNat + size ≤ src.toNat ∨ src.toNat + len + 1 ≤ dst.toNat

section Rounds

variable {mem : ByteMem} {d s : BitVec 32} {size j : Nat} {chars : List (BitVec 8)} {a : Access}

/-- The source is read as it was, whatever the destination has received. -/
theorem Room.read (h : Room d size s chars.length) (hs : CStringAt mem s chars)
    {xs : List (BitVec 8)} (hxs : xs.length ≤ size) (hj : j ≤ chars.length) :
    put mem d xs (s + BitVec.ofNat 32 j) = chars.getD j 0#8 := by
  have hfits := hs.fits
  have hroom := h.fits
  rw [put_other, hs.bytes j hj]
  intro i hi
  rcases h.apart with hlow | hhigh
  · exact add_ofNat_ne (by omega) (by omega) (by omega)
  · exact add_ofNat_ne (by omega) (by omega) (by omega)

/-- The index `j` is read, which is below the end of the string. -/
theorem Room.read_char (h : Room d size s chars.length) (hs : CStringAt mem s chars)
    (hmem : a.mem = put mem d (chars.take j)) (hj : j < chars.length) (hsize : j ≤ size) :
    a.mem (s + BitVec.ofNat 32 j) = chars[j] ∧ a.mem (s + BitVec.ofNat 32 j) ≠ 0#8 := by
  have hread : a.mem (s + BitVec.ofNat 32 j) = chars[j] := by
    rw [hmem, h.read hs (by rw [List.length_take]; omega) (Nat.le_of_lt hj),
      List.getD_eq_getElem _ _ hj]
  refine ⟨hread, ?_⟩
  rw [hread]
  exact hs.nonzero _ (List.getElem_mem hj)

theorem Room.read_end (h : Room d size s chars.length) (hs : CStringAt mem s chars)
    (hmem : a.mem = put mem d chars) (hsize : chars.length ≤ size) :
    a.mem (s + BitVec.ofNat 32 chars.length) = 0#8 := by
  rw [hmem, h.read hs hsize (Nat.le_refl _), List.getD_eq_default _ _ (Nat.le_refl _)]

/-- A round that copies the character `j`. -/
theorem Room.copy (h : Room d size s chars.length) (hs : CStringAt mem s chars)
    (hmem : a.mem = put mem d (chars.take j)) (hj : j < chars.length) (hsize : j ≤ size) :
    (a.copy (d + BitVec.ofNat 32 j) (s + BitVec.ofNat 32 j)).mem =
      put mem d (chars.take (j + 1)) := by
  have := hs.length_lt
  rw [Access.copy_mem, (h.read_char hs hmem hj hsize).1, hmem, put_take_succ hj (by omega)]

end Rounds

section Strcpy

variable {mem : ByteMem} {s1 s2 n : BitVec 32} {chars : List (BitVec 8)} {a : Access}

theorem strcpyLoop_returns (hroom : Room s1 (chars.length + 1) s2 chars.length)
    (hs : CStringAt mem s2 chars) (ha : a.mem = mem) :
    ∃ b, Returns (fun fuel => strcpyLoop s1 s2 fuel 0#32 a) b ∧
      b.mem = put mem s1 (chars ++ [0#8]) := by
  have hlen := hs.length_lt
  apply loop_returns (fun fuel s => strcpyLoop s1 s2 fuel s.1 s.2) chars.length
    (fun j (s : BitVec 32 × Access) =>
      s.1 = BitVec.ofNat 32 j ∧ s.2.mem = put mem s1 (chars.take j))
    (fun b => b.mem = put mem s1 (chars ++ [0#8])) _ _ (0#32, a) ⟨rfl, ha⟩
  · rintro j hj ⟨_, c⟩ ⟨rfl, hmem⟩
    have hcopy := hroom.copy hs hmem hj (by omega)
    refine ⟨(BitVec.ofNat 32 j + 1#32,
      (c.copy (s1 + BitVec.ofNat 32 j) (s2 + BitVec.ofNat 32 j)).read (s2 + BitVec.ofNat 32 j)),
      ⟨ofNat_succ j, hcopy⟩, fun fuel => ?_⟩
    have hne : (c.copy (s1 + BitVec.ofNat 32 j) (s2 + BitVec.ofNat 32 j)).mem
        (s2 + BitVec.ofNat 32 j) ≠ 0#8 := by
      rw [hcopy, hroom.read hs (by rw [List.length_take]; omega) (Nat.le_of_lt hj),
        List.getD_eq_getElem _ _ hj]
      exact hs.nonzero _ (List.getElem_mem hj)
    exact if_neg hne
  · rintro ⟨_, c⟩ ⟨rfl, hmem⟩
    rw [List.take_length] at hmem
    have hmem : c.mem = put mem s1 chars := hmem
    have hstore : (c.copy (s1 + BitVec.ofNat 32 chars.length)
        (s2 + BitVec.ofNat 32 chars.length)).mem = put mem s1 (chars ++ [0#8]) := by
      rw [Access.copy_mem, hroom.read_end hs hmem (by omega), hmem, put_concat hlen]
    refine ⟨(c.copy (s1 + BitVec.ofNat 32 chars.length) (s2 + BitVec.ofNat 32 chars.length)).read
      (s2 + BitVec.ofNat 32 chars.length), hstore, fun fuel => ?_⟩
    have hend : (c.copy (s1 + BitVec.ofNat 32 chars.length) (s2 + BitVec.ofNat 32 chars.length)).mem
        (s2 + BitVec.ofNat 32 chars.length) = 0#8 := by
      rw [hstore, hroom.read hs (by simp) (Nat.le_refl _), List.getD_eq_default _ _ (Nat.le_refl _)]
    exact if_pos hend

end Strcpy

section Strncpy

variable {mem : ByteMem} {s1 s2 n : BitVec 32} {chars : List (BitVec 8)} {a : Access}

theorem strncpyLoop_returns (hroom : Room s1 n.toNat s2 chars.length)
    (hs : CStringAt mem s2 chars) (ha : a.mem = mem) :
    ∃ r, Returns (fun fuel => strncpyLoop s1 s2 n fuel 0#32 a) r ∧
      r.1 = BitVec.ofNat 32 (min n.toNat chars.length) ∧
      r.2.mem = put mem s1 (chars.take (min n.toNat chars.length)) := by
  have hlen := hs.length_lt
  apply loop_returns (fun fuel s => strncpyLoop s1 s2 n fuel s.1 s.2)
    (min n.toNat chars.length)
    (fun j (s : BitVec 32 × Access) =>
      s.1 = BitVec.ofNat 32 j ∧ s.2.mem = put mem s1 (chars.take j)) _ _ _ (0#32, a) ⟨rfl, ha⟩
  · rintro j hj ⟨_, c⟩ ⟨rfl, hmem⟩
    have hjn : BitVec.ofNat 32 j < n := (ofNat_lt_iff (by omega)).mpr (by omega)
    have hcopy := hroom.copy (a := c.read (s2 + BitVec.ofNat 32 j)) hs hmem (by omega) (by omega)
    refine ⟨(BitVec.ofNat 32 j + 1#32,
      (c.read (s2 + BitVec.ofNat 32 j)).copy (s1 + BitVec.ofNat 32 j) (s2 + BitVec.ofNat 32 j)),
      ⟨ofNat_succ j, hcopy⟩, fun fuel => ?_⟩
    have hne : c.mem (s2 + BitVec.ofNat 32 j) ≠ 0#8 :=
      (hroom.read_char hs hmem (by omega) (by omega)).2
    exact (if_pos hjn).trans (if_pos hne)
  · rintro ⟨_, c⟩ ⟨rfl, hmem⟩
    by_cases hle : n.toNat ≤ chars.length
    · rw [Nat.min_eq_left hle] at hmem ⊢
      refine ⟨(BitVec.ofNat 32 n.toNat, c), ⟨rfl, hmem⟩, fun fuel => ?_⟩
      have hge : ¬ BitVec.ofNat 32 n.toNat < n := by
        rw [ofNat_lt_iff n.isLt]
        exact Nat.lt_irrefl _
      exact if_neg hge
    · rw [Nat.min_eq_right (Nat.le_of_not_le hle)] at hmem ⊢
      refine ⟨(BitVec.ofNat 32 chars.length, c.read (s2 + BitVec.ofNat 32 chars.length)),
        ⟨rfl, hmem⟩, fun fuel => ?_⟩
      have hlt : BitVec.ofNat 32 chars.length < n := (ofNat_lt_iff hlen).mpr (by omega)
      have hend : c.mem (s2 + BitVec.ofNat 32 chars.length) = 0#8 := by
        rw [List.take_length] at hmem
        exact hroom.read_end hs hmem (by omega)
      exact (if_pos hlt).trans (if_neg (not_not.mpr hend))

/-- The zeros behind the characters. -/
theorem strncpyPad_returns {k : Nat} {xs : List (BitVec 8)} (hk : xs.length = k)
    (hkn : k ≤ n.toNat) (ha : a.mem = put mem s1 xs) :
    ∃ b, Returns (fun fuel => strncpyPad s1 n fuel (BitVec.ofNat 32 k) a) b ∧
      b.mem = put mem s1 (xs ++ List.replicate (n.toNat - k) 0#8) := by
  have hn := n.isLt
  apply loop_returns (fun fuel s => strncpyPad s1 n fuel s.1 s.2) (n.toNat - k)
    (fun j (s : BitVec 32 × Access) => s.1 = BitVec.ofNat 32 (k + j) ∧
      s.2.mem = put mem s1 (xs ++ List.replicate j 0#8)) _ _ _ (BitVec.ofNat 32 k, a)
    ⟨rfl, by rw [List.replicate_zero, List.append_nil]; exact ha⟩
  · rintro j hj ⟨_, c⟩ ⟨rfl, hmem⟩
    refine ⟨(BitVec.ofNat 32 (k + j) + 1#32, c.write (s1 + BitVec.ofNat 32 (k + j)) 0#8),
      ⟨ofNat_succ (k + j), ?_⟩, fun fuel => ?_⟩
    · have hmem : c.mem = put mem s1 (xs ++ List.replicate j 0#8) := hmem
      have hlen : (xs ++ List.replicate j 0#8).length = k + j := by
        rw [List.length_append, List.length_replicate, hk]
      rw [Access.write_mem, hmem, List.replicate_succ', ← List.append_assoc,
        put_concat (by rw [hlen]; omega), hlen]
    · have hlt : BitVec.ofNat 32 (k + j) < n := (ofNat_lt_iff (by omega)).mpr (by omega)
      exact if_pos hlt
  · rintro ⟨_, c⟩ ⟨rfl, hmem⟩
    refine ⟨c, hmem, fun fuel => ?_⟩
    have hge : ¬ BitVec.ofNat 32 (k + (n.toNat - k)) < n := by
      rw [ofNat_lt_iff (by omega)]
      omega
    exact if_neg hge

end Strncpy

section Strcat

variable {mem : ByteMem} {s s1 s2 n : BitVec 32} {chars : List (BitVec 8)} {a : Access}

theorem terminatorLoop_returns (hs : CStringAt mem s chars) (ha : a.mem = mem) :
    ∃ r, Returns (fun fuel => terminatorLoop s fuel 0#32 a) r ∧
      r.1 = BitVec.ofNat 32 chars.length ∧ r.2.mem = mem := by
  apply loop_returns (fun fuel s' => terminatorLoop s fuel s'.1 s'.2) chars.length
    (fun j (s' : BitVec 32 × Access) => s'.1 = BitVec.ofNat 32 j ∧ s'.2.mem = mem) _ _ _ (0#32, a)
    ⟨rfl, ha⟩
  · rintro j hj ⟨_, c⟩ ⟨rfl, hmem⟩
    refine ⟨(BitVec.ofNat 32 j + 1#32, c.read (s + BitVec.ofNat 32 j)), ⟨ofNat_succ j, hmem⟩,
      fun fuel => ?_⟩
    have hne : c.mem (s + BitVec.ofNat 32 j) ≠ 0#8 := by
      rw [show c.mem = mem from hmem]
      exact hs.byte_ne hj
    exact if_pos hne
  · rintro ⟨_, c⟩ ⟨rfl, hmem⟩
    refine ⟨(BitVec.ofNat 32 chars.length, c.read (s + BitVec.ofNat 32 chars.length)), ⟨rfl, hmem⟩,
      fun fuel => ?_⟩
    have hend : c.mem (s + BitVec.ofNat 32 chars.length) = 0#8 := by
      rw [show c.mem = mem from hmem]
      exact hs.terminator
    exact if_neg (not_not.mpr hend)

variable {len1 : Nat}

theorem strcatLoop_returns
    (hroom : Room (s1 + BitVec.ofNat 32 len1) (chars.length + 1) s2 chars.length)
    (hs : CStringAt mem s2 chars) (ha : a.mem = mem) :
    ∃ r, Returns (fun fuel => strcatLoop s1 s2 (BitVec.ofNat 32 len1) fuel 0#32 a) r ∧
      r.1 = BitVec.ofNat 32 chars.length ∧
      r.2.mem = put mem (s1 + BitVec.ofNat 32 len1) chars := by
  apply loop_returns
    (fun fuel s => strcatLoop s1 s2 (BitVec.ofNat 32 len1) fuel s.1 s.2)
    chars.length
    (fun j (s : BitVec 32 × Access) => s.1 = BitVec.ofNat 32 j ∧
      s.2.mem = put mem (s1 + BitVec.ofNat 32 len1) (chars.take j)) _ _ _ (0#32, a) ⟨rfl, ha⟩
  · rintro j hj ⟨_, c⟩ ⟨rfl, hmem⟩
    have hcopy := hroom.copy (a := c.read (s2 + BitVec.ofNat 32 j)) hs hmem hj (by omega)
    rw [BitVec.add_assoc] at hcopy
    refine ⟨(BitVec.ofNat 32 j + 1#32, _), ⟨ofNat_succ j, hcopy⟩, fun fuel => ?_⟩
    have hne : c.mem (s2 + BitVec.ofNat 32 j) ≠ 0#8 := (hroom.read_char hs hmem hj (by omega)).2
    exact if_pos hne
  · rintro ⟨_, c⟩ ⟨rfl, hmem⟩
    rw [List.take_length] at hmem
    refine ⟨(BitVec.ofNat 32 chars.length, c.read (s2 + BitVec.ofNat 32 chars.length)),
      ⟨rfl, hmem⟩, fun fuel => ?_⟩
    have hend : c.mem (s2 + BitVec.ofNat 32 chars.length) = 0#8 :=
      hroom.read_end hs hmem (by omega)
    exact if_neg (not_not.mpr hend)

/-- The index that `strncat` stores its terminator at, counted from the end of `s1`. -/
def strncatEnd (n : BitVec 32) (chars : List (BitVec 8)) : Nat :=
  if n.toNat ≤ chars.length then n.toNat else chars.length + 1

theorem strncatLoop_returns
    (hroom : Room (s1 + BitVec.ofNat 32 len1) (min n.toNat chars.length + 1) s2 chars.length)
    (hs : CStringAt mem s2 chars) (ha : a.mem = mem) :
    ∃ r, Returns (fun fuel => strncatLoop s1 s2 n (BitVec.ofNat 32 len1) fuel 0#32 a) r ∧
      r.1 = BitVec.ofNat 32 (strncatEnd n chars) ∧
      r.2.mem = put mem (s1 + BitVec.ofNat 32 len1) (chars.take n.toNat) := by
  have hlen := hs.length_lt
  apply loop_returns
    (fun fuel s => strncatLoop s1 s2 n (BitVec.ofNat 32 len1) fuel s.1 s.2)
    (min n.toNat chars.length)
    (fun j (s : BitVec 32 × Access) => s.1 = BitVec.ofNat 32 j ∧
      s.2.mem = put mem (s1 + BitVec.ofNat 32 len1) (chars.take j)) _ _ _ (0#32, a) ⟨rfl, ha⟩
  · rintro j hj ⟨_, c⟩ ⟨rfl, hmem⟩
    have hjn : BitVec.ofNat 32 j < n := (ofNat_lt_iff (by omega)).mpr (by omega)
    have hcopy := hroom.copy (a := c.read (s2 + BitVec.ofNat 32 j)) hs hmem (by omega) (by omega)
    rw [BitVec.add_assoc] at hcopy
    refine ⟨(BitVec.ofNat 32 j + 1#32, _), ⟨ofNat_succ j, hcopy⟩, fun fuel => ?_⟩
    have hne : c.mem (s2 + BitVec.ofNat 32 j) ≠ 0#8 :=
      (hroom.read_char hs hmem (by omega) (by omega)).2
    exact (if_pos hjn).trans (if_neg hne)
  · rintro ⟨_, c⟩ ⟨rfl, hmem⟩
    by_cases hle : n.toNat ≤ chars.length
    · rw [Nat.min_eq_left hle] at hmem ⊢
      refine ⟨(BitVec.ofNat 32 n.toNat, c), ⟨by rw [strncatEnd, if_pos hle], hmem⟩,
        fun fuel => ?_⟩
      have hge : ¬ BitVec.ofNat 32 n.toNat < n := by
        rw [ofNat_lt_iff n.isLt]
        exact Nat.lt_irrefl _
      exact if_neg hge
    · have hlt : chars.length < n.toNat := Nat.lt_of_not_le hle
      rw [Nat.min_eq_right (Nat.le_of_lt hlt), List.take_length] at hmem
      rw [Nat.min_eq_right (Nat.le_of_lt hlt)]
      refine ⟨(BitVec.ofNat 32 chars.length + 1#32, c.read (s2 + BitVec.ofNat 32 chars.length)),
        ⟨?_, ?_⟩, fun fuel => ?_⟩
      · rw [strncatEnd, if_neg hle, ofNat_succ]
      · rw [List.take_of_length_le (Nat.le_of_lt hlt)]
        exact hmem
      · have hend : c.mem (s2 + BitVec.ofNat 32 chars.length) = 0#8 :=
          hroom.read_end hs hmem (by omega)
        exact (if_pos ((ofNat_lt_iff hlen).mpr hlt)).trans (if_pos hend)

end Strcat

section Calls

variable {mem : ByteMem} {s1 s2 n : BitVec 32} {chars1 chars2 : List (BitVec 8)}

/-- The call returns `s1` and leaves the memory `mem'`. -/
def CallBuilds (call : Nat → Option (BitVec 32 × Access)) (s1 : BitVec 32) (mem' : ByteMem) :
    Prop :=
  ∃ a, Returns call (s1, a) ∧ a.mem = mem'

theorem strcpy_builds (hroom : Room s1 (chars2.length + 1) s2 chars2.length)
    (h2 : CStringAt mem s2 chars2) :
    CallBuilds (fun fuel => strcpy s1 s2 fuel ⟨mem, []⟩) s1 (put mem s1 (chars2 ++ [0#8])) := by
  obtain ⟨b, hb, hmem⟩ := strcpyLoop_returns (a := ⟨mem, []⟩) hroom h2 rfl
  exact ⟨b, hb.bind (fun b _ => some (s1, b)) ⟨0, fun _ _ => rfl⟩, hmem⟩

theorem strncpy_builds (hroom : Room s1 n.toNat s2 chars2.length) (h2 : CStringAt mem s2 chars2) :
    CallBuilds (fun fuel => strncpy s1 s2 n fuel ⟨mem, []⟩) s1
      (put mem s1 (chars2.take n.toNat ++ List.replicate (n.toNat - chars2.length) 0#8)) := by
  obtain ⟨⟨i, c⟩, hr, rfl, hmem⟩ := strncpyLoop_returns (a := ⟨mem, []⟩) hroom h2 rfl
  obtain ⟨b, hb, hmem'⟩ := strncpyPad_returns (n := n) (k := min n.toNat chars2.length)
    (by rw [List.length_take]; omega) (Nat.min_le_left _ _) hmem
  refine ⟨b, ?_, ?_⟩
  · exact hr.bind
      (fun r fuel => (strncpyPad s1 n fuel r.1 r.2).bind fun b => some (s1, b))
      (hb.bind (fun b _ => some (s1, b)) ⟨0, fun _ _ => rfl⟩)
  · rw [hmem', ← List.take_eq_take_min, show n.toNat - min n.toNat chars2.length =
      n.toNat - chars2.length by omega]

/-- What is left of the room behind the first string. -/
theorem Room.behind {len1 size : Nat} (h : Room s1 (len1 + size) s2 chars2.length)
    (hsize : 0 < size) : Room (s1 + BitVec.ofNat 32 len1) size s2 chars2.length := by
  have hfits := h.fits
  have hto : (s1 + BitVec.ofNat 32 len1).toNat = s1.toNat + len1 := toNat_add_ofNat (by omega)
  constructor
  · rw [hto]
    omega
  · rw [hto]
    rcases h.apart with hlow | hhigh
    · exact .inl (by omega)
    · exact .inr (by omega)

/-- What is put behind the first string. -/
theorem put_behind (h1 : CStringAt mem s1 chars1) {ys : List (BitVec 8)}
    (hlen : chars1.length + ys.length ≤ 2 ^ 32) :
    put mem s1 (chars1 ++ ys) = put mem (s1 + BitVec.ofNat 32 chars1.length) ys :=
  put_append_of_bytes (fun _ hi => h1.byte_eq hi) hlen

theorem strcat_builds (h1 : CStringAt mem s1 chars1)
    (hroom : Room s1 (chars1.length + (chars2.length + 1)) s2 chars2.length)
    (h2 : CStringAt mem s2 chars2) :
    CallBuilds (fun fuel => strcat s1 s2 fuel ⟨mem, []⟩) s1
      (put mem s1 (chars1 ++ (chars2 ++ [0#8]))) := by
  have hfits := hroom.fits
  obtain ⟨⟨i, c⟩, hr, rfl, hc⟩ := terminatorLoop_returns (a := ⟨mem, []⟩) h1 rfl
  obtain ⟨⟨j, b⟩, hb, rfl, hmem⟩ := strcatLoop_returns (hroom.behind (Nat.succ_pos _)) h2 hc
  refine ⟨b.write (s1 + (BitVec.ofNat 32 chars1.length + BitVec.ofNat 32 chars2.length)) 0#8,
    ?_, ?_⟩
  · exact hr.bind
      (fun r fuel => (strcatLoop s1 s2 r.1 fuel 0#32 r.2).bind fun t =>
        some (s1, t.2.write (s1 + (r.1 + t.1)) 0#8))
      (hb.bind (fun t _ => some
        (s1, t.2.write (s1 + (BitVec.ofNat 32 chars1.length + t.1)) 0#8)) ⟨0, fun _ _ => rfl⟩)
  · have hmem : b.mem = put mem (s1 + BitVec.ofNat 32 chars1.length) chars2 := hmem
    rw [put_behind h1 (by rw [List.length_append, List.length_singleton]; omega),
      put_concat h2.length_lt, BitVec.add_assoc, ← hmem]
    rfl

theorem strncat_returns (h1 : CStringAt mem s1 chars1)
    (hroom : Room s1 (chars1.length + (min n.toNat chars2.length + 1)) s2 chars2.length)
    (h2 : CStringAt mem s2 chars2) :
    CallBuilds (fun fuel => strncat s1 s2 n fuel ⟨mem, []⟩) s1
      (Function.update (put mem (s1 + BitVec.ofNat 32 chars1.length) (chars2.take n.toNat))
        (s1 + BitVec.ofNat 32 chars1.length + BitVec.ofNat 32 (strncatEnd n chars2)) 0#8) := by
  obtain ⟨⟨i, c⟩, hr, rfl, hc⟩ := terminatorLoop_returns (a := ⟨mem, []⟩) h1 rfl
  obtain ⟨⟨j, b⟩, hb, rfl, hmem⟩ := strncatLoop_returns (hroom.behind (Nat.succ_pos _)) h2 hc
  refine ⟨b.write (s1 + (BitVec.ofNat 32 chars1.length + BitVec.ofNat 32 (strncatEnd n chars2)))
    0#8, ?_, ?_⟩
  · exact hr.bind
      (fun r fuel => (strncatLoop s1 s2 n r.1 fuel 0#32 r.2).bind fun t =>
        some (s1, t.2.write (s1 + (r.1 + t.1)) 0#8))
      (hb.bind (fun t _ => some
        (s1, t.2.write (s1 + (BitVec.ofNat 32 chars1.length + t.1)) 0#8)) ⟨0, fun _ _ => rfl⟩)
  · have hmem : b.mem = put mem (s1 + BitVec.ofNat 32 chars1.length) (chars2.take n.toNat) := hmem
    rw [BitVec.add_assoc, ← hmem]
    rfl

/-- The same byte stored at two places. -/
theorem update_eq_update_iff {m : ByteMem} {p q : BitVec 32} {v : BitVec 8} (hne : p ≠ q) :
    Function.update m p v = Function.update m q v ↔ m p = v ∧ m q = v := by
  constructor
  · intro heq
    have hp := congrFun heq p
    have hq := congrFun heq q
    rw [Function.update_self, Function.update_of_ne hne] at hp
    rw [Function.update_self, Function.update_of_ne (Ne.symm hne)] at hq
    exact ⟨hp.symm, hq⟩
  · rintro ⟨hp, hq⟩
    have hsame : ∀ r, m r = v → Function.update m r v = m := fun r hr => by
      rw [← hr, Function.update_eq_self]
    rw [hsame p hp, hsame q hq]

theorem strncat_builds_iff (h1 : CStringAt mem s1 chars1)
    (hroom : Room s1 (chars1.length + (min n.toNat chars2.length + 1)) s2 chars2.length)
    (h2 : CStringAt mem s2 chars2) :
    CallBuilds (fun fuel => strncat s1 s2 n fuel ⟨mem, []⟩) s1
        (put mem s1 (chars1 ++ (chars2.take n.toNat ++ [0#8]))) ↔
      n.toNat ≤ chars2.length ∨ mem (s1 + BitVec.ofNat 32 (chars1.length + chars2.length)) = 0#8 ∧
        mem (s1 + BitVec.ofNat 32 (chars1.length + chars2.length + 1)) = 0#8 := by
  have hfits := hroom.fits
  have hapart := hroom.apart
  have hs2 := s2.isLt
  have hcall : CallBuilds (fun fuel => strncat s1 s2 n fuel ⟨mem, []⟩) s1
      (put mem s1 (chars1 ++ (chars2.take n.toNat ++ [0#8]))) ↔
      Function.update (put mem (s1 + BitVec.ofNat 32 chars1.length) (chars2.take n.toNat))
        (s1 + BitVec.ofNat 32 chars1.length + BitVec.ofNat 32 (strncatEnd n chars2)) 0#8 =
      put mem s1 (chars1 ++ (chars2.take n.toNat ++ [0#8])) := by
    obtain ⟨b, hb, hmem⟩ := strncat_returns h1 hroom h2
    rw [← hmem]
    constructor
    · rintro ⟨a, ha, hbuilt⟩
      rw [← hbuilt, show b = a from congrArg Prod.snd (hb.unique ha)]
    · intro heq
      exact ⟨b, hb, heq⟩
  have htake : (chars2.take n.toNat).length = min n.toNat chars2.length := List.length_take
  rw [hcall, put_behind h1 (by rw [List.length_append, htake, List.length_singleton]; omega),
    put_concat (by rw [htake]; omega), htake, strncatEnd]
  by_cases hle : n.toNat ≤ chars2.length
  · rw [if_pos hle, Nat.min_eq_left hle]
    exact iff_of_true rfl (.inl hle)
  · rw [if_neg hle, Nat.min_eq_right (Nat.le_of_not_le hle),
      List.take_of_length_le (Nat.le_of_not_le hle)]
    -- neither place is one of the characters
    have hkept : ∀ k, chars2.length ≤ k → k < 2 ^ 32 →
        put mem (s1 + BitVec.ofNat 32 chars1.length) chars2
          (s1 + BitVec.ofNat 32 chars1.length + BitVec.ofNat 32 k) =
        mem (s1 + BitVec.ofNat 32 (chars1.length + k)) := by
      intro k hk hlt
      rw [put_other, BitVec.ofNat_add, BitVec.add_assoc]
      intro i hi heq
      have := add_ofNat_inj hlt (by omega) heq
      omega
    have hne : s1 + BitVec.ofNat 32 chars1.length + BitVec.ofNat 32 (chars2.length + 1) ≠
        s1 + BitVec.ofNat 32 chars1.length + BitVec.ofNat 32 chars2.length := by
      intro heq
      have := add_ofNat_inj (by omega) (by omega) heq
      omega
    rw [update_eq_update_iff hne, hkept _ (Nat.le_succ _) (by omega),
      hkept _ (Nat.le_refl _) (by omega)]
    constructor
    · rintro ⟨hbehind, hend⟩
      exact .inr ⟨hend, hbehind⟩
    · rintro (hle' | ⟨hend, hbehind⟩)
      · exact absurd hle' hle
      · exact ⟨hbehind, hend⟩

/-- What the building functions do on two strings, where the first one has room enough for what each
    of them stores. -/
structure BuildsStrings (mem : ByteMem) (s1 s2 n : BitVec 32) (chars1 chars2 : List (BitVec 8)) :
    Prop where
  strcpy : Room s1 (chars2.length + 1) s2 chars2.length →
    CallBuilds (fun fuel => strcpy s1 s2 fuel ⟨mem, []⟩) s1 (put mem s1 (chars2 ++ [0#8]))
  strncpy : Room s1 n.toNat s2 chars2.length →
    CallBuilds (fun fuel => strncpy s1 s2 n fuel ⟨mem, []⟩) s1
      (put mem s1 (chars2.take n.toNat ++ List.replicate (n.toNat - chars2.length) 0#8))
  strcat : Room s1 (chars1.length + (chars2.length + 1)) s2 chars2.length →
    CallBuilds (fun fuel => strcat s1 s2 fuel ⟨mem, []⟩) s1
      (put mem s1 (chars1 ++ (chars2 ++ [0#8])))
  strncat : Room s1 (chars1.length + (min n.toNat chars2.length + 1)) s2 chars2.length →
    CallBuilds (fun fuel => strncat s1 s2 n fuel ⟨mem, []⟩) s1
      (put mem s1 (chars1 ++ (chars2.take n.toNat ++ [0#8])))

theorem string_building_iff (h1 : CStringAt mem s1 chars1) (h2 : CStringAt mem s2 chars2)
    (n : BitVec 32) :
    BuildsStrings mem s1 s2 n chars1 chars2 ↔
      (Room s1 (chars1.length + (min n.toNat chars2.length + 1)) s2 chars2.length →
        n.toNat ≤ chars2.length ∨
        mem (s1 + BitVec.ofNat 32 (chars1.length + chars2.length)) = 0#8 ∧
          mem (s1 + BitVec.ofNat 32 (chars1.length + chars2.length + 1)) = 0#8) := by
  constructor
  · intro h hroom
    exact (strncat_builds_iff h1 hroom h2).mp (h.strncat hroom)
  · intro hcond
    constructor
    · intro hroom
      exact strcpy_builds hroom h2
    · intro hroom
      exact strncpy_builds hroom h2
    · intro hroom
      exact strcat_builds h1 hroom h2
    · intro hroom
      exact (strncat_builds_iff h1 hroom h2).mpr (hcond hroom)

end Calls

/-- The string `"a"` at 100 with other bytes behind its terminator, and `"b"` at 200. -/
def filled : ByteMem := put (put (fun _ => 7#8) 100#32 [97#8, 0#8]) 200#32 [98#8, 0#8]

theorem filled_first : CStringAt filled 100#32 [97#8] where
  fits := by decide
  nonzero := by decide
  bytes := by decide

theorem filled_second : CStringAt filled 200#32 [98#8] where
  fits := by decide
  nonzero := by decide
  bytes := by decide

/-- One character of `"b"` is appended. -/
theorem string_building_iff_one : BuildsStrings filled 100#32 200#32 1#32 [97#8] [98#8] :=
  (string_building_iff filled_first filled_second 1#32).mpr fun _ => .inl (by decide)

/-- Up to five characters of `"b"` are appended. -/
theorem strncat_past_the_end : ¬ BuildsStrings filled 100#32 200#32 5#32 [97#8] [98#8] := by
  intro h
  have hroom : Room 100#32 ([97#8].length + (min (5#32).toNat [98#8].length + 1)) 200#32
      [98#8].length := ⟨by decide, by decide⟩
  have hcond := (strncat_builds_iff filled_first hroom filled_second).mp (h.strncat hroom)
  exact absurd hcond (by decide)

end Muse.Libc
