import Muse.Ext2.Directory
import Muse.Ext2.Proofs.Blocks
import Muse.Ext2.Proofs.ReadBack

/-!
# What enumerating a directory finds

The loop of `enumerate_children` over the entries ends, and reads inside the buffer, exactly if the
buffer is made of used entries up to its end or up to an unused entry. For a directory whose blocks
are made of entries it finds those before the first unused one, so it finds all used entries exactly
if no used entry stands behind an unused one.
-/

namespace Muse.Ext2

open Muse.Library
open Muse.Vfs (Tnode)

/-! ## The loop over the entries -/

section Walk

variable {buf buf' : Bytes} {size off : BitVec 32} {children r : List Tnode}

/-- The bound of the loop, if the buffer is not empty. -/
theorem size_sub_one (h : 0 < size.toNat) : (size - 1#32).toNat = size.toNat - 1 := by
  rw [BitVec.toNat_sub_of_le]
  · rfl
  · rw [BitVec.le_def]
    exact h

/-- In an empty buffer the loop reads behind the end. -/
theorem walkEntries_empty (buf : Bytes) (fuel : Nat) (children : List Tnode) :
    walkEntries buf 0#32 fuel 0#32 children = none := by
  cases fuel with
  | zero => rfl
  | succ fuel =>
      rw [walkEntries, if_pos (by decide), if_pos (by decide)]

theorem entryReads_ge (buf : Bytes) (off : Nat) : 7 ≤ entryReads buf off := by
  rw [entryReads]
  split <;> omega

theorem entryReads_le (buf : Bytes) (off : Nat) :
    entryReads buf off ≤ 8 + (entryNameLen buf off).toNat := by
  rw [entryReads]
  split <;> omega

/-- A round that goes on. -/
theorem walkEntries_used (fuel : Nat) (children : List Tnode) (h : off.toNat + 1 < size.toNat)
    (hused : UsedEntry buf off.toNat)
    (hreads : off.toNat + entryReads buf off.toNat ≤ size.toNat) :
    walkEntries buf size (fuel + 1) off children =
      walkEntries buf size fuel (off + (entryLen buf off.toNat).setWidth 32)
        (entryNode buf off.toNat :: children) := by
  have hbound := size_sub_one (by omega : 0 < size.toNat)
  have hge := entryReads_ge buf off.toNat
  rw [walkEntries, if_pos (by rw [BitVec.lt_def]; omega), if_neg (by omega), if_neg hused,
    if_neg (by omega)]

/-- The loop ends at the end of the buffer. -/
theorem walkEntries_end (fuel : Nat) (children : List Tnode) (hpos : 0 < size.toNat)
    (h : size.toNat ≤ off.toNat + 1) :
    walkEntries buf size (fuel + 1) off children = some children := by
  have hbound := size_sub_one hpos
  rw [walkEntries, if_neg (by rw [BitVec.lt_def]; omega)]

/-- The loop ends at an unused entry. -/
theorem walkEntries_unused (fuel : Nat) (children : List Tnode)
    (h : off.toNat + 4 ≤ size.toNat) (hunused : ¬ UsedEntry buf off.toNat) :
    walkEntries buf size (fuel + 1) off children = some children := by
  have hbound := size_sub_one (by omega : 0 < size.toNat)
  rw [walkEntries, if_pos (by rw [BitVec.lt_def]; omega), if_neg (by omega),
    if_pos (not_not.mp hunused)]

/-- An offset plus the length of its entry. -/
theorem add_len_toNat (buf : Bytes) (off : BitVec 32) :
    (off + (entryLen buf off.toNat).setWidth 32).toNat = entryEnd buf off.toNat % 2 ^ 32 := by
  have hlt := (entryLen buf off.toNat).isLt
  have hmod : (entryLen buf off.toNat).toNat % 2 ^ 32 = (entryLen buf off.toNat).toNat :=
    Nat.mod_eq_of_lt (by omega)
  rw [BitVec.toNat_add, BitVec.toNat_setWidth, hmod, entryEnd]

/-- An entry without a length is read for ever. -/
theorem walkEntries_stuck (fuel : Nat) (children : List Tnode) (h : off.toNat + 1 < size.toNat)
    (hused : UsedEntry buf off.toNat) (hlen : entryLen buf off.toNat = 0#16) :
    walkEntries buf size fuel off children = none := by
  induction fuel generalizing children with
  | zero => rfl
  | succ fuel ih =>
      have hbound := size_sub_one (by omega : 0 < size.toNat)
      rw [walkEntries, if_pos (by rw [BitVec.lt_def]; omega)]
      split
      · rfl
      rw [if_neg hused]
      split
      · rfl
      · rw [hlen, show off + (0#16 : BitVec 16).setWidth 32 = off from BitVec.add_zero off]
        exact ih _

/-- More rounds than the loop needs do nothing. -/
theorem walkEntries_add {fuel : Nat} (more : Nat)
    (h : walkEntries buf size fuel off children = some r) :
    walkEntries buf size (fuel + more) off children = some r := by
  induction fuel generalizing off children with
  | zero => cases h
  | succ fuel ih =>
      rw [walkEntries] at h
      rw [Nat.add_right_comm, walkEntries]
      split
      next hlt =>
        rw [if_pos hlt] at h
        split
        next hout =>
          rw [if_pos hout] at h
          cases h
        next hout =>
          rw [if_neg hout] at h
          split
          next hz => rwa [if_pos hz] at h
          next hz =>
            rw [if_neg hz] at h
            split
            next hname =>
              rw [if_pos hname] at h
              cases h
            next hname =>
              rw [if_neg hname] at h
              exact ih h
      next hlt => rwa [if_neg hlt] at h

/-- A loop that ends has gone through used entries inside the buffer. -/
theorem entries_of_walk {fuel : Nat} (hpos : 0 < size.toNat)
    (h : walkEntries buf size fuel off children = some r) :
    ∃ l stop, RecordChain (EntryInside buf size.toNat) (fun off => entryEnd buf off % 2 ^ 32)
        off.toNat l stop ∧
      (size.toNat ≤ stop + 1 ∨ stop + 4 ≤ size.toNat ∧ ¬ UsedEntry buf stop) := by
  have hbound := size_sub_one hpos
  induction fuel generalizing off children with
  | zero => cases h
  | succ fuel ih =>
      rw [walkEntries] at h
      split at h
      next hlt =>
        rw [BitVec.lt_def] at hlt
        split at h
        next => cases h
        next hin =>
          split at h
          next hz => exact ⟨[], _, .nil _, .inr ⟨by omega, not_not.mpr hz⟩⟩
          next hused =>
            split at h
            next => cases h
            next hname =>
              obtain ⟨l, stop, hchain, hstop⟩ := ih h
              rw [add_len_toNat] at hchain
              refine ⟨_ :: l, stop, .cons ⟨by omega, hused, by omega, ?_⟩ hchain, hstop⟩
              intro hlen
              rw [hlen, show off + (0#16 : BitVec 16).setWidth 32 = off from BitVec.add_zero off,
                walkEntries_stuck fuel _ (by omega) hused hlen] at h
              cases h
      next hlt =>
        rw [BitVec.lt_def] at hlt
        exact ⟨[], _, .nil _, .inl (by omega)⟩

/-- The loop goes through used entries inside the buffer. -/
theorem walk_of_entries {a stop : Nat} {l : List Nat}
    (h : RecordChain (EntryInside buf size.toNat) (fun off => entryEnd buf off % 2 ^ 32) a l stop)
    (hpos : 0 < size.toNat)
    (hstop : size.toNat ≤ stop + 1 ∨ stop + 4 ≤ size.toNat ∧ ¬ UsedEntry buf stop)
    (hoff : off.toNat = a) (children : List Tnode) :
    ∃ r, walkEntries buf size (l.length + 1) off children = some r := by
  induction h generalizing off children with
  | nil a =>
      subst hoff
      rcases hstop with hend | ⟨hin, hunused⟩
      · exact ⟨_, walkEntries_end 0 children hpos hend⟩
      · exact ⟨_, walkEntries_unused 0 children hin hunused⟩
  | cons hentry _ ih =>
      subst hoff
      rw [List.length_cons, walkEntries_used _ children hentry.lt hentry.used hentry.reads]
      exact ih hstop (add_len_toNat buf off) _

end Walk

section Enumerate

variable {sb : Superblock} {bdev : Bdev} {i : BitVec 32} {inode : Inode} {t : Transferred}

/-- The enumeration after the blocks have been read. -/
theorem enumerateChildren_eq (hdir : inode.mode &&& ext2Dir ≠ 0#16) (hsize : sb.blockSize ≠ 0#32)
    (hread : readBlocks sb i (dirBlocks sb inode).toNat 0#32 ⟨.success, inode, fresh, bdev⟩ =
      some t)
    (hok : t.err = .success) (children : List Tnode) (fuel : Nat) :
    enumerateChildren fuel sb bdev i inode children =
      (walkEntries t.data (dirBytes sb inode) fuel 0#32 children).map
        fun firstChild => ⟨.success, firstChild, t.bdev⟩ := by
  rw [enumerateChildren, if_neg hdir, if_neg hsize, hread]
  show (if t.err ≠ .success then _ else _) = _
  rw [if_neg (not_not.mpr hok)]
  cases walkEntries t.data (dirBytes sb inode) fuel 0#32 children with
  | none => rfl
  | some firstChild => rfl

/-- **Enumeration ends.** After the blocks of a directory have been read, the loop over the entries
    ends, with all reads inside the buffer, exactly if the buffer is made of used entries, each with
    a length, up to its end or up to an unused entry. -/
theorem enumerate_children_ends_iff (hdir : inode.mode &&& ext2Dir ≠ 0#16)
    (hread : readBlocks sb i (dirBlocks sb inode).toNat 0#32 ⟨.success, inode, fresh, bdev⟩ =
      some t)
    (hok : t.err = .success) (children : List Tnode) :
    (∃ fuel r, enumerateChildren fuel sb bdev i inode children = some r) ↔
      EntriesInside t.data (dirBytes sb inode).toNat := by
  by_cases hsize : sb.blockSize = 0#32
  · -- the processor faults before the loop, and no buffer is empty and has entries
    have hempty : dirBytes sb inode = 0#32 := by rw [dirBytes, hsize, BitVec.zero_mul]
    rw [hempty]
    constructor
    · rintro ⟨fuel, r, hr⟩
      rw [enumerateChildren, if_neg hdir, if_pos hsize] at hr
      cases hr
    · rintro ⟨hpos, -⟩
      exact absurd hpos (Nat.lt_irrefl 0)
  have hrun := enumerateChildren_eq hdir hsize hread hok children
  constructor
  · rintro ⟨fuel, r, hr⟩
    rw [hrun] at hr
    obtain ⟨found, hwalk, -⟩ := Option.map_eq_some_iff.mp hr
    have hpos : 0 < (dirBytes sb inode).toNat := by
      refine Nat.pos_of_ne_zero fun hz => ?_
      have hempty : dirBytes sb inode = 0#32 := BitVec.eq_of_toNat_eq hz
      rw [hempty, walkEntries_empty] at hwalk
      cases hwalk
    exact ⟨hpos, entries_of_walk hpos hwalk⟩
  · rintro ⟨hpos, l, stop, hchain, hstop⟩
    obtain ⟨found, hwalk⟩ := walk_of_entries hchain hpos hstop
      (rfl : (0#32).toNat = 0) children
    exact ⟨l.length + 1, _, by rw [hrun, hwalk]; rfl⟩

end Enumerate

/-! ## Chains of entries -/

section Chain

variable {buf buf' : Bytes} {size : BitVec 32}

theorem entryInode_congr {n off : Nat} (h : ∀ k < n, buf' k = buf k) (hin : off + 4 ≤ n) :
    entryInode buf' off = entryInode buf off :=
  Bytes.word32_congr fun k hk => h (off + k) (by omega)

theorem entryNameLen_congr {n off : Nat} (h : ∀ k < n, buf' k = buf k) (hin : off + 8 ≤ n) :
    entryNameLen buf' off = entryNameLen buf off := h (off + 6) (by omega)

theorem entryLen_congr {n off : Nat} (h : ∀ k < n, buf' k = buf k) (hin : off + 8 ≤ n) :
    entryLen buf' off = entryLen buf off := by
  rw [entryLen, entryLen, Bytes.word16, Bytes.word16, h (off + 4) (by omega),
    h (off + 4 + 1) (by omega)]

theorem entryNode_congr {n a : Nat} (h : ∀ k < n, buf' k = buf k)
    (hin : a + 8 + (entryNameLen buf a).toNat ≤ n) : entryNode buf' a = entryNode buf a := by
  have hname : entryName buf' a = entryName buf a := by
    rw [entryName, entryName, entryNameLen_congr h (by omega)]
    refine List.map_congr_left fun k hk => h _ ?_
    have := List.mem_range.mp hk
    omega
  rw [entryNode, entryNode, hname, entryInode_congr h (by omega)]

/-- Entries are longer than their headers. -/
theorem entryEnd_gt {off : Nat} (h : Entry buf off) : off < entryEnd buf off := by
  rw [Entry] at h
  rw [entryEnd]
  omega

/-- The loop over a chain of entries up to the end of the buffer finds those before the first unused
    one. -/
theorem walkEntries_chain {a b : Nat} {l : List Nat}
    (h : RecordChain (Entry buf) (entryEnd buf) a l b) (hb : b = size.toNat)
    (hpos : 0 < size.toNat) (hsame : ∀ k < size.toNat, buf' k = buf k) {off : BitVec 32}
    (hoff : off.toNat = a) (children : List Tnode) :
    walkEntries buf' size (l.length + 1) off children =
      some (((l.takeWhile fun p => UsedEntry buf p).map (entryNode buf)).reverse ++ children) := by
  induction h generalizing off children with
  | nil a =>
      subst hoff
      rw [List.length_nil, walkEntries_end 0 children hpos (by omega)]
      rfl
  | @cons a b l hentry hrest ih =>
      subst hoff
      have hend : entryEnd buf off.toNat ≤ b := hrest.le (m := id) fun _ => entryEnd_gt
      have hlen := hentry
      rw [Entry] at hlen
      rw [entryEnd] at hend
      rw [List.length_cons, List.takeWhile_cons]
      by_cases hused : UsedEntry buf off.toNat
      · have hinode := entryInode_congr hsame (by omega : off.toNat + 4 ≤ size.toNat)
        have hname := entryNameLen_congr hsame (by omega : off.toNat + 8 ≤ size.toNat)
        have hreads := entryReads_le buf' off.toNat
        rw [hname] at hreads
        have hnext := entryLen_congr hsame (by omega : off.toNat + 8 ≤ size.toNat)
        have hnode := entryNode_congr (a := off.toNat) hsame (by omega)
        have hsize := size.isLt
        rw [if_pos (decide_eq_true hused), walkEntries_used _ children (by omega)
          (by rw [UsedEntry, hinode]; exact hused) (by omega), hnode,
          ih hb (by
            rw [add_len_toNat, entryEnd, hnext, entryEnd]
            exact Nat.mod_eq_of_lt (by omega)) (entryNode buf off.toNat :: children)]
        simp only [List.map_cons, List.reverse_cons, List.append_assoc, List.singleton_append]
      · have hinode := entryInode_congr hsame (by omega : off.toNat + 4 ≤ size.toNat)
        rw [if_neg (by simpa using hused), walkEntries_unused _ children (by omega)
          (by rw [UsedEntry, hinode]; exact hused)]
        rfl

end Chain

/-! ## Reading the blocks -/

section Blocks

variable {sb : Superblock} {disk : Bytes} {i : BitVec 32} {inode : Inode}

/-- The loop that reads the blocks, from block `k` on. -/
theorem readBlocks_addressable (hlog : sb.blockSizeLog.toNat ≤ 6) (n k : Nat)
    (h : ∀ j < k + n, Addressable sb disk inode j) {t : Transferred} (hinode : t.inode = inode)
    (hdisk : t.bdev.disk = disk) (hok : ∀ m, t.bdev.result m = .success) (herr : t.err = .success)
    (hdata : ∀ a < k * sb.blockBytes, t.data a = sb.fileByte disk inode a) :
    ∃ t', readBlocks sb i n (BitVec.ofNat 32 k) t = some t' ∧ t'.err = .success ∧
      ∀ a < (k + n) * sb.blockBytes, t'.data a = sb.fileByte disk inode a := by
  have hpos := Superblock.blockBytes_pos hlog
  have hlast := Superblock.file_bytes_lt hlog
  induction n generalizing k t with
  | zero => exact ⟨t, rfl, herr, hdata⟩
  | succ n ih =>
      have hk := h k (by omega)
      have hle : (k + 1) * sb.blockBytes ≤ (12 + sb.entriesPerBlock) * sb.blockBytes :=
        Nat.mul_le_mul_right _ hk.lt
      have hsucc : (k + 1) * sb.blockBytes = k * sb.blockBytes + sb.blockBytes := by
        rw [Nat.add_mul, Nat.one_mul]
      have hlt : k < 2 ^ 32 := by
        have := Nat.le_mul_of_pos_right (k + 1) hpos
        omega
      have hnat : (BitVec.ofNat 32 k).toNat = k := by
        rw [BitVec.toNat_ofNat, Nat.mod_eq_of_lt hlt]
      have hstart : (sb.blockSize * BitVec.ofNat 32 k).toNat = k * sb.blockBytes := by
        rw [BitVec.toNat_mul, Superblock.blockSize_toNat hlog, hnat, Nat.mul_comm,
          Nat.mod_eq_of_lt (by omega)]
      have hblock : Addressable sb disk inode (BitVec.ofNat 32 k).toNat := by
        rw [hnat]
        exact hk
      obtain ⟨m, hr⟩ := hblock.read hlog t.bdev hdisk hok i
        (fun a => t.data (k * sb.blockBytes + a))
      rw [readBlocks, hinode, hstart, hr, hnat]
      simp only [Option.bind_eq_bind, Option.bind_some, ne_eq, not_true_eq_false, if_false]
      rw [show BitVec.ofNat 32 k + 1#32 = BitVec.ofNat 32 (k + 1) from
        (BitVec.ofNat_add k 1).symm, show k + (n + 1) = k + 1 + n by omega]
      refine ih (k + 1) (fun j hj => h j (by omega)) rfl hdisk hok rfl ?_
      intro a ha
      dsimp only
      rw [Superblock.blockSize_toNat hlog]
      by_cases hin : k * sb.blockBytes ≤ a
      · have hoff : a - k * sb.blockBytes < sb.blockBytes := by omega
        have hdiv : a / sb.blockBytes = k :=
          Nat.div_eq_of_lt_le hin ha
        have hmod : a % sb.blockBytes = a - k * sb.blockBytes := by
          have := Nat.div_add_mod a sb.blockBytes
          rw [hdiv, Nat.mul_comm] at this
          omega
        rw [Bytes.splice_of_mem hin (by omega), Bytes.splice_of_mem (Nat.zero_le _) (by omega),
          Nat.sub_zero, Bytes.slice_of_lt hoff, Superblock.fileByte, Superblock.fileAddr,
          hdiv, hmod]
      · rw [Bytes.splice_of_not_mem (by omega)]
        exact hdata a (by omega)

end Blocks

/-! ## The children of a directory -/

section Directory

variable {sb : Superblock} {bdev : Bdev} {inode : Inode} {blocks : Nat} {parts : Nat → List Nat}

namespace DirectoryBlocks

variable (h : DirectoryBlocks sb bdev.disk inode blocks parts)
  (hread : Readable sb bdev inode blocks)

include h

/-- The entries of all blocks are one chain. -/
theorem chain {n : Nat} (hn : n ≤ blocks) :
    RecordChain (Entry (sb.fileByte bdev.disk inode)) (entryEnd (sb.fileByte bdev.disk inode)) 0
      ((List.range n).flatMap parts) (n * sb.blockBytes) := by
  induction n with
  | zero =>
      rw [Nat.zero_mul]
      exact .nil 0
  | succ n ih =>
      rw [List.range_succ, List.flatMap_append, List.flatMap_singleton]
      exact (ih (by omega)).append (h.entries n (by omega))

theorem blockSize_ne : sb.blockSize ≠ 0#32 := by
  intro hz
  have hpos := Superblock.blockBytes_pos h.log_le
  rw [← Superblock.blockSize_toNat h.log_le, hz] at hpos
  exact Nat.lt_irrefl 0 hpos

include hread

theorem bytes_lt : blocks * sb.blockBytes < 2 ^ 32 := by
  have hlast := Superblock.file_bytes_lt h.log_le
  rcases Nat.eq_zero_or_pos blocks with rfl | hpos
  · rw [Nat.zero_mul]
    decide
  · have hlt := (hread.addressable (blocks - 1) (by omega)).lt
    have hle : blocks * sb.blockBytes ≤ (12 + sb.entriesPerBlock) * sb.blockBytes :=
      Nat.mul_le_mul_right _ (by omega)
    omega

theorem dirBlocks_toNat : (dirBlocks sb inode).toNat = blocks := by
  have hpos := Superblock.blockBytes_pos h.log_le
  have hlt := h.bytes_lt hread
  have hmul : inode.sectorCount.toNat * 512 = blocks * sb.blockBytes := by
    rw [h.sectors, Superblock.blockBytes_eq, Nat.mul_assoc, Nat.mul_comm 512]
  rw [dirBlocks, BitVec.toNat_udiv, BitVec.toNat_mul, Superblock.blockSize_toNat h.log_le,
    show (512#32).toNat = 512 from rfl, hmul, Nat.mod_eq_of_lt hlt, Nat.mul_div_cancel _ hpos]

theorem dirBytes_toNat : (dirBytes sb inode).toNat = blocks * sb.blockBytes := by
  rw [dirBytes, BitVec.toNat_mul, Superblock.blockSize_toNat h.log_le, h.dirBlocks_toNat hread,
    Nat.mul_comm, Nat.mod_eq_of_lt (h.bytes_lt hread)]

/-- The enumeration finds the entries before the first unused one. -/
theorem enumerate (hpos : 0 < blocks) (i : BitVec 32) :
    ∃ t, readBlocks sb i (dirBlocks sb inode).toNat 0#32 ⟨.success, inode, fresh, bdev⟩ = some t ∧
      t.err = .success ∧
      walkEntries t.data (dirBytes sb inode) (((List.range blocks).flatMap parts).length + 1) 0#32
        [] = some (((((List.range blocks).flatMap parts).takeWhile fun p =>
          UsedEntry (sb.fileByte bdev.disk inode) p).map
            (entryNode (sb.fileByte bdev.disk inode))).reverse) := by
  obtain ⟨t, hblocks, herr, hdata⟩ := readBlocks_addressable (i := i) h.log_le blocks 0
    (fun j hj => hread.addressable j (by omega)) (t := ⟨.success, inode, fresh, bdev⟩) rfl rfl
    hread.noError rfl (fun a ha => absurd ha (by rw [Nat.zero_mul]; exact Nat.not_lt_zero a))
  have hsize := h.dirBytes_toNat hread
  have hbytes : 0 < blocks * sb.blockBytes :=
    Nat.mul_pos hpos (Superblock.blockBytes_pos h.log_le)
  rw [Nat.zero_add] at hdata
  refine ⟨t, by rw [h.dirBlocks_toNat hread]; exact hblocks, herr, ?_⟩
  rw [walkEntries_chain (h.chain (Nat.le_refl blocks)) hsize.symm (by omega)
    (by rw [hsize]; exact hdata) (rfl : (0#32).toNat = 0) [], List.append_nil]

end DirectoryBlocks

/-- The used entries are those before the first unused one exactly if none of them stands behind an
    unused one. -/
theorem usedFirst_iff (data : Bytes) (l : List Nat) :
    UsedFirst data l ↔ (l.takeWhile fun p => UsedEntry data p).length =
      (l.filter fun p => UsedEntry data p).length := by
  rw [UsedFirst]
  induction l with
  | nil => exact ⟨fun _ => rfl, fun _ => List.Pairwise.nil⟩
  | cons p l ih =>
      rw [List.pairwise_cons, List.takeWhile_cons, List.filter_cons]
      by_cases hused : UsedEntry data p
      · simp only [hused, decide_true, if_true, List.length_cons, Nat.add_right_cancel_iff, ← ih,
          implies_true, true_and]
      · simp only [hused, decide_false, Bool.false_eq_true, if_false, List.length_nil, imp_false]
        rw [eq_comm, List.length_eq_zero_iff, List.filter_eq_nil_iff]
        constructor
        · rintro ⟨hnone, -⟩ q hq
          simpa using hnone q hq
        · intro hnone
          have hnot : ∀ q ∈ l, ¬ UsedEntry data q := fun q hq => by simpa using hnone q hq
          exact ⟨hnot, List.pairwise_of_forall_mem_list fun a _ b hb hub => absurd hub (hnot b hb)⟩

/-- The children that an enumeration finds are the used entries of the directory. -/
def EnumeratesEntries (sb : Superblock) (bdev : Bdev) (inodeI : BitVec 32) (inode : Inode)
    (blocks : Nat) (parts : Nat → List Nat) : Prop :=
  ∃ fuel r, enumerateChildren fuel sb bdev inodeI inode [] = some r ∧ r.err = .success ∧
    ListsEntries (sb.fileByte bdev.disk inode) ((List.range blocks).flatMap parts) r.firstChild

/-- The driver can read the directory, it has a block, and its used entries come first. -/
structure Enumerable (sb : Superblock) (bdev : Bdev) (inode : Inode) (blocks : Nat)
    (parts : Nat → List Nat) : Prop where
  readable : Readable sb bdev inode blocks
  pos : 0 < blocks
  usedFirst : UsedFirst (sb.fileByte bdev.disk inode) ((List.range blocks).flatMap parts)

namespace DirectoryBlocks

/-- An enumeration that lists the entries. -/
theorem usedFirst_of_lists (h : DirectoryBlocks sb bdev.disk inode blocks parts)
    (hread : Readable sb bdev inode blocks) {i : BitVec 32} {fuel : Nat} {r : Enumerated}
    (hr : enumerateChildren fuel sb bdev i inode [] = some r)
    (hlists : ListsEntries (sb.fileByte bdev.disk inode) ((List.range blocks).flatMap parts)
      r.firstChild) :
    0 < blocks ∧
      UsedFirst (sb.fileByte bdev.disk inode) ((List.range blocks).flatMap parts) := by
  rcases Nat.eq_zero_or_pos blocks with hzero | hpos
  · -- the loop reads behind the end of an empty buffer
    subst hzero
    have hblocks : (dirBlocks sb inode).toNat = 0 := h.dirBlocks_toNat hread
    have hbytes : dirBytes sb inode = 0#32 :=
      BitVec.eq_of_toNat_eq (by rw [h.dirBytes_toNat hread, Nat.zero_mul]; rfl)
    rw [enumerateChildren_eq h.isDir h.blockSize_ne (t := ⟨.success, inode, fresh, bdev⟩)
      (by rw [hblocks]; rfl) rfl, hbytes, walkEntries_empty] at hr
    cases hr
  · obtain ⟨t, hblocks, herr, hwalk⟩ := h.enumerate hread hpos i
    rw [enumerateChildren_eq h.isDir h.blockSize_ne hblocks herr] at hr
    generalize (List.range blocks).flatMap parts = l at hwalk hlists ⊢
    generalize sb.fileByte bdev.disk inode = data at hwalk hlists ⊢
    obtain ⟨found, hfound, rfl⟩ := Option.map_eq_some_iff.mp hr
    have hsame := walkEntries_add (l.length + 1) hfound
    rw [Nat.add_comm, walkEntries_add fuel hwalk] at hsame
    have hlen := hlists.length_eq
    rw [← Option.some.inj hsame, List.length_reverse, List.length_map, List.length_map] at hlen
    exact ⟨hpos, (usedFirst_iff data l).mpr hlen⟩

/-- A directory whose used entries come first. -/
theorem lists_of_usedFirst (h : DirectoryBlocks sb bdev.disk inode blocks parts) (i : BitVec 32)
    (hcan : Enumerable sb bdev inode blocks parts) :
    EnumeratesEntries sb bdev i inode blocks parts := by
  have hfirst := hcan.usedFirst
  obtain ⟨t, hblocks, herr, hwalk⟩ := h.enumerate hcan.readable hcan.pos i
  have hrun := enumerateChildren_eq h.isDir h.blockSize_ne hblocks herr []
  rw [EnumeratesEntries]
  generalize (List.range blocks).flatMap parts = l at hwalk hfirst ⊢
  generalize sb.fileByte bdev.disk inode = data at hwalk hfirst ⊢
  refine ⟨l.length + 1, _, by rw [hrun, hwalk]; rfl, rfl, ?_⟩
  have hsub := (List.takeWhile_sublist (l := l) fun p => decide (UsedEntry data p)).filter
    fun p => decide (UsedEntry data p)
  rw [List.filter_eq_self.mpr (List.all_eq_true.mp List.all_takeWhile)] at hsub
  rw [ListsEntries, ← hsub.eq_of_length ((usedFirst_iff data l).mp hfirst)]
  exact List.reverse_perm _

end DirectoryBlocks

/-- **Enumeration finds the entries.** The children of a directory whose blocks are made of entries
    are its used entries, each once, if the driver can read it, it has a block and no used entry
    stands behind an unused one, and of the directories that the driver can read only for these. -/
theorem enumerate_children_lists_iff (h : DirectoryBlocks sb bdev.disk inode blocks parts)
    (i : BitVec 32) :
    (Enumerable sb bdev inode blocks parts → EnumeratesEntries sb bdev i inode blocks parts) ∧
      (Readable sb bdev inode blocks → EnumeratesEntries sb bdev i inode blocks parts →
        Enumerable sb bdev inode blocks parts) := by
  refine ⟨h.lists_of_usedFirst i, fun hread hlists => ?_⟩
  obtain ⟨fuel, r, hr, -, hlists⟩ := hlists
  obtain ⟨hpos, hfirst⟩ := h.usedFirst_of_lists hread hr hlists
  exact ⟨hread, hpos, hfirst⟩

end Directory

/-! ## Directories of one block -/

section One

/-- A directory in block 9, with blocks of 1024 bytes. -/
def oneBlockInode : Inode := fun a =>
  match a with
  | 1 => 0x40#8
  | 28 => 2#8
  | 40 => 9#8
  | _ => 0#8

/-- A device with the bytes `f` in block 9. -/
def oneBlockBdev (f : Bytes) : Bdev :=
  ⟨fun a => if 9216 ≤ a ∧ a < 10240 then f (a - 9216) else 0#8, fun _ => .success, 0, []⟩

variable {f : Bytes}

theorem oneBlock_mapped (f : Bytes) :
    twoTables.mapped (oneBlockBdev f).disk oneBlockInode 0 = 9#32 := rfl

theorem oneBlock_addressable (f : Bytes) {k : Nat} (hk : k < 1) :
    Addressable twoTables (oneBlockBdev f).disk oneBlockInode k := by
  obtain rfl : k = 0 := by omega
  refine ⟨by decide, ?_, ?_, fun h => absurd h (by decide)⟩
  · rw [oneBlock_mapped]
    decide
  · rw [oneBlock_mapped]
    decide

theorem oneBlock_byte {a : Nat} (ha : a < 1024) :
    twoTables.fileByte (oneBlockBdev f).disk oneBlockInode a = f a := by
  have hbytes : twoTables.blockBytes = 1024 := rfl
  rw [Superblock.fileByte, Superblock.fileAddr, hbytes, Nat.div_eq_of_lt ha, Nat.mod_eq_of_lt ha,
    oneBlock_mapped]
  have haddr : (9#32 : BitVec 32).toNat * 1024 + a = 9216 + a := rfl
  rw [haddr, oneBlockBdev]
  dsimp only
  rw [if_pos ⟨by omega, by omega⟩, Nat.add_sub_cancel_left]

/-- The loop that reads the block. -/
theorem oneBlock_read (f : Bytes) (i : BitVec 32) :
    ∃ t, readBlocks twoTables i (dirBlocks twoTables oneBlockInode).toNat 0#32
        ⟨.success, oneBlockInode, fresh, oneBlockBdev f⟩ = some t ∧ t.err = .success ∧
      ∀ a < 1024, t.data a = f a := by
  obtain ⟨t, hread, herr, hdata⟩ := readBlocks_addressable (i := i) (by decide) 1 0
    (fun j hj => oneBlock_addressable f hj) (t := ⟨.success, oneBlockInode, fresh, oneBlockBdev f⟩)
    rfl rfl (fun _ => rfl) rfl (fun a ha => absurd ha (Nat.not_lt_zero a))
  exact ⟨t, hread, herr, fun a ha => (hdata a ha).trans (oneBlock_byte ha)⟩

/-- A directory of one block. -/
theorem oneBlock_directory {l : List Nat} (hchain : RecordChain (Entry f) (entryEnd f) 0 l 1024)
    (hin : ∀ p ∈ l, p + 8 ≤ 1024) :
    DirectoryBlocks twoTables (oneBlockBdev f).disk oneBlockInode 1 (fun _ => l) where
  log_le := by decide
  isDir := by decide
  sectors := by decide
  entries := by
    intro k hk
    obtain rfl : k = 0 := by omega
    have hsame : ∀ a < 1024, twoTables.fileByte (oneBlockBdev f).disk oneBlockInode a = f a :=
      fun a ha => oneBlock_byte ha
    refine hchain.congr (fun p hp hentry => ?_) fun p hp => ?_
    · rw [Entry, entryNameLen_congr hsame (hin p hp), entryLen_congr hsame (hin p hp)]
      exact hentry
    · rw [entryEnd, entryLen_congr hsame (hin p hp), entryEnd]

theorem oneBlock_readable (f : Bytes) : Readable twoTables (oneBlockBdev f) oneBlockInode 1 :=
  ⟨fun _ hk => oneBlock_addressable f hk, fun _ => rfl⟩

theorem oneBlock_used (f : Bytes) {off : Nat} (hoff : off + 4 ≤ 1024) :
    UsedEntry (twoTables.fileByte (oneBlockBdev f).disk oneBlockInode) off ↔ UsedEntry f off := by
  rw [UsedEntry, UsedEntry, entryInode_congr (fun a ha => oneBlock_byte ha) hoff]

/-- Used entries with the names `a` and `bc`, and an unused one behind them. -/
def threeEntries : Bytes := fun a =>
  match a with
  | 0 => 12#8
  | 5 => 1#8
  | 6 => 1#8
  | 8 => 97#8
  | 256 => 13#8
  | 261 => 1#8
  | 262 => 2#8
  | 264 => 98#8
  | 265 => 99#8
  | 517 => 2#8
  | _ => 0#8

theorem threeEntries_chain :
    RecordChain (Entry threeEntries) (entryEnd threeEntries) 0 [0, 256, 512] 1024 :=
  .cons (by decide : 8 + 1 ≤ 256)
    (.cons (by decide : 8 + 2 ≤ 256) (.cons (by decide : 8 + 0 ≤ 512) (.nil 1024)))

theorem enumerate_children_lists_iff_three :
    EnumeratesEntries twoTables (oneBlockBdev threeEntries) 2#32 oneBlockInode 1
      (fun _ => [0, 256, 512]) := by
  refine (enumerate_children_lists_iff (oneBlock_directory threeEntries_chain (by decide))
    2#32).1 ⟨oneBlock_readable threeEntries, by decide, ?_⟩
  have hfirst : UsedFirst threeEntries [0, 256, 512] := by
    rw [UsedFirst]
    decide
  have hin : ∀ p ∈ [0, 256, 512], p + 4 ≤ 1024 := by decide
  refine List.Pairwise.imp_of_mem (fun ha hb hab => ?_) hfirst
  rw [oneBlock_used threeEntries (hin _ ha), oneBlock_used threeEntries (hin _ hb)]
  exact hab

/-- An unused entry in front of a used one with the name `a`. -/
def deletedFirst : Bytes := fun a =>
  match a with
  | 5 => 2#8
  | 512 => 12#8
  | 517 => 2#8
  | 518 => 1#8
  | 520 => 97#8
  | _ => 0#8

theorem deletedFirst_chain :
    RecordChain (Entry deletedFirst) (entryEnd deletedFirst) 0 [0, 512] 1024 :=
  .cons (by decide : 8 + 0 ≤ 512) (.cons (by decide : 8 + 1 ≤ 512) (.nil 1024))

/-- The used entry behind the unused one is not found. -/
theorem enumerate_misses_entry : ¬ ∀ (sb : Superblock) (bdev : Bdev) (i : BitVec 32) (inode : Inode)
    (blocks : Nat) (parts : Nat → List Nat), Readable sb bdev inode blocks →
    DirectoryBlocks sb bdev.disk inode blocks parts →
      EnumeratesEntries sb bdev i inode blocks parts := by
  intro hall
  have hdir := oneBlock_directory deletedFirst_chain (by decide)
  have hread := oneBlock_readable deletedFirst
  obtain ⟨fuel, r, hr, -, hlists⟩ := hall _ _ 2#32 _ _ _ hread hdir
  obtain ⟨-, hfirst⟩ := hdir.usedFirst_of_lists hread hr hlists
  have hpair := (List.pairwise_cons.mp hfirst).1 512 (List.mem_singleton.mpr rfl)
  rw [oneBlock_used deletedFirst (by decide), oneBlock_used deletedFirst (by decide)] at hpair
  exact absurd (hpair (by decide)) (by decide)

/-- The loop ends at the unused entry behind two used ones. -/
theorem enumerate_children_ends_iff_three : ∃ fuel r,
    enumerateChildren fuel twoTables (oneBlockBdev threeEntries) 2#32 oneBlockInode [] =
      some r := by
  obtain ⟨t, hread, herr, hdata⟩ := oneBlock_read threeEntries 2#32
  refine (enumerate_children_ends_iff (by decide) hread herr []).mpr ⟨by decide, [0, 256], 512, ?_,
    .inr ⟨by decide, ?_⟩⟩
  · have hinside : ∀ p ∈ [0, 256], EntryInside threeEntries 1024 p := by
      intro p hp
      simp only [List.mem_cons, List.not_mem_nil, or_false] at hp
      rcases hp with rfl | rfl <;> exact ⟨by decide, by decide, by decide, by decide⟩
    have hchain : RecordChain (EntryInside threeEntries 1024)
        (fun off => entryEnd threeEntries off % 2 ^ 32) 0 [0, 256] 512 :=
      .cons (hinside 0 (by decide)) (.cons (hinside 256 (by decide)) (.nil 512))
    have hin : ∀ p ∈ [0, 256], p + 8 ≤ 1024 := by decide
    refine hchain.congr (fun p hp hentry => ⟨hentry.lt, ?_, ?_, ?_⟩) fun p hp => ?_
    · rw [UsedEntry, entryInode_congr hdata (by have := hin p hp; omega)]
      exact hentry.used
    · rw [entryReads, entryNameLen_congr hdata (hin p hp)]
      exact hentry.reads
    · rw [entryLen_congr hdata (hin p hp)]
      exact hentry.len_pos
    · rw [entryEnd, entryLen_congr hdata (hin p hp), entryEnd]
  · rw [UsedEntry, entryInode_congr hdata (by decide)]
    decide

/-- A used entry without a length. -/
def noLength : Bytes := fun a => if a = 0 then 12#8 else 0#8

/-- The entry without a length is read for ever. -/
theorem enumerate_never_ends : ¬ ∀ (sb : Superblock) (bdev : Bdev) (i : BitVec 32) (inode : Inode)
    (t : Transferred), inode.mode &&& ext2Dir ≠ 0#16 →
    readBlocks sb i (dirBlocks sb inode).toNat 0#32 ⟨.success, inode, fresh, bdev⟩ = some t →
    t.err = .success → ∃ fuel r, enumerateChildren fuel sb bdev i inode [] = some r := by
  intro hall
  obtain ⟨t, hread, herr, hdata⟩ := oneBlock_read noLength 2#32
  obtain ⟨fuel, r, hr⟩ := hall twoTables (oneBlockBdev noLength) 2#32 oneBlockInode t
    (by decide) hread
    herr
  rw [enumerateChildren_eq (by decide) (by decide) hread herr, walkEntries_stuck] at hr
  · cases hr
  · decide
  · rw [UsedEntry, show (0#32 : BitVec 32).toNat = 0 from rfl,
      entryInode_congr hdata (by decide)]
    decide
  · rw [show (0#32 : BitVec 32).toNat = 0 from rfl, entryLen_congr hdata (by decide)]
    decide

end One

end Muse.Ext2
