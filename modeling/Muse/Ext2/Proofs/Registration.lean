import Muse.Ext2.Registration
import Muse.Vfs.Proofs.History

/-!
# Which lists of children are exact

The nodes that are created form a segment that ends where `first_child` pointed before. So the list
is finite and exact if and only if that was null.
-/

namespace Muse.Ext2.Linked

open Muse.Library
open Muse.Vfs (Tnode)

variable {sb : Superblock} {bdev : Bdev} {i : BitVec 32} {inode : Inode}

/-- From `first_child` on, the created nodes lead to `g`. -/
structure Children.LeadsTo (c : Children) (g : BitVec 32) : Prop where
  segment : Segment c.mem.next c.firstChild c.created g
  nonnull : 0#32 ∉ c.created

theorem Children.LeadsTo.exact_iff {c : Children} {g : BitVec 32} (h : c.LeadsTo g) :
    c.Exact ↔ g = 0#32 :=
  h.segment.exactly_iff h.nonnull

theorem Children.leadsTo_start (g : BitVec 32) (mem : Nodes) :
    (⟨g, mem, []⟩ : Children).LeadsTo g :=
  ⟨rfl, fun h => by cases h⟩

/-- One node more. -/
theorem Children.LeadsTo.push {c : Children} {g p : BitVec 32} (h : c.LeadsTo g) (hne : p ≠ 0#32)
    (hnew : p ∉ c.created) (tnode : Tnode) :
    (⟨p, c.mem.push p tnode c.firstChild, p :: c.created⟩ : Children).LeadsTo g := by
  refine ⟨h.segment.cons_update hnew, fun hmem => ?_⟩
  rcases List.mem_cons.mp hmem with he | hmem
  · exact hne he.symm
  · exact h.nonnull hmem

theorem walkEntries_leadsTo {buf : Bytes} {size g : BitVec 32} {fuel : Nat} {off : BitVec 32}
    {free : List (BitVec 32)} {c c' : Children} (h : c.LeadsTo g)
    (hfree : (free ++ c.created).Nodup) (hnull : 0#32 ∉ free)
    (hrun : walkEntries buf size fuel off free c = some c') : c'.LeadsTo g := by
  induction fuel generalizing off free c with
  | zero => cases hrun
  | succ fuel ih =>
      unfold walkEntries at hrun
      split at hrun
      · split at hrun
        · cases hrun
        split at hrun
        · cases hrun
          exact h
        split at hrun
        · cases hrun
        cases free with
        | nil => cases hrun
        | cons p free =>
            obtain ⟨hp, hrest⟩ := List.nodup_cons.mp hfree
            have hnew : p ∉ c.created := fun hmem => hp (List.mem_append_right _ hmem)
            refine ih (h.push (fun he => hnull (he ▸ List.mem_cons_self)) hnew _) ?_
              (fun hmem => hnull (List.mem_cons_of_mem _ hmem)) hrun
            exact (List.perm_middle.nodup_iff).mpr hfree
      · cases hrun
        exact h

theorem Nodes.push_map (mem : Nodes) {p next : BitVec 32} {tnode : Tnode} {l : List (BitVec 32)}
    (hp : p ∉ l) : (p :: l).map (mem.push p tnode next).tnode = tnode :: l.map mem.tnode := by
  rw [List.map_cons, Nodes.push]
  dsimp only
  rw [Function.update_self]
  refine congrArg _ (List.map_congr_left fun q hq => Function.update_of_ne ?_ _ _)
  rintro rfl
  exact hp hq

/-- The created nodes are those of the model without memory. -/
theorem walkEntries_nodes {buf : Bytes} {size : BitVec 32} {fuel : Nat} {off : BitVec 32}
    {free : List (BitVec 32)} {c c' : Children} (hfree : (free ++ c.created).Nodup)
    (hrun : walkEntries buf size fuel off free c = some c') :
    Ext2.walkEntries buf size fuel off (c.created.map c.mem.tnode) =
      some (c'.created.map c'.mem.tnode) := by
  induction fuel generalizing off free c with
  | zero => cases hrun
  | succ fuel ih =>
      unfold walkEntries at hrun
      rw [Ext2.walkEntries]
      by_cases hmore : off < size - 1#32
      · rw [if_pos hmore] at hrun ⊢
        by_cases hshort : size.toNat < off.toNat + 4
        · rw [if_pos hshort] at hrun
          cases hrun
        rw [if_neg hshort] at hrun ⊢
        by_cases hunused : entryInode buf off.toNat = 0#32
        · rw [if_pos hunused] at hrun ⊢
          cases hrun
          rfl
        rw [if_neg hunused] at hrun ⊢
        by_cases hname : size.toNat < off.toNat + entryReads buf off.toNat
        · rw [if_pos hname] at hrun
          cases hrun
        rw [if_neg hname] at hrun ⊢
        cases free with
        | nil => cases hrun
        | cons p free =>
            have hp := (List.nodup_cons.mp hfree).1
            have hrest := ih ((List.perm_middle.nodup_iff).mpr hfree) hrun
            have hnew : p ∉ c.created := fun hmem => hp (List.mem_append_right _ hmem)
            rw [← hrest, c.mem.push_map hnew]
      · rw [if_neg hmore] at hrun ⊢
        cases hrun
        rfl

/-! ## Directories -/

section Directory

variable {fuel : Nat} {free : List (BitVec 32)} {g : BitVec 32} {mem : Nodes}

theorem enumerateChildren_leadsTo (hdir : inode.mode &&& ext2Dir ≠ 0#16) (hfree : free.Nodup)
    (hnull : 0#32 ∉ free) {r : DriveRes × Children × Bdev}
    (hrun : enumerateChildren fuel sb bdev i inode free g mem = some r) : r.2.1.LeadsTo g := by
  unfold enumerateChildren at hrun
  rw [if_neg hdir] at hrun
  split at hrun
  · cases hrun
  obtain ⟨t, -, hrun⟩ := Option.bind_eq_some_iff.mp hrun
  split at hrun
  · cases hrun
    exact Children.leadsTo_start g mem
  · obtain ⟨c, hwalk, hrun⟩ := Option.bind_eq_some_iff.mp hrun
    cases hrun
    exact walkEntries_leadsTo (Children.leadsTo_start g mem) (by rwa [List.append_nil]) hnull hwalk

/-- The nodes that are created for a directory are the children of the model without memory. -/
theorem enumerateChildren_nodes (hdir : inode.mode &&& ext2Dir ≠ 0#16) (hfree : free.Nodup)
    {r : DriveRes × Children × Bdev}
    (hrun : enumerateChildren fuel sb bdev i inode free g mem = some r) :
    Ext2.enumerateChildren fuel sb bdev i inode [] =
      some ⟨r.1, r.2.1.created.map r.2.1.mem.tnode, r.2.2⟩ := by
  unfold enumerateChildren at hrun
  unfold Ext2.enumerateChildren
  rw [if_neg hdir] at hrun ⊢
  by_cases hzero : sb.blockSize = 0#32
  · rw [if_pos hzero] at hrun
    cases hrun
  rw [if_neg hzero] at hrun ⊢
  obtain ⟨t, ht, hrun⟩ := Option.bind_eq_some_iff.mp hrun
  rw [ht]
  simp only [Option.bind_eq_bind, Option.bind_some]
  by_cases herr : t.err ≠ .success
  · rw [if_pos herr] at hrun ⊢
    cases hrun
    rfl
  · rw [if_neg herr] at hrun ⊢
    obtain ⟨c, hwalk, hrun⟩ := Option.bind_eq_some_iff.mp hrun
    cases hrun
    have hlist := walkEntries_nodes (by rwa [List.append_nil]) hwalk
    rw [List.map_nil] at hlist
    rw [hlist, Option.bind_some]

theorem registered_leadsTo (hfree : free.Nodup) (hnull : 0#32 ∉ free) {r : Registered}
    (hrun : ext2RegisterInode fuel sb bdev i inode free g mem = some r)
    (hdir : r.inode.mode &&& ext2Dir ≠ 0#16) : r.children.LeadsTo g := by
  unfold ext2RegisterInode at hrun
  obtain ⟨⟨err, inode', b⟩, -, hrun⟩ := Option.bind_eq_some_iff.mp hrun
  obtain ⟨⟨err', c, b'⟩, hchildren, hrun⟩ := Option.bind_eq_some_iff.mp hrun
  cases hrun
  exact enumerateChildren_leadsTo hdir hfree hnull hchildren

/-- The nodes that `first_child` pointed to before stand behind the children. -/
theorem registered_left (hfree : free.Nodup) (hnull : 0#32 ∉ free) {r : Registered}
    (hrun : ext2RegisterInode fuel sb bdev i inode free g mem = some r)
    (hdir : r.inode.mode &&& ext2Dir ≠ 0#16) {left : List (BitVec 32)}
    (hleft : Chain r.children.mem.next 0#32 g left) :
    Chain r.children.mem.next 0#32 r.children.firstChild (r.children.created ++ left) := by
  have hlead := registered_leadsTo hfree hnull hrun hdir
  exact hlead.segment.append_chain hlead.nonnull hleft

/-- The list of a directory that was registered is exact if and only if `first_child` was null. -/
theorem registered_exact_iff (hfree : free.Nodup) (hnull : 0#32 ∉ free) {r : Registered}
    (hrun : ext2RegisterInode fuel sb bdev i inode free g mem = some r)
    (hdir : r.inode.mode &&& ext2Dir ≠ 0#16) : r.children.Exact ↔ g = 0#32 := by
  exact (registered_leadsTo hfree hnull hrun hdir).exact_iff

end Directory

/-! ## Lazy registration -/

open Muse.Vfs (fileStep FileOp opened Unopened)

/-- **Lazy registration.** A directory has exactly its children if and only if the `first_child` of
    the local `child` was null before. In every run of calls where it is null whenever an inode is
    registered, a path has the inode that it has in the beginning, or none as then. -/
theorem lazy_registration (fuel : Nat) (sb : Superblock) (bdev : Bdev) (i : BitVec 32)
    (inode : Inode) (free : List (BitVec 32)) (g : BitVec 32) (mem : Nodes)
    (start mounts : List Vfs.MountPoint) :
    (∀ r, free.Nodup → 0#32 ∉ free →
      ext2RegisterInode fuel sb bdev i inode free g mem = some r →
      r.inode.mode &&& ext2Dir ≠ 0#16 → (r.children.Exact ↔ g = 0#32)) ∧
    ((∀ m ∈ start, Unopened m) → Reaches fileStep (fun _ op => FileOp.Exact op) start mounts →
      ∀ path, opened mounts path = opened start path) :=
  ⟨fun _ hfree hnull hrun hdir => registered_exact_iff hfree hnull hrun hdir,
    fun hun hreach path => Vfs.reaches_opened hun hreach path⟩

/-- A file system whose root has one entry, `"a"`. -/
def rootOnly : Superblock := ⟨64#32, 1#32, 0#32, 64#32, 16#32, 0#32, 128#16⟩

def rootOnlyBdev : Bdev where
  disk := fun a =>
    match a with
    | 2056 => 5#8
    | 5249 => 0x40#8
    | 5276 => 2#8
    | 5288 => 9#8
    | 9216 => 11#8
    | 9221 => 4#8
    | 9222 => 1#8
    | 9224 => 97#8
    | _ => 0#8
  result := fun _ => .success
  transfers := 0
  written := []

/-- No node is in memory yet. -/
def noNodes : Nodes := ⟨fun _ => ⟨[], 0#32, false, []⟩, fun _ => 0#32⟩

/-- `"/ext2/a"`. -/
def pathA : Vfs.CString := ⟨[47#8, 101#8, 120#8, 116#8, 50#8, 47#8, 97#8], by decide⟩

/-- The root is registered, and in another run `"/ext2/a"` is opened and closed. -/
theorem lazy_registration_root :
    (∃ r, ext2RegisterInode 2 rootOnly rootOnlyBdev 2#32 fresh [64#32] 0#32 noNodes = some r ∧
      r.children.created = [64#32] ∧ r.children.Exact) ∧
    ∃ mounts, Reaches fileStep (fun _ op => FileOp.Exact op) [Vfs.ext2] mounts ∧
      opened mounts pathA = opened [Vfs.ext2] pathA := by
  obtain ⟨mounts, hopen⟩ : ∃ m, fileStep [Vfs.ext2] (.open pathA fun _ => []) = some m := ⟨_, rfl⟩
  obtain ⟨mounts', hclose⟩ : ∃ m, fileStep mounts (.close ⟨0, [0]⟩) = some m := ⟨_, rfl⟩
  have hfirst : Reaches fileStep (fun _ op => FileOp.Exact op) [Vfs.ext2] mounts :=
    .tail .refl (show FileOp.Exact (.open pathA fun _ => []) from fun _ => rfl) hopen
  have hreach : Reaches fileStep (fun _ op => FileOp.Exact op) [Vfs.ext2] mounts' :=
    .tail hfirst (show FileOp.Exact (.close ⟨0, [0]⟩) from trivial) hclose
  have h := lazy_registration 2 rootOnly rootOnlyBdev 2#32 fresh [64#32] 0#32 noNodes [Vfs.ext2]
    mounts'
  constructor
  · exact ⟨_, rfl, rfl, (h.1 _ (by decide) (by decide) rfl (by decide)).mpr rfl⟩
  · refine ⟨mounts', hreach, h.2 ?_ hreach pathA⟩
    intro m hm
    obtain rfl := List.mem_singleton.mp hm
    exact ⟨by decide, fun i t ht => by cases ht⟩

/-- Where `first_child` points to another node, that node is on the list too, or whatever is at this
    address. -/
theorem stale_child_listed : ∃ r,
    ext2RegisterInode 2 rootOnly rootOnlyBdev 2#32 fresh [64#32] 128#32 noNodes = some r ∧
      r.inode.mode &&& ext2Dir ≠ 0#16 ∧ ¬ r.children.Exact := by
  have hfree : [64#32].Nodup ∧ 0#32 ∉ [64#32] := by decide
  obtain ⟨r, hrun, hdir⟩ : ∃ r,
      ext2RegisterInode 2 rootOnly rootOnlyBdev 2#32 fresh [64#32] 128#32 noNodes = some r ∧
        r.inode.mode &&& ext2Dir ≠ 0#16 := ⟨_, rfl, by decide⟩
  refine ⟨r, hrun, hdir, ?_⟩
  rw [registered_exact_iff hfree.1 hfree.2 hrun hdir]
  decide

end Muse.Ext2.Linked
