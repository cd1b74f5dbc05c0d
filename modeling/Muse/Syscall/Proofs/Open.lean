import Muse.Syscall.Open
import Muse.Syscall.Proofs.Table
import Muse.Vfs.Proofs.Lookup

/-!
# What a failed open changes

`open` takes its reference before it looks for a slot, and does not give it back. And a node that
the lookup registers gets whatever count the memory of the new inode holds. So a failed call
leaves the counts alone if it registers nothing that had another one, and either finds no inode or
has a slot for it.
-/

namespace Muse.Syscall

open Muse.Library Muse.Paging

namespace OpenEnv

variable {env : OpenEnv} {s t : System} {k : Kernel} {path mode : BitVec 32}

/-! ## Registered inodes -/

theorem setInode_self (inode : InodePtr) (x : Inode) : (k.setInode inode x).inodes inode = x :=
  Function.update_self ..

theorem setInode_other {inode other : InodePtr} (h : other ≠ inode) (x : Inode) :
    (k.setInode inode x).inodes other = k.inodes other :=
  Function.update_of_ne h ..

@[simp] theorem register_files (l : List Vfs.InodePtr) : (env.register l k).files = k.files := by
  induction l generalizing k with
  | nil => rfl
  | cons p l ih => exact ih

@[simp] theorem register_freeSlot (l : List Vfs.InodePtr) :
    (env.register l k).freeSlot = k.freeSlot := by
  induction l generalizing k with
  | nil => rfl
  | cons p l ih => exact ih

theorem register_other {l : List Vfs.InodePtr} {inode : InodePtr}
    (h : ∀ p ∈ l, env.addr p ≠ inode) : (env.register l k).inodes inode = k.inodes inode := by
  induction l generalizing k with
  | nil => rfl
  | cons p l ih =>
    rw [register, List.foldl_cons]
    refine (ih fun q hq => h q (List.mem_cons_of_mem p hq)).trans ?_
    exact setInode_other (h p List.mem_cons_self).symm _

theorem register_child {l : List Vfs.InodePtr} {p : Vfs.InodePtr} (hp : p ∈ l)
    (hinj : ∀ q ∈ l, env.addr q = env.addr p → q = p) :
    (env.register l k).inodes (env.addr p) = env.child p := by
  induction l generalizing k with
  | nil => cases hp
  | cons q l ih =>
    rw [register, List.foldl_cons]
    by_cases hmem : p ∈ l
    · exact ih hmem fun q hq => hinj q (List.mem_cons_of_mem _ hq)
    · obtain rfl : p = q := (List.mem_cons.mp hp).resolve_right hmem
      refine (register_other fun q hq heq => ?_).trans ?_
      · rw [hinj q (List.mem_cons_of_mem _ hq) heq] at hq
        exact hmem hq
      · exact setInode_self ..

/-! ## The failing ends -/

theorem fd_ne (i : Fin fopenMax) : -1#32 ≠ BitVec.ofNat 32 i := by
  revert i
  decide

/-- A call fails where it finds no inode, or finds one and no slot. -/
theorem syscallOpen_fails_iff {drivers : Drivers} {inode : InodePtr} {u : Kernel} :
    k.syscallOpen drivers inode mode = some (-1#32, u) ↔
      (inode = 0#32 ∧ u = k) ∨ (inode ≠ 0#32 ∧ k.freeSlot = none ∧
        u = k.setInode inode { k.inodes inode with refs := (k.inodes inode).refs + 1#32 }) := by
  constructor
  · intro h
    rcases Kernel.syscallOpen_cases h with ⟨hnull, -, rfl⟩ | ⟨hinode, hfull, -, rfl⟩ |
      ⟨-, i, -, -, -, hfd, -⟩
    · exact .inl ⟨hnull, rfl⟩
    · exact .inr ⟨hinode, hfull, rfl⟩
    · exact absurd hfd (fd_ne i)
  · rintro (⟨rfl, rfl⟩ | ⟨hinode, hfull, rfl⟩)
    · rfl
    · rw [Kernel.syscallOpen, if_neg hinode]
      dsimp only
      rw [Kernel.freeSlot_setInode, hfull]

/-- What a failed call adds to the count of an inode. -/
def taken (env : OpenEnv) (r : Vfs.Lookup) (inode : InodePtr) : BitVec 32 :=
  if r.found.map env.addr = some inode then 1#32 else 0#32

theorem taken_found {r : Vfs.Lookup} {p : Vfs.InodePtr} (h : r.found = some p) :
    env.taken r (env.addr p) = 1#32 := by
  rw [taken, if_pos]
  rw [h, Option.map_some]

theorem taken_other {r : Vfs.Lookup} {inode : InodePtr}
    (h : ∀ p, r.found = some p → env.addr p ≠ inode) : env.taken r inode = 0#32 := by
  rw [taken, if_neg]
  intro hfound
  obtain ⟨p, hp, heq⟩ := Option.map_eq_some_iff.mp hfound
  exact h p hp heq

/-- The counts behind a lookup and a failed call. -/
theorem counts_iff {r : Vfs.Lookup} (hplaced : env.Placed r.mounts)
    (hinode : ∀ p, r.found = some p → Vfs.IsInode r.mounts p)
    (hinodes : ∀ p ∈ r.registered, Vfs.IsInode r.mounts p) :
    (∀ inode, ((env.register r.registered s.kernel).inodes inode).refs + env.taken r inode =
      (s.kernel.inodes inode).refs) ↔ env.CountsKept s r := by
  have hchild : ∀ p ∈ r.registered,
      (env.register r.registered s.kernel).inodes (env.addr p) = env.child p := fun p hp =>
    register_child hp fun q hq heq => hplaced.distinct q p (hinodes q hq) (hinodes p hp) heq
  have hother : ∀ p ∈ r.registered, r.found ≠ some p → env.taken r (env.addr p) = 0#32 := by
    intro p hp hne
    refine taken_other fun q hq heq => hne ?_
    rw [hq, hplaced.distinct q p (hinode q hq) (hinodes p hp) heq]
  constructor
  · intro h
    refine ⟨fun p hp hne => ?_, fun p hp => ?_⟩
    · have hcount := h (env.addr p)
      rwa [hchild p hp, hother p hp hne, BitVec.add_zero] at hcount
    · have hcount := h (env.addr p)
      rw [taken_found hp] at hcount
      by_cases hmem : p ∈ r.registered
      · rw [hchild p hmem] at hcount
        exact ⟨hmem, hcount⟩
      · -- its count is only incremented
        rw [register_other fun q hq heq => hmem ?_] at hcount
        · exact absurd hcount (by simp)
        · rwa [← hplaced.distinct q p (hinodes q hq) (hinode p hp) heq]
  · intro h inode
    by_cases hmem : ∃ p ∈ r.registered, env.addr p = inode
    · obtain ⟨p, hp, rfl⟩ := hmem
      rw [hchild p hp]
      by_cases hfound : r.found = some p
      · rw [taken_found hfound]
        exact (h.found p hfound).2
      · rw [hother p hp hfound, BitVec.add_zero]
        exact h.registered p hp hfound
    · rw [register_other fun p hp heq => hmem ⟨p, hp, heq⟩, taken_other, BitVec.add_zero]
      intro p hp heq
      exact hmem ⟨p, (h.found p hp).1, heq⟩

/-- A call fails where it finds no inode or no slot. -/
theorem openPath_fails (mode : BitVec 32) {r : Vfs.Lookup}
    (hlookup : Vfs.lookup s.mounts (env.pointer path) = some r)
    (hplaced : env.Placed r.mounts) (hfails : r.found = none ∨ s.kernel.freeSlot = none) :
    ∃ t, env.openPath s path mode = some (-1#32, t) := by
  have hcall : ∀ u, (env.register r.registered s.kernel).syscallOpen env.drivers
      (r.found.elim 0#32 env.addr) mode = some (-1#32, u) →
        env.openPath s path mode = some (-1#32, ⟨r.mounts, u⟩) := by
    intro u hu
    simp only [openPath, hlookup, Option.bind_eq_bind, Option.bind_some, hu]
  cases hfound : r.found with
  | none =>
    rw [hfound] at hcall
    exact ⟨_, hcall _ (syscallOpen_fails_iff.mpr (.inl ⟨rfl, rfl⟩))⟩
  | some p =>
    rw [hfound] at hcall hfails
    have hnonzero := hplaced.nonzero p ((Vfs.lookup_inodes hlookup).1 p hfound)
    have hfull := hfails.resolve_left (Option.some_ne_none p)
    refine ⟨_, hcall _ (syscallOpen_fails_iff.mpr (.inr ⟨hnonzero, ?_, rfl⟩))⟩
    rwa [register_freeSlot]

/-- What it leaves then. -/
theorem openPath_failed {r : Vfs.Lookup} (hlookup : Vfs.lookup s.mounts (env.pointer path) = some r)
    (hplaced : env.Placed r.mounts) (h : env.openPath s path mode = some (-1#32, t)) :
    (r.found = none ∨ s.kernel.freeSlot = none) ∧ t.kernel.files = s.kernel.files ∧
      ∀ inode, (t.kernel.inodes inode).refs =
        ((env.register r.registered s.kernel).inodes inode).refs + env.taken r inode := by
  simp only [openPath, hlookup, Option.bind_eq_bind, Option.bind_some] at h
  obtain ⟨⟨fd, u⟩, hu, h⟩ := Option.bind_eq_some_iff.mp h
  cases h
  cases hfound : r.found with
  | none =>
    rw [hfound] at hu
    refine ⟨.inl rfl, ?_⟩
    rcases syscallOpen_fails_iff.mp hu with ⟨-, rfl⟩ | ⟨hnonzero, -⟩
    · refine ⟨register_files _, fun inode => ?_⟩
      rw [taken_other, BitVec.add_zero]
      intro p hp
      rw [hfound] at hp
      cases hp
    · exact absurd rfl hnonzero
  | some p =>
    rw [hfound] at hu
    have hnonzero := hplaced.nonzero p ((Vfs.lookup_inodes hlookup).1 p hfound)
    obtain ⟨-, hfull, rfl⟩ := (syscallOpen_fails_iff.mp hu).resolve_left fun hnull =>
      hnonzero hnull.1
    rw [register_freeSlot] at hfull
    refine ⟨.inr hfull, register_files _, fun inode => ?_⟩
    by_cases hat : env.addr p = inode
    · subst hat
      rw [taken_found hfound]
      exact congrArg Inode.refs (setInode_self _ _)
    · rw [taken_other, BitVec.add_zero]
      · exact congrArg Inode.refs (setInode_other (Ne.symm hat) _)
      · intro q hq
        obtain rfl : p = q := Option.some.inj (hfound.symm.trans hq)
        exact hat

/-- A path that was accepted. -/
theorem openPath_unchanged_iff (mode : BitVec 32) {r : Vfs.Lookup}
    (hlookup : Vfs.lookup s.mounts (env.pointer path) = some r) (hplaced : env.Placed r.mounts) :
    (∀ t, env.openPath s path mode = some (-1#32, t) → Unchanged s t) ↔
      (r.found = none ∨ s.kernel.freeSlot = none → env.CountsKept s r) := by
  obtain ⟨hinode, hinodes⟩ := Vfs.lookup_inodes hlookup
  constructor
  · intro h hfails
    obtain ⟨t, ht⟩ := openPath_fails mode hlookup hplaced hfails
    obtain ⟨-, -, hrefs⟩ := openPath_failed hlookup hplaced ht
    apply (counts_iff hplaced hinode hinodes).mp
    intro inode
    rw [← hrefs]
    exact (h t ht).refs inode
  · intro h t ht
    obtain ⟨hfails, hfiles, hrefs⟩ := openPath_failed hlookup hplaced ht
    refine ⟨hfiles, fun inode => ?_⟩
    rw [hrefs]
    exact (counts_iff hplaced hinode hinodes).mpr (h hfails) inode

/-! ## The call -/

theorem cleanStringLoop_pointer {checkUser : BitVec 32 → Option Bool} {mem : BitVec 32 → BitVec 8}
    {arg str page : BitVec 32} {reads reads' : List (BitVec 32)} {fuel : Nat}
    (h : cleanStringLoop checkUser mem arg fuel str page reads = some (path, reads')) :
    path = arg ∨ path = 0#32 := by
  induction fuel generalizing str page reads with
  | zero => cases h
  | succ fuel ih =>
    rw [cleanStringLoop] at h
    obtain ⟨⟨found, str', reads1⟩, -, h⟩ := Option.bind_eq_some_iff.mp h
    dsimp only at h
    split at h
    · cases h
      exact .inl rfl
    · obtain ⟨ok, -, h⟩ := Option.bind_eq_some_iff.mp h
      split at h
      · exact ih h
      · cases h
        exact .inr rfl

/-- A path that is accepted is where the argument points to. -/
theorem cleanString_pointer {checkUser : BitVec 32 → Option Bool} {mem : BitVec 32 → BitVec 8}
    {arg : BitVec 32} {reads : List (BitVec 32)}
    (h : cleanString checkUser mem arg = some (path, reads)) (hpath : path ≠ 0#32) :
    path = arg := by
  rw [cleanString] at h
  obtain ⟨ok, -, h⟩ := Option.bind_eq_some_iff.mp h
  split at h
  · exact (cleanStringLoop_pointer h).resolve_right hpath
  · cases h
    exact absurd rfl hpath

/-- The calls that have changed nothing if they fail. -/
theorem fails_unchanged_iff (env : OpenEnv) (s : System) (arg mode : BitVec 32)
    (hplaced : ∀ r, Vfs.lookup s.mounts (env.pointer arg) = some r → env.Placed r.mounts) :
    env.FailsUnchanged s arg mode ↔ env.KeepsCounts s arg := by
  constructor
  · intro h path reads r hclean hpath hlookup
    have hplaced' : env.Placed r.mounts := by
      apply hplaced r
      rwa [← cleanString_pointer hclean hpath]
    apply (openPath_unchanged_iff mode hlookup hplaced').mp
    intro t ht
    apply h t
    simp only [syscallOpen, hclean, Option.bind_eq_bind, Option.bind_some, if_neg hpath, ht]
  · intro h t ht
    obtain ⟨⟨path, reads⟩, hclean, ht⟩ := Option.bind_eq_some_iff.mp ht
    dsimp only at ht
    by_cases hpath : path = 0#32
    · -- the path is refused
      rw [if_pos hpath] at ht
      cases ht
      exact ⟨rfl, fun _ => rfl⟩
    · rw [if_neg hpath] at ht
      obtain ⟨r, hlookup, -⟩ := Option.bind_eq_some_iff.mp ht
      have hplaced' : env.Placed r.mounts := by
        apply hplaced r
        rwa [← cleanString_pointer hclean hpath]
      exact (openPath_unchanged_iff mode hlookup hplaced').mpr
        (h path reads r hclean hpath hlookup) t ht

/-- A file system mounted at `""` with one file, `"a"`, which is present. -/
def oneFile : Vfs.MountPoint := ⟨⟨[], List.not_mem_nil⟩, [⟨[97#8], 11#32, true, []⟩], fun _ => []⟩

/-- `"/a"` at the address 0x1000. -/
def pathAt : OpenEnv where
  checkUser _ := some true
  memory a := if a = 0x1000#32 then 47#8 else if a = 0x1001#32 then 97#8 else 0#8
  drivers := ⟨fun _ _ _ _ _ => none, fun _ => none⟩
  addr p := BitVec.ofNat 32 (0x2000 + p.children.length)
  child _ := ⟨true, 0#32, 0#32, 0#32⟩

/-- All slots of the context are taken, and the file has one reference. -/
def fullTable : System :=
  ⟨[oneFile], ⟨0x3000#32, fun _ _ => ⟨0x2001#32, 0#32, 1#8⟩, fun _ => ⟨true, 1#32, 0#32, 0#32⟩, []⟩⟩

/-- The inodes of that file system. -/
theorem inode_oneFile {p : Vfs.InodePtr} (h : Vfs.IsInode [oneFile] p) :
    p = ⟨0, []⟩ ∨ p = ⟨0, [0]⟩ := by
  obtain ⟨n, steps⟩ := p
  obtain ⟨m, hm, hnode⟩ := h
  obtain ⟨hn, hm⟩ := List.getElem?_eq_some_iff.mp hm
  obtain rfl : n = 0 := Nat.lt_one_iff.mp hn
  obtain rfl : oneFile = m := hm
  cases steps with
  | nil => exact .inl rfl
  | cons k steps =>
    obtain ⟨tnode, htnode, hbelow⟩ := hnode
    obtain ⟨hk, htnode⟩ := List.getElem?_eq_some_iff.mp htnode
    obtain rfl : k = 0 := Nat.lt_one_iff.mp hk
    obtain rfl : ⟨[97#8], 11#32, true, []⟩ = tnode := htnode
    cases steps with
    | nil => exact .inr rfl
    | cons j steps =>
      obtain ⟨other, hother, -⟩ := hbelow
      cases hother

theorem placed_oneFile : pathAt.Placed [oneFile] := by
  constructor
  · intro p q hp hq heq
    rcases inode_oneFile hp with rfl | rfl <;> rcases inode_oneFile hq with rfl | rfl
    · rfl
    · exact absurd heq (by decide)
    · exact absurd heq (by decide)
    · rfl
  · intro p hp
    rcases inode_oneFile hp with rfl | rfl
    · decide
    · decide

/-- A call with the path `"a"`, which is the name of no file, fails and changes nothing. -/
theorem fails_unchanged_iff_missing :
    (pathAt.syscallOpen fullTable 0x1001#32 1#32).map Prod.fst = some (-1#32) ∧
      pathAt.FailsUnchanged fullTable 0x1001#32 1#32 := by
  have hlookup : Vfs.lookup [oneFile] (pathAt.pointer 0x1001#32) = some ⟨none, [oneFile], []⟩ := rfl
  refine ⟨by decide +kernel, (fails_unchanged_iff pathAt fullTable 0x1001#32 1#32 ?_).mpr ?_⟩
  · intro r hr
    obtain rfl : _ = r := Option.some.inj (hlookup.symm.trans hr)
    exact placed_oneFile
  · intro path reads r hclean hpath hr _
    rw [cleanString_pointer hclean hpath] at hr
    obtain rfl : _ = r := Option.some.inj (hlookup.symm.trans hr)
    exact ⟨fun p hp => (List.not_mem_nil hp).elim, fun p hp => nomatch hp⟩

/-- It returns -1 with a reference more. -/
theorem full_table_takes_reference : ¬ pathAt.FailsUnchanged fullTable 0x1000#32 1#32 := by
  intro h
  have hrun : (pathAt.syscallOpen fullTable 0x1000#32 1#32).map (fun r =>
      (r.1, (r.2.kernel.inodes 0x2001#32).refs)) = some (-1#32, 2#32) := by
    decide +kernel
  obtain ⟨⟨fd, t⟩, ht, heq⟩ := Option.map_eq_some_iff.mp hrun
  obtain ⟨rfl, hrefs⟩ := Prod.mk.inj heq
  have hsame := (h t ht).refs 0x2001#32
  rw [hrefs] at hsame
  exact absurd hsame (by decide)

end OpenEnv

end Muse.Syscall
