import Muse.Library.Transition
import Muse.Vfs.Proofs.Open

/-!
# Registering inodes changes no tree

`vfs_open` registers the inodes that it enters. What a path stands for is the same before and after,
so that `resolved_iff` describes every call of a run.
-/

namespace Muse.Vfs

open Muse.Library

/-- The names in the directory at `steps`. -/
def listing (registerInode : BitVec 32 → List Tnode) (children : List Tnode) (steps : List Nat) :
    Option (List (List (BitVec 8))) :=
  (directory registerInode children steps).map (List.map Tnode.name)

/-- The same names in every directory. -/
def SameTree (registerInode : BitVec 32 → List Tnode) (children after : List Tnode) : Prop :=
  ∀ steps, listing registerInode after steps = listing registerInode children steps

variable {registerInode : BitVec 32 → List Tnode} {children after : List Tnode}

theorem listing_cons (children : List Tnode) (k : Nat) (steps : List Nat) :
    listing registerInode children (k :: steps) = children[k]?.bind fun tnode =>
      listing registerInode (tnode.register registerInode).firstChild steps := by
  rw [listing, directory, Option.map_bind]
  rfl

theorem SameTree.refl (children : List Tnode) : SameTree registerInode children children :=
  fun _ => rfl

theorem SameTree.symm (h : SameTree registerInode children after) :
    SameTree registerInode after children :=
  fun steps => (h steps).symm

theorem SameTree.names (h : SameTree registerInode children after) :
    after.map Tnode.name = children.map Tnode.name :=
  Option.some.inj (h [])

theorem SameTree.below (h : SameTree registerInode children after) {k : Nat} {tnode : Tnode}
    (hk : children[k]? = some tnode) :
    ∃ other, after[k]? = some other ∧ other.name = tnode.name ∧
      SameTree registerInode (tnode.register registerInode).firstChild
        (other.register registerInode).firstChild := by
  have hname : (after.map Tnode.name)[k]? = some tnode.name := by
    rw [h.names, List.getElem?_map, hk]
    rfl
  rw [List.getElem?_map] at hname
  obtain ⟨other, hother, hsame⟩ := Option.map_eq_some_iff.mp hname
  refine ⟨other, hother, hsame, fun steps => ?_⟩
  have hsteps := h (k :: steps)
  rw [listing_cons, listing_cons, hother, hk] at hsteps
  exact hsteps

theorem SameTree.leads (h : SameTree registerInode children after)
    {names : List (List (BitVec 8))} {steps : List Nat}
    (hleads : Leads registerInode children names steps) :
    Leads registerInode after names steps := by
  induction names generalizing children after steps with
  | nil =>
      cases steps with
      | nil => trivial
      | cons k steps => exact hleads.elim
  | cons name names ih =>
      cases steps with
      | nil => exact hleads.elim
      | cons k steps =>
          obtain ⟨tnode, hk, rfl, hbelow⟩ := hleads
          obtain ⟨other, hother, hname, hsame⟩ := h.below hk
          exact ⟨other, hother, hname, ih hsame hbelow⟩

/-- A directory is well named because of its list of names. -/
theorem WellNamed.of_names {children after : List Tnode} (h : WellNamed children)
    (hnames : after.map Tnode.name = children.map Tnode.name) : WellNamed after := by
  have hmem : ∀ tnode ∈ after, ∃ other ∈ children, other.name = tnode.name := by
    intro tnode htnode
    refine List.mem_map.mp ?_
    rw [← hnames]
    exact List.mem_map_of_mem htnode
  refine ⟨?_, ?_, ?_, hnames ▸ h.unique⟩ <;> intro tnode htnode <;>
    obtain ⟨other, hother, hname⟩ := hmem tnode htnode <;> rw [← hname]
  · exact h.nonempty other hother
  · exact h.noSeparator other hother
  · exact h.noNull other hother

theorem SameTree.wellFormed (h : SameTree registerInode children after)
    (hwell : WellFormed registerInode children) : WellFormed registerInode after := by
  intro steps dir hdir
  have hsteps := h steps
  rw [listing, listing, hdir, Option.map_some] at hsteps
  obtain ⟨before, hbefore, hnames⟩ := Option.map_eq_some_iff.mp hsteps.symm
  exact (hwell steps before hbefore).of_names hnames.symm

/-- A child may be exchanged for one with the same name and the same tree. -/
theorem SameTree.set {k : Nat} {tnode other : Tnode} (hk : children[k]? = some tnode)
    (hname : other.name = tnode.name)
    (h : SameTree registerInode (tnode.register registerInode).firstChild
      (other.register registerInode).firstChild) :
    SameTree registerInode children (children.set k other) := by
  have hlt : k < children.length := (List.getElem?_eq_some_iff.mp hk).1
  intro steps
  cases steps with
  | nil =>
      refine congrArg some ?_
      refine List.ext_getElem? fun l => ?_
      rw [List.getElem?_map, List.getElem?_map, List.getElem?_set]
      by_cases hl : k = l
      · subst hl
        rw [if_pos rfl, if_pos hlt, hk, Option.map_some, Option.map_some, hname]
      · rw [if_neg hl]
  | cons l steps =>
      rw [listing_cons, listing_cons, List.getElem?_set]
      by_cases hl : k = l
      · subst hl
        rw [if_pos rfl, if_pos hlt, hk]
        exact h steps
      · rw [if_neg hl]

theorem register_present (tnode : Tnode) : (tnode.register registerInode).present = true := by
  unfold Tnode.register
  split
  · assumption
  · rfl

theorem register_name (tnode : Tnode) : (tnode.register registerInode).name = tnode.name := by
  unfold Tnode.register
  split <;> rfl

/-- An inode that is present is not registered again. -/
theorem register_of_present {tnode : Tnode} (h : tnode.present = true) :
    tnode.register registerInode = tnode :=
  if_pos h

theorem findChild_some {start : List (BitVec 8)} {len n k : Nat} {tnode : Tnode}
    (h : findChild start len children n = some (some (k, tnode))) :
    n ≤ k ∧ children[k - n]? = some tnode := by
  induction children generalizing n with
  | nil => cases h
  | cons child children ih =>
      rw [findChild] at h
      obtain ⟨same, -, h⟩ := Option.bind_eq_some_iff.mp h
      split at h
      · cases h
        exact ⟨Nat.le_refl _, by rw [Nat.sub_self]; rfl⟩
      · obtain ⟨hle, hk⟩ := ih h
        refine ⟨Nat.le_of_succ_le hle, ?_⟩
        rw [show k - n = k - (n + 1) + 1 by omega]
        exact hk

/-- The loop over the names registers inodes, and leaves the tree as it is. -/
theorem walk_sameTree {start rest : List (BitVec 8)} {len : Nat} {inode : Option (List Nat)}
    (h : walk registerInode children start len rest = some (inode, after)) :
    SameTree registerInode children after := by
  induction rest generalizing children start len inode after with
  | nil => cases h
  | cons c rest ih =>
      rw [walk] at h
      by_cases hname : c ≠ 0#8 ∧ c ≠ separator
      · rw [if_pos hname] at h
        exact ih h
      rw [if_neg hname] at h
      obtain ⟨found, hfound, h⟩ := Option.bind_eq_some_iff.mp h
      cases found with
      | none =>
          cases h
          exact .refl children
      | some found =>
          obtain ⟨k, tnode⟩ := found
          have hk : children[k]? = some tnode := (findChild_some hfound).2
          have hpresent : (tnode.register registerInode).present = true := register_present tnode
          have hsame : (tnode.register registerInode).name = tnode.name := register_name tnode
          by_cases hnull : c = 0#8
          · -- the last name
            simp only [if_pos hnull] at h
            cases h
            refine .set hk hsame ?_
            rw [register_of_present hpresent]
            exact .refl _
          · simp only [if_neg hnull] at h
            obtain ⟨⟨inode', below⟩, hbelow, h⟩ := Option.bind_eq_some_iff.mp h
            cases h
            have hentered : Tnode.register registerInode
                { tnode.register registerInode with firstChild := below } =
                { tnode.register registerInode with firstChild := below } :=
              register_of_present hpresent
            refine .set hk hsame ?_
            rw [hentered]
            exact ih hbelow

/-- The same mount point, up to inodes that were registered. -/
structure SameMount (m o : MountPoint) : Prop where
  path : o.path = m.path
  registerInode : o.registerInode = m.registerInode
  tree : SameTree m.registerInode m.firstChild o.firstChild

/-- The same mount points in the same order. -/
structure SameMounts (mounts mounts' : List MountPoint) : Prop where
  length : mounts'.length = mounts.length
  mounted : ∀ (n : Nat) (m : MountPoint), mounts[n]? = some m →
    ∃ o, mounts'[n]? = some o ∧ SameMount m o

variable {mounts mounts' : List MountPoint}

theorem SameMount.refl (m : MountPoint) : SameMount m m := ⟨rfl, rfl, .refl _⟩

theorem SameMount.symm {m o : MountPoint} (h : SameMount m o) : SameMount o m :=
  ⟨h.path.symm, h.registerInode.symm, h.registerInode ▸ h.tree.symm⟩

theorem SameMount.names {m o : MountPoint} (h : SameMount m o) {c : BitVec 8} {path : CString}
    {steps : List Nat} (hnames : Names m c path steps) : Names o c path steps := by
  obtain ⟨names, hne, hpath, hleads⟩ := hnames
  refine ⟨names, hne, ?_, ?_⟩
  · rw [h.path, hpath]
  · rw [h.registerInode]
    exact h.tree.leads hleads

theorem SameMounts.symm (h : SameMounts mounts mounts') : SameMounts mounts' mounts := by
  refine ⟨h.length.symm, fun n o ho => ?_⟩
  have hlt : n < mounts.length := h.length ▸ (List.getElem?_eq_some_iff.mp ho).1
  obtain ⟨u, hu, hsame⟩ := h.mounted n mounts[n] (List.getElem?_eq_getElem hlt)
  obtain rfl : o = u := Option.some.inj (ho.symm.trans hu)
  exact ⟨mounts[n], List.getElem?_eq_getElem hlt, hsame.symm⟩

/-- The longest mount point is decided by the paths alone. -/
theorem SameMounts.longest (h : SameMounts mounts mounts') {path : CString} {n : Nat}
    {m o : MountPoint} (hsame : SameMount m o) (ho : mounts'[n]? = some o)
    (hlongest : Longest mounts path n m) : Longest mounts' path n o := by
  have hback : ∀ (k : Nat) (u : MountPoint), mounts'[k]? = some u → u.Covers path →
      ∃ v, mounts[k]? = some v ∧ v.Covers path ∧ v.path = u.path := by
    intro k u hu hcovers
    obtain ⟨v, hv, huv⟩ := h.symm.mounted k u hu
    exact ⟨v, hv, by rwa [MountPoint.Covers, huv.path], huv.path⟩
  refine ⟨ho, ?_, fun k u hu hcovers => ?_, fun k u hk hu hcovers => ?_⟩
  · rw [MountPoint.Covers, hsame.path]
    exact hlongest.covers
  · obtain ⟨v, hv, hcovers', hpath⟩ := hback k u hu hcovers
    rw [hsame.path, ← hpath]
    exact hlongest.longest k v hv hcovers'
  · obtain ⟨v, hv, hcovers', hpath⟩ := hback k u hu hcovers
    rw [hsame.path, ← hpath]
    exact hlongest.latest k v hk hv hcovers'

theorem SameMounts.denotes (h : SameMounts mounts mounts') {path : CString} {inode : InodePtr}
    (hdenotes : Denotes mounts path inode) : Denotes mounts' path inode := by
  obtain ⟨m, hlongest, hnames⟩ := hdenotes
  obtain ⟨o, ho, hsame⟩ := h.mounted _ m hlongest.mounted
  exact ⟨o, h.longest hsame ho hlongest, hsame.names hnames⟩

/-- `vfs_open` changes the mount points only by registering inodes. -/
theorem vfsOpen_sameMounts {path : CString} {found : Option InodePtr}
    (h : vfsOpen mounts path = some (found, mounts')) : SameMounts mounts mounts' := by
  rcases findMount_spec path mounts 0 with ⟨hnone, -⟩ | ⟨k, m, -, hfirst⟩
  · rw [vfsOpen, hnone] at h
    cases h
    exact ⟨rfl, fun n m hm => ⟨m, hm, .refl m⟩⟩
  · rw [vfsOpen, findMount_first hfirst] at h
    simp only [Option.bind_eq_bind, Option.bind_some] at h
    obtain ⟨⟨steps, below⟩, hwalk, h⟩ := Option.bind_eq_some_iff.mp h
    cases h
    refine ⟨List.length_set, fun n o ho => ?_⟩
    rw [List.getElem?_set]
    by_cases hk : k = n
    · subst hk
      obtain rfl : m = o := Option.some.inj (hfirst.mounted.symm.trans ho)
      have hlt : k < mounts.length := (List.getElem?_eq_some_iff.mp ho).1
      rw [if_pos rfl, if_pos hlt]
      exact ⟨_, rfl, rfl, rfl, walk_sameTree hwalk⟩
    · rw [if_neg hk]
      exact ⟨o, ho, .refl o⟩

/-- After any call, every path stands for the inode that it stood for before. -/
theorem vfsOpen_denotes {path : CString} {found : Option InodePtr}
    (h : vfsOpen mounts path = some (found, mounts')) (other : CString) (inode : InodePtr) :
    Denotes mounts' other inode ↔ Denotes mounts other inode :=
  ⟨(vfsOpen_sameMounts h).symm.denotes, (vfsOpen_sameMounts h).denotes⟩

/-- The trees stay well formed. -/
theorem vfsOpen_wellFormed {path : CString} {found : Option InodePtr}
    (h : vfsOpen mounts path = some (found, mounts'))
    (hwell : ∀ m ∈ mounts, WellFormed m.registerInode m.firstChild) :
    ∀ m ∈ mounts', WellFormed m.registerInode m.firstChild := by
  intro o ho
  obtain ⟨n, hn⟩ := List.getElem?_of_mem ho
  obtain ⟨m, hm, hsame⟩ := (vfsOpen_sameMounts h).symm.mounted n o hn
  have hback := hsame.symm
  rw [hback.registerInode]
  exact hback.tree.wellFormed (hwell m (List.mem_of_getElem? hm))

/-- In every run of calls the trees stay well formed, and paths stand for the same inodes. -/
theorem opens_denote (hwell : ∀ m ∈ mounts, WellFormed m.registerInode m.firstChild)
    (h : Reaches (fun s path => (vfsOpen s path).map Prod.snd) (fun _ _ => True) mounts mounts') :
    (∀ m ∈ mounts', WellFormed m.registerInode m.firstChild) ∧
      ∀ path inode, Denotes mounts' path inode ↔ Denotes mounts path inode := by
  induction h with
  | refl => exact ⟨hwell, fun _ _ => Iff.rfl⟩
  | tail _ _ hstep ih =>
      obtain ⟨⟨found, after⟩, hopen, rfl⟩ := Option.map_eq_some_iff.mp hstep
      refine ⟨vfsOpen_wellFormed hopen ih.1, fun path inode => ?_⟩
      rw [vfsOpen_denotes hopen, ih.2]

end Muse.Vfs
