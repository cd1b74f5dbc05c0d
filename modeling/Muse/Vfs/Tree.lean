import Muse.Vfs.Open

/-!
# Directory trees and the paths into them

What a path stands for. The tree below an inode is not bounded: the children of a node that is not
present are those that it gets when it is registered.
-/

namespace Muse.Vfs

/-- `names` lead from an inode with `children` to the inode at `steps` below it. -/
def Leads (registerInode : BitVec 32 → List Tnode) :
    List Tnode → List (List (BitVec 8)) → List Nat → Prop
  | _, [], [] => True
  | children, name :: names, k :: steps => ∃ tnode, children[k]? = some tnode ∧ tnode.name = name ∧
      Leads registerInode (tnode.register registerInode).firstChild names steps
  | _, _, _ => False

/-- The children of the inode at `steps` below one with `children`. -/
def directory (registerInode : BitVec 32 → List Tnode) :
    List Tnode → List Nat → Option (List Tnode)
  | children, [] => some children
  | children, k :: steps => children[k]?.bind fun tnode =>
      directory registerInode (tnode.register registerInode).firstChild steps

/-- The names in a directory. -/
structure WellNamed (children : List Tnode) : Prop where
  nonempty : ∀ tnode ∈ children, tnode.name ≠ []
  noSeparator : ∀ tnode ∈ children, separator ∉ tnode.name
  noNull : ∀ tnode ∈ children, 0#8 ∉ tnode.name
  unique : (children.map Tnode.name).Nodup

/-- Every directory of a tree is well named. -/
def WellFormed (registerInode : BitVec 32 → List Tnode) (children : List Tnode) : Prop :=
  ∀ steps dir, directory registerInode children steps = some dir → WellNamed dir

/-- The path of the mount point is a prefix of `path` that ends where a name of it does. -/
def MountPoint.Covers (m : MountPoint) (path : CString) : Prop :=
  m.path.chars = path.chars ∨ m.path.chars ++ [separator] <+: path.chars

instance (m : MountPoint) (path : CString) : Decidable (m.Covers path) :=
  inferInstanceAs (Decidable (_ ∨ _))

/-- Mount point number `n` has the longest path that covers `path`. Of mount points with the same
    path the latest one counts. -/
structure Longest (mounts : List MountPoint) (path : CString) (n : Nat) (m : MountPoint) :
    Prop where
  mounted : mounts[n]? = some m
  covers : m.Covers path
  longest : ∀ (k : Nat) (o : MountPoint), mounts[k]? = some o → o.Covers path →
    o.path.chars.length ≤ m.path.chars.length
  latest : ∀ (k : Nat) (o : MountPoint), k < n → mounts[k]? = some o → o.Covers path →
    o.path.chars.length < m.path.chars.length

/-- `path` is that of the mount point, the character `c`, and names that lead to an inode. -/
def Names (m : MountPoint) (c : BitVec 8) (path : CString) (steps : List Nat) : Prop :=
  ∃ names, names ≠ [] ∧ path.chars = m.path.chars ++ c :: [separator].intercalate names ∧
    Leads m.registerInode m.firstChild names steps

/-- `path` stands for the inode: its names lead there from the longest mount point. -/
def Denotes (mounts : List MountPoint) (path : CString) (inode : InodePtr) : Prop :=
  ∃ m, Longest mounts path inode.mountPoint m ∧ Names m separator path inode.children

/-- `vfs_open` reads nothing behind the path and finds the inode that it stands for. -/
def Resolved (mounts : List MountPoint) (path : CString) : Prop :=
  ∃ found after, vfsOpen mounts path = some (found, after) ∧
    ∀ inode, found = some inode ↔ Denotes mounts path inode

/-- Mount point number `n` is the first one whose path is a prefix of the characters of `path`. -/
structure First (mounts : List MountPoint) (path : CString) (n : Nat) (m : MountPoint) : Prop where
  mounted : mounts[n]? = some m
  isPrefix : m.path.chars <+: path.chars
  first : ∀ (k : Nat) (o : MountPoint), k < n → mounts[k]? = some o → ¬ o.path.chars <+: path.chars

/-- The first mount point is one that the path goes on behind, and it is the longest one too, unless
    there is nothing to find: neither from there, whatever character is skipped, nor from the
    longest one. -/
def FirstFits (mounts : List MountPoint) (path : CString) : Prop :=
  ∀ n m, First mounts path n m → m.path.chars ≠ path.chars ∧
    (Longest mounts path n m ∨
      (∀ c steps, ¬ Names m c path steps) ∧ ∀ inode, ¬ Denotes mounts path inode)

variable {registerInode : BitVec 32 → List Tnode} {children : List Tnode}

theorem WellFormed.root (h : WellFormed registerInode children) : WellNamed children :=
  h [] children rfl

theorem WellFormed.below {k : Nat} {tnode : Tnode} (h : WellFormed registerInode children)
    (hk : children[k]? = some tnode) :
    WellFormed registerInode (tnode.register registerInode).firstChild := by
  intro steps dir hdir
  refine h (k :: steps) dir ?_
  rw [directory, hk]
  exact hdir

/-- A tree is well formed if its root is well named and the trees below are well formed. -/
theorem wellFormed_iff : WellFormed registerInode children ↔ WellNamed children ∧
    ∀ tnode ∈ children, WellFormed registerInode (tnode.register registerInode).firstChild := by
  constructor
  · intro h
    refine ⟨h.root, fun tnode htnode => ?_⟩
    obtain ⟨k, hk⟩ := List.getElem?_of_mem htnode
    exact h.below hk
  · rintro ⟨hroot, hbelow⟩ steps dir hdir
    cases steps with
    | nil =>
        cases hdir
        exact hroot
    | cons k steps =>
        obtain ⟨tnode, hk, hdir⟩ := Option.bind_eq_some_iff.mp hdir
        exact hbelow tnode (List.mem_of_getElem? hk) steps dir hdir

/-- Names that lead somewhere are names of children. -/
theorem Leads.noSeparator {names : List (List (BitVec 8))} {steps : List Nat}
    (hwell : WellFormed registerInode children) (h : Leads registerInode children names steps) :
    ∀ name ∈ names, separator ∉ name := by
  induction names generalizing children steps with
  | nil =>
      intro name hname
      cases hname
  | cons name names ih =>
      cases steps with
      | nil => exact h.elim
      | cons k steps =>
          obtain ⟨tnode, hk, rfl, hbelow⟩ := h
          intro name hname
          rcases List.mem_cons.mp hname with rfl | hname
          · exact hwell.root.noSeparator tnode (List.mem_of_getElem? hk)
          · exact ih (hwell.below hk) hbelow name hname

/-- The name of a child decides which one it is. -/
theorem WellNamed.injective (h : WellNamed children) {k l : Nat} {tnode other : Tnode}
    (hk : children[k]? = some tnode) (hl : children[l]? = some other)
    (hname : tnode.name = other.name) : k = l := by
  have hlen : k < (children.map Tnode.name).length := by
    rw [List.length_map]
    exact (List.getElem?_eq_some_iff.mp hk).1
  refine (List.getElem?_inj hlen h.unique).mp ?_
  rw [List.getElem?_map, List.getElem?_map, hk, hl, Option.map_some, Option.map_some, hname]

/-- A mount point that covers a path has a prefix of it. -/
theorem MountPoint.Covers.isPrefix {m : MountPoint} {path : CString} (h : m.Covers path) :
    m.path.chars <+: path.chars := by
  rcases h with h | h
  · exact h ▸ List.prefix_rfl
  · exact (List.prefix_append _ _).trans h

theorem First.unique {mounts : List MountPoint} {path : CString} {n k : Nat} {m o : MountPoint}
    (h : First mounts path n m) (h' : First mounts path k o) : n = k := by
  by_contra hne
  rcases Nat.lt_or_gt_of_ne hne with hlt | hgt
  · exact h'.first n m hlt h.mounted h.isPrefix
  · exact h.first k o hgt h'.mounted h'.isPrefix

/-- There is at most one longest mount point. -/
theorem Longest.unique {mounts : List MountPoint} {path : CString} {n k : Nat} {m o : MountPoint}
    (h : Longest mounts path n m) (h' : Longest mounts path k o) : n = k := by
  have hle := h.longest k o h'.mounted h'.covers
  have hge := h'.longest n m h.mounted h.covers
  by_contra hne
  rcases Nat.lt_or_gt_of_ne hne with hlt | hgt
  · have hless := h'.latest n m hlt h.mounted h.covers
    omega
  · have hless := h.latest k o hgt h'.mounted h'.covers
    omega

end Muse.Vfs
