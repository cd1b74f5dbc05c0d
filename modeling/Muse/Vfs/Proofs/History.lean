import Muse.Vfs.History
import Muse.Vfs.Proofs.Registration

/-!
# Paths do not depend on what was opened before

All states of a run have grown from the first one. What `vfs_open` finds is the same in any two
states that have grown from the same nodes.
-/

namespace Muse.Vfs

open Muse.Library

variable {registerInode : BitVec 32 → List Tnode} {base children other : List Tnode} {b t : Tnode}

/-! ## Nodes that have grown -/

/-- Node `t` has grown from `b`. -/
structure GrownNode (registerInode : BitVec 32 → List Tnode) (b t : Tnode) : Prop where
  name : t.name = b.name
  inodeId : t.inodeId = b.inodeId
  below : t.present = true → Grown registerInode (registerInode b.inodeId) t.firstChild

theorem Grown.cons (h : GrownNode registerInode b t) (hrest : Grown registerInode base children) :
    Grown registerInode (b :: base) (t :: children) := by
  cases hpresent : t.present with
  | true => exact .present h.name h.inodeId hpresent (h.below hpresent) hrest
  | false => exact .absent h.name h.inodeId hpresent hrest

theorem Grown.refl {children : List Tnode} (h : ∀ tnode ∈ children, tnode.present = false) :
    Grown registerInode children children := by
  induction children with
  | nil => exact .nil
  | cons t children ih =>
      exact .absent rfl rfl (h t List.mem_cons_self)
        (ih fun u hu => h u (List.mem_cons_of_mem _ hu))

theorem Grown.node (h : Grown registerInode base children) {k : Nat} (hk : children[k]? = some t) :
    ∃ b, base[k]? = some b ∧ GrownNode registerInode b t := by
  induction h generalizing k with
  | nil => cases hk
  | @absent b u base children hname hid hpresent _ ih =>
      cases k with
      | zero =>
          cases hk
          exact ⟨b, rfl, hname, hid, fun h => by rw [hpresent] at h; cases h⟩
      | succ k => exact ih hk
  | @present b u base children hname hid hpresent hbelow _ _ ih =>
      cases k with
      | zero =>
          cases hk
          exact ⟨b, rfl, hname, hid, fun _ => hbelow⟩
      | succ k => exact ih hk

theorem Grown.length (h : Grown registerInode base children) : children.length = base.length := by
  induction h with
  | nil => rfl
  | absent _ _ _ _ ih => exact congrArg Nat.succ ih
  | present _ _ _ _ _ _ ih => exact congrArg Nat.succ ih

/-- One node is exchanged for another one that has grown from the same node. -/
theorem Grown.set (h : Grown registerInode base children) {k : Nat} (hk : base[k]? = some b)
    (ht : GrownNode registerInode b t) : Grown registerInode base (children.set k t) := by
  induction h generalizing k with
  | nil => cases hk
  | absent hname hid hpresent hrest ih =>
      cases k with
      | zero =>
          cases hk
          exact .cons ht hrest
      | succ k => exact .absent hname hid hpresent (ih hk)
  | present hname hid hpresent hbelow hrest _ ih =>
      cases k with
      | zero =>
          cases hk
          exact .cons ht hrest
      | succ k => exact .present hname hid hpresent hbelow (ih hk)

theorem GrownNode.register (hreg : ∀ i, ∀ tnode ∈ registerInode i, tnode.present = false)
    (h : GrownNode registerInode b t) :
    GrownNode registerInode b (t.register registerInode) ∧
      Grown registerInode (registerInode b.inodeId) (t.register registerInode).firstChild := by
  unfold Tnode.register
  cases hpresent : t.present with
  | true => exact ⟨h, h.below hpresent⟩
  | false =>
      have hbelow : Grown registerInode (registerInode b.inodeId) (registerInode t.inodeId) := by
        rw [h.inodeId]
        exact .refl (hreg _)
      exact ⟨⟨h.name, h.inodeId, fun _ => hbelow⟩, hbelow⟩

/-! ## What a path leads to -/

/-- Which child has a name is decided by the names. -/
theorem Grown.findChild_index (h : Grown registerInode base children) (start : List (BitVec 8))
    (len n : Nat) : (findChild start len children n).map (Option.map Prod.fst) =
      (findChild start len base n).map (Option.map Prod.fst) := by
  have hcons : ∀ {b t : Tnode} {base children : List Tnode} {n : Nat}, t.name = b.name →
      (findChild start len children (n + 1)).map (Option.map Prod.fst) =
        (findChild start len base (n + 1)).map (Option.map Prod.fst) →
      (findChild start len (t :: children) n).map (Option.map Prod.fst) =
        (findChild start len (b :: base) n).map (Option.map Prod.fst) := by
    intro b t base children n hname hrest
    rw [findChild, findChild, hname]
    cases compareName b.name start with
    | none => rfl
    | some same =>
        simp only [Option.bind_eq_bind, Option.bind_some]
        split
        · rfl
        · exact hrest
  induction h generalizing n with
  | nil => rfl
  | absent hname _ _ _ ih => exact hcons hname (ih _)
  | present hname _ _ _ _ _ ih => exact hcons hname (ih _)

/-- Of two states that have grown from the same nodes, the same child is found. -/
theorem Grown.findChild_same (h : Grown registerInode base children)
    (h' : Grown registerInode base other) {start : List (BitVec 8)} {len : Nat}
    {found : Option (Nat × Tnode)} (hfound : findChild start len children 0 = some found) :
    (found = none ∧ findChild start len other 0 = some none) ∨
      ∃ k t t' b, found = some (k, t) ∧ findChild start len other 0 = some (some (k, t')) ∧
        base[k]? = some b ∧ GrownNode registerInode b t ∧ GrownNode registerInode b t' := by
  have hindex := (h.findChild_index start len 0).trans (h'.findChild_index start len 0).symm
  rw [hfound, Option.map_some] at hindex
  obtain ⟨found', hfound', hsame⟩ := Option.map_eq_some_iff.mp hindex.symm
  cases found with
  | none =>
      cases found' with
      | none => exact .inl ⟨rfl, hfound'⟩
      | some _ => cases hsame
  | some found =>
      cases found' with
      | none => cases hsame
      | some found' =>
          obtain ⟨k, t⟩ := found
          obtain ⟨k', t'⟩ := found'
          obtain rfl : k' = k := Option.some.inj hsame
          obtain ⟨b, hb, hgrown⟩ := h.node (findChild_some hfound).2
          obtain ⟨b', hb', hgrown'⟩ := h'.node (findChild_some hfound').2
          obtain rfl : b = b' := Option.some.inj (hb.symm.trans hb')
          exact .inr ⟨k', t, t', b, rfl, hfound', hb, hgrown, hgrown'⟩

theorem numberAt_set {children : List Tnode} {k : Nat} {t : Tnode} {own : Option (BitVec 32)}
    (hk : k < children.length) (steps : List Nat) :
    numberAt own (children.set k t) (k :: steps) =
      numberAt (some t.inodeId) t.firstChild steps := by
  rw [numberAt, List.getElem?_set_self hk, Option.bind_some]

/-- The loop over the names finds the same in both states, and they grow. -/
theorem walk_grown (hreg : ∀ i, ∀ tnode ∈ registerInode i, tnode.present = false)
    {start rest : List (BitVec 8)} {len : Nat} {found : Option (List Nat)} {after : List Tnode}
    (h : Grown registerInode base children) (h' : Grown registerInode base other)
    (hrun : walk registerInode children start len rest = some (found, after)) :
    ∃ after', walk registerInode other start len rest = some (found, after') ∧
      Grown registerInode base after ∧ Grown registerInode base after' ∧
      ∀ own, ∀ steps ∈ found, numberAt own after steps = numberAt own after' steps := by
  induction rest generalizing base children other start len found after with
  | nil => cases hrun
  | cons c rest ih =>
      rw [walk] at hrun ⊢
      by_cases hname : c ≠ 0#8 ∧ c ≠ separator
      · rw [if_pos hname] at hrun ⊢
        exact ih h h' hrun
      rw [if_neg hname] at hrun ⊢
      obtain ⟨child, hchild, hrun⟩ := Option.bind_eq_some_iff.mp hrun
      rcases h.findChild_same h' hchild with ⟨rfl, hother⟩ | ⟨k, t, t', b, rfl, hother, hb, ht, ht'⟩
      · cases hrun
        exact ⟨other, by rw [hother]; rfl, h, h', fun _ _ hmem => by cases hmem⟩
      · obtain ⟨hnode, hbelow⟩ := ht.register hreg
        obtain ⟨hnode', hbelow'⟩ := ht'.register hreg
        have hlt : k < children.length := by
          rw [h.length]
          exact (List.getElem?_eq_some_iff.mp hb).1
        have hlt' : k < other.length := by
          rw [h'.length]
          exact (List.getElem?_eq_some_iff.mp hb).1
        rw [hother]
        simp only [Option.bind_eq_bind, Option.bind_some]
        by_cases hnull : c = 0#8
        · -- the last name
          simp only [if_pos hnull] at hrun ⊢
          cases hrun
          refine ⟨_, rfl, h.set hb hnode, h'.set hb hnode', ?_⟩
          intro own steps hsteps
          cases hsteps
          rw [numberAt_set hlt, numberAt_set hlt', numberAt, numberAt, hnode.inodeId,
            hnode'.inodeId]
        · simp only [if_neg hnull] at hrun ⊢
          obtain ⟨⟨found', below⟩, hwalk, hrun⟩ := Option.bind_eq_some_iff.mp hrun
          cases hrun
          obtain ⟨below', hwalk', hgrown, hgrown', hnumber⟩ := ih hbelow hbelow' hwalk
          rw [hwalk', Option.bind_some]
          refine ⟨_, rfl, h.set hb ⟨hnode.name, hnode.inodeId, fun _ => hgrown⟩,
            h'.set hb ⟨hnode'.name, hnode'.inodeId, fun _ => hgrown'⟩, ?_⟩
          intro own steps hsteps
          obtain ⟨steps', hsteps', rfl⟩ := Option.map_eq_some_iff.mp hsteps
          rw [numberAt_set hlt, numberAt_set hlt']
          dsimp only
          rw [hnode.inodeId, hnode'.inodeId]
          exact hnumber _ _ hsteps'

/-- Nodes that are closed have grown from the same ones. -/
theorem Grown.forget (h : Grown registerInode base children) (steps : List Nat) :
    Grown registerInode base (forget children steps) := by
  have hmodify : ∀ {base children : List Tnode} (k : Nat) (f : Tnode → Tnode),
      Grown registerInode base children →
      (∀ b t, GrownNode registerInode b t → GrownNode registerInode b (f t)) →
      Grown registerInode base (children.modify k f) := by
    intro base children k f h hf
    rw [List.modify_eq_set_getElem?]
    cases hk : children[k]? with
    | none => exact h
    | some t =>
        obtain ⟨b, hb, ht⟩ := h.node hk
        exact h.set hb (hf b t ht)
  induction steps generalizing base children with
  | nil => exact h
  | cons k steps ih =>
      cases steps with
      | nil =>
          refine hmodify k _ h fun b t ht => ⟨ht.name, ht.inodeId, fun hpresent => ?_⟩
          cases hpresent
      | cons l steps =>
          exact hmodify k _ h fun b t ht =>
            ⟨ht.name, ht.inodeId, fun hpresent => ih (ht.below hpresent)⟩

/-! ## Mount points -/

/-- Mount points that have grown from those of `start`. -/
structure GrownMounts (start mounts : List MountPoint) : Prop where
  length : mounts.length = start.length
  mounted : ∀ (n : Nat) (o : MountPoint), mounts[n]? = some o →
    ∃ m, start[n]? = some m ∧ GrownMount m o

variable {start mounts mounts' : List MountPoint} {path : CString}

theorem GrownMounts.refl (h : ∀ m ∈ start, Unopened m) : GrownMounts start start :=
  ⟨rfl, fun _ m hm => ⟨m, hm, rfl, rfl, .refl (h m (List.mem_of_getElem? hm)).root⟩⟩

theorem GrownMounts.set (h : GrownMounts start mounts) {n : Nat} {m o : MountPoint}
    (hm : start[n]? = some m) (ho : GrownMount m o) : GrownMounts start (mounts.set n o) := by
  refine ⟨by rw [List.length_set, h.length], fun k u hu => ?_⟩
  rw [List.getElem?_set] at hu
  by_cases hk : n = k
  · subst hk
    rw [if_pos rfl] at hu
    split at hu
    · cases hu
      exact ⟨m, hm, ho⟩
    · cases hu
  · rw [if_neg hk] at hu
    exact h.mounted k u hu

/-- The first mount point that is a prefix is decided by the paths. -/
theorem GrownMounts.first (h : GrownMounts start mounts) {n : Nat} {o : MountPoint}
    (hfirst : First mounts path n o) : ∃ m, First start path n m ∧ GrownMount m o := by
  obtain ⟨m, hm, hgrown⟩ := h.mounted n o hfirst.mounted
  refine ⟨m, ⟨hm, hgrown.path ▸ hfirst.isPrefix, fun k u hk hu => ?_⟩, hgrown⟩
  have hlt : k < mounts.length := by
    rw [h.length]
    exact (List.getElem?_eq_some_iff.mp hu).1
  obtain ⟨u', hu', hgrown'⟩ := h.mounted k mounts[k] (List.getElem?_eq_getElem hlt)
  obtain rfl : u = u' := Option.some.inj (hu.symm.trans hu')
  rw [← hgrown'.path]
  exact hfirst.first k _ hk (List.getElem?_eq_getElem hlt)

theorem GrownMounts.of_first (h : GrownMounts start mounts) {n : Nat} {m : MountPoint}
    (hfirst : First start path n m) : ∃ o, First mounts path n o ∧ GrownMount m o := by
  have hlt : n < mounts.length := by
    rw [h.length]
    exact (List.getElem?_eq_some_iff.mp hfirst.mounted).1
  obtain ⟨m', hm', hgrown⟩ := h.mounted n mounts[n] (List.getElem?_eq_getElem hlt)
  obtain rfl : m = m' := Option.some.inj (hfirst.mounted.symm.trans hm')
  refine ⟨mounts[n], ⟨List.getElem?_eq_getElem hlt, hgrown.path ▸ hfirst.isPrefix,
    fun k u hk hu => ?_⟩, hgrown⟩
  obtain ⟨v, hv, hgrown'⟩ := h.mounted k u hu
  rw [hgrown'.path]
  exact hfirst.first k v hk hv

/-- What `vfs_open` does below the first mount point. -/
theorem vfsOpen_below {n : Nat} {o : MountPoint} (hfirst : First mounts path n o) :
    vfsOpen mounts path =
      (walk o.registerInode o.firstChild (path.pointer.drop (1 + o.path.chars.length)) 0
        (path.pointer.drop (1 + o.path.chars.length))).map fun (inode, below) =>
          (inode.map (InodePtr.mk n), mounts.set n { o with firstChild := below }) := by
  rw [vfsOpen, findMount_first hfirst]
  simp only [Option.bind_eq_bind, Option.bind_some]
  cases walk o.registerInode o.firstChild _ 0 _ <;> rfl

/-- Two states that have grown from the same one give the same inode for a path, and they grow. -/
theorem vfsOpen_grown (hun : ∀ m ∈ start, Unopened m) (h : GrownMounts start mounts)
    (h' : GrownMounts start mounts') {found : Option InodePtr} {after : List MountPoint}
    (hrun : vfsOpen mounts path = some (found, after)) :
    GrownMounts start after ∧ opened mounts' path = opened mounts path := by
  rcases findMount_spec path mounts 0 with ⟨-, hall⟩ | ⟨n, o, -, hfirst⟩
  · have hall' : ∀ m ∈ mounts', ¬ m.path.chars <+: path.chars := by
      rcases findMount_spec path mounts' 0 with ⟨-, hall'⟩ | ⟨n, o', -, hfirst'⟩
      · exact hall'
      · obtain ⟨m, hm, -⟩ := h'.first hfirst'
        obtain ⟨o, ho, -⟩ := h.of_first hm
        exact absurd ho.isPrefix (hall o (List.mem_of_getElem? ho.mounted))
    rw [vfsOpen_unmounted hall] at hrun
    cases hrun
    refine ⟨h, ?_⟩
    rw [opened, opened, vfsOpen_unmounted hall, vfsOpen_unmounted hall']
    rfl
  · obtain ⟨m, hm, hgrown⟩ := h.first hfirst
    obtain ⟨o', hfirst', hgrown'⟩ := h'.of_first hm
    have hreg := (hun m (List.mem_of_getElem? hm.mounted)).registered
    rw [vfsOpen_below hfirst] at hrun
    obtain ⟨⟨steps, below⟩, hwalk, hrun⟩ := Option.map_eq_some_iff.mp hrun
    cases hrun
    have hwalk' := hwalk
    rw [hgrown.registerInode] at hwalk'
    obtain ⟨below', hother, hbelow, hbelow', hnumber⟩ :=
      walk_grown hreg hgrown.grown hgrown'.grown hwalk'
    refine ⟨h.set hm.mounted ⟨hgrown.path, hgrown.registerInode, hbelow⟩, ?_⟩
    rw [opened, opened, vfsOpen_below hfirst, vfsOpen_below hfirst', hwalk, hgrown'.registerInode,
      hgrown'.path, ← hgrown.path, hother]
    have hlt := (List.getElem?_eq_some_iff.mp hfirst.mounted).1
    have hlt' := (List.getElem?_eq_some_iff.mp hfirst'.mounted).1
    cases steps with
    | none => rfl
    | some steps =>
        simp only [Option.map_some, List.getElem?_set_self hlt, List.getElem?_set_self hlt',
          Option.bind_some, hnumber none steps rfl]

/-- A path has the same inode in all states that have grown from the same one. -/
theorem GrownMounts.opened_eq (hun : ∀ m ∈ start, Unopened m) (h : GrownMounts start mounts)
    (h' : GrownMounts start mounts') (path : CString) :
    opened mounts' path = opened mounts path := by
  cases hrun : vfsOpen mounts path with
  | some r => exact (vfsOpen_grown hun h h' hrun).2
  | none =>
      cases hrun' : vfsOpen mounts' path with
      | some r => exact (vfsOpen_grown hun h' h hrun').2.symm
      | none => rw [opened, opened, hrun, hrun']

/-! ## Runs -/

theorem openLeaving_exact {left : BitVec 32 → List Tnode} (hleft : ∀ i, left i = [])
    {r : Option InodePtr × List MountPoint} (hrun : openLeaving mounts path left = some r) :
    vfsOpen mounts path = some r := by
  have hsame : mounts.map (·.leaving left) = mounts := by
    refine (List.map_congr_left fun m _ => ?_).trans (List.map_id mounts)
    rw [MountPoint.leaving]
    simp only [hleft, List.append_nil]
    rfl
  rw [openLeaving, hsame] at hrun
  obtain ⟨⟨found, after⟩, hopen, rfl⟩ := Option.map_eq_some_iff.mp hrun
  rw [hopen]
  refine congrArg (fun l => some (found, l)) (List.ext_getElem? fun n => ?_)
  have hsame := vfsOpen_sameMounts hopen
  rw [List.getElem?_zipWith]
  cases hm : mounts[n]? with
  | none =>
      rw [List.getElem?_eq_none_iff] at hm ⊢
      exact hsame.length ▸ hm
  | some m =>
      obtain ⟨o, ho, hsame⟩ := hsame.mounted n m hm
      rw [ho]
      dsimp only
      rw [← hsame.path, ← hsame.registerInode]

theorem fileStep_grown (hun : ∀ m ∈ start, Unopened m) (h : GrownMounts start mounts) {op : FileOp}
    (hexact : op.Exact) (hstep : fileStep mounts op = some mounts') :
    GrownMounts start mounts' := by
  cases op with
  | «open» path left =>
      obtain ⟨⟨found, after⟩, hopen, rfl⟩ := Option.map_eq_some_iff.mp hstep
      exact (vfsOpen_grown hun h h (openLeaving_exact hexact hopen)).1
  | close inode =>
      cases hstep
      rw [List.modify_eq_set_getElem?]
      cases ho : mounts[inode.mountPoint]? with
      | none => exact h
      | some o =>
          obtain ⟨m, hm, hgrown⟩ := h.mounted _ _ ho
          exact h.set hm ⟨hgrown.path, hgrown.registerInode, hgrown.grown.forget _⟩

theorem reaches_grown (hun : ∀ m ∈ start, Unopened m)
    (h : Reaches fileStep (fun _ op => op.Exact) start mounts) : GrownMounts start mounts :=
  h.invariant (.refl hun) fun _ _ _ hgrown hexact hstep => fileStep_grown hun hgrown hexact hstep

/-- After any run of exact calls, a path has the inode that it has in the beginning. -/
theorem reaches_opened (hun : ∀ m ∈ start, Unopened m)
    (h : Reaches fileStep (fun _ op => op.Exact) start mounts) (path : CString) :
    opened mounts path = opened start path :=
  (GrownMounts.refl hun).opened_eq hun (reaches_grown hun h) path

end Muse.Vfs
