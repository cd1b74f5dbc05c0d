import Muse.Vfs.Lookup
import Muse.Vfs.Proofs.Registration

/-!
# A lookup is a call of `vfs_open`

Without the list of registered nodes, and for a pointer to a string, a lookup is `vfsOpen`. What
stands behind the string does not matter. The inode that a lookup finds and those that it registers
are inodes of the mount points behind it.
-/

namespace Muse.Vfs

variable {registerInode : BitVec 32 → List Tnode} {children after : List Tnode}

theorem walkRegistering_walk (start rest : List (BitVec 8)) (len : Nat) :
    (walkRegistering registerInode children start len rest).map (fun r => (r.1, r.2.1)) =
      walk registerInode children start len rest := by
  induction rest generalizing children start len with
  | nil => rfl
  | cons c rest ih =>
    rw [walkRegistering, walk]
    by_cases hname : c ≠ 0#8 ∧ c ≠ separator
    · rw [if_pos hname, if_pos hname]
      exact ih start (len + 1)
    · rw [if_neg hname, if_neg hname]
      cases findChild start len children 0 with
      | none => rfl
      | some found =>
        cases found with
        | none => rfl
        | some found =>
          obtain ⟨k, tnode⟩ := found
          simp only [Option.bind_eq_bind, Option.bind_some]
          by_cases hnull : c = 0#8
          · rw [if_pos hnull, if_pos hnull]
            rfl
          · rw [if_neg hnull, if_neg hnull, ← ih rest 0]
            cases walkRegistering registerInode (tnode.register registerInode).firstChild rest 0
              rest with
            | none => rfl
            | some r => rfl

/-- For a string, the lookup is `vfs_open`. -/
theorem lookup_vfsOpen (mounts : List MountPoint) (path : CString) :
    (lookup mounts path.pointer).map (fun r => (r.found, r.mounts)) = vfsOpen mounts path := by
  rw [lookup, vfsOpen]
  cases findMount path.pointer mounts 0 with
  | none => rfl
  | some found =>
    cases found with
    | none => rfl
    | some found =>
      obtain ⟨n, m, i⟩ := found
      simp only [Option.bind_eq_bind, Option.bind_some]
      rw [← walkRegistering_walk]
      cases walkRegistering m.registerInode m.firstChild (path.pointer.drop (1 + i)) 0
        (path.pointer.drop (1 + i)) with
      | none => rfl
      | some r => rfl

/-! ## Characters behind the string -/

theorem comparePath_append {path mountPath : List (BitVec 8)} {i : Nat} {r : Bool × Nat}
    (more : List (BitVec 8)) (h : comparePath path mountPath i = some r) :
    comparePath (path ++ more) mountPath i = some r := by
  induction path generalizing mountPath i with
  | nil => cases h
  | cons c path ih =>
    cases mountPath with
    | nil => cases h
    | cons d mountPath =>
      rw [List.cons_append]
      rw [comparePath] at h ⊢
      by_cases hchar : c ≠ 0#8 ∧ d ≠ 0#8
      · rw [if_pos hchar] at h ⊢
        by_cases hcd : c ≠ d
        · rwa [if_pos hcd] at h ⊢
        · rw [if_neg hcd] at h ⊢
          exact ih h
      · rwa [if_neg hchar] at h ⊢

theorem findMount_append {path : List (BitVec 8)} {mounts : List MountPoint} {n : Nat}
    {r : Option (Nat × MountPoint × Nat)} (more : List (BitVec 8))
    (h : findMount path mounts n = some r) : findMount (path ++ more) mounts n = some r := by
  induction mounts generalizing n with
  | nil => exact h
  | cons mountPoint mounts ih =>
    rw [findMount] at h ⊢
    obtain ⟨⟨found, i⟩, hcompare, h⟩ := Option.bind_eq_some_iff.mp h
    rw [comparePath_append more hcompare, Option.bind_eq_bind, Option.bind_some]
    cases found with
    | true => exact h
    | false => exact ih h

theorem compareName_append {name start : List (BitVec 8)} {same : Bool} (more : List (BitVec 8))
    (h : compareName name start = some same) : compareName name (start ++ more) = some same := by
  induction name generalizing start with
  | nil => exact h
  | cons c name ih =>
    cases start with
    | nil => cases h
    | cons d start =>
      rw [List.cons_append]
      rw [compareName] at h ⊢
      by_cases hcd : c ≠ d
      · rwa [if_pos hcd] at h ⊢
      · rw [if_neg hcd] at h ⊢
        exact ih h

theorem findChild_append {start : List (BitVec 8)} {len k : Nat} {r : Option (Nat × Tnode)}
    (more : List (BitVec 8)) (h : findChild start len children k = some r) :
    findChild (start ++ more) len children k = some r := by
  induction children generalizing k with
  | nil => exact h
  | cons tnode children ih =>
    rw [findChild] at h ⊢
    obtain ⟨same, hcompare, h⟩ := Option.bind_eq_some_iff.mp h
    rw [compareName_append more hcompare, Option.bind_eq_bind, Option.bind_some]
    by_cases hsame : tnode.name.length = len ∧ same
    · rwa [if_pos hsame] at h ⊢
    · rw [if_neg hsame] at h ⊢
      exact ih h

theorem walkRegistering_append {start rest : List (BitVec 8)} {len : Nat}
    {r : Option (List Nat) × List Tnode × List (List Nat)} (more : List (BitVec 8))
    (h : walkRegistering registerInode children start len rest = some r) :
    walkRegistering registerInode children (start ++ more) len (rest ++ more) = some r := by
  induction rest generalizing children start len r with
  | nil => cases h
  | cons c rest ih =>
    rw [List.cons_append]
    rw [walkRegistering] at h ⊢
    by_cases hname : c ≠ 0#8 ∧ c ≠ separator
    · rw [if_pos hname] at h ⊢
      exact ih h
    rw [if_neg hname] at h ⊢
    obtain ⟨found, hfound, h⟩ := Option.bind_eq_some_iff.mp h
    rw [findChild_append more hfound, Option.bind_eq_bind, Option.bind_some]
    cases found with
    | none => exact h
    | some found =>
      obtain ⟨k, tnode⟩ := found
      dsimp only at h ⊢
      by_cases hnull : c = 0#8
      · rw [if_pos hnull] at h ⊢
        exact h
      · rw [if_neg hnull] at h ⊢
        obtain ⟨below, hwalk, h⟩ := Option.bind_eq_some_iff.mp h
        rw [ih hwalk]
        exact h

theorem lookup_append {mounts : List MountPoint} {path : List (BitVec 8)} {r : Lookup}
    (more : List (BitVec 8)) (h : lookup mounts path = some r) :
    lookup mounts (path ++ more) = some r := by
  rw [lookup] at h ⊢
  obtain ⟨found, hfound, h⟩ := Option.bind_eq_some_iff.mp h
  rw [findMount_append more hfound, Option.bind_eq_bind, Option.bind_some]
  cases found with
  | none => exact h
  | some found =>
    obtain ⟨n, mountPoint, i⟩ := found
    dsimp only at h ⊢
    obtain ⟨below, hwalk, h⟩ := Option.bind_eq_some_iff.mp h
    -- the loop over the names has no result behind the last character
    have hstart : 1 + i ≤ path.length := by
      by_contra hlt
      rw [List.drop_eq_nil_of_le (Nat.le_of_not_le hlt)] at hwalk
      cases hwalk
    rw [List.drop_append_of_le_length hstart, walkRegistering_append more hwalk]
    exact h

/-- A row of characters that has a null character begins with its string. -/
theorem CString.pointer_ofBytes {bytes : List (BitVec 8)} (h : 0#8 ∈ bytes) :
    ∃ more, bytes = (CString.ofBytes bytes).pointer ++ more := by
  induction bytes with
  | nil => cases h
  | cons c bytes ih =>
    by_cases hc : c = 0#8
    · subst hc
      exact ⟨bytes, rfl⟩
    · obtain ⟨more, hmore⟩ := ih ((List.mem_cons.mp h).resolve_left (Ne.symm hc))
      refine ⟨more, ?_⟩
      rw [pointer, ofBytes] at hmore ⊢
      simpa [hc] using hmore

/-- A lookup of the string at the beginning of a row of characters is one of the row. -/
theorem lookup_bytes {mounts : List MountPoint} {bytes : List (BitVec 8)} {r : Lookup}
    (hnull : 0#8 ∈ bytes) (h : lookup mounts (CString.ofBytes bytes).pointer = some r) :
    lookup mounts bytes = some r := by
  obtain ⟨more, hmore⟩ := CString.pointer_ofBytes hnull
  rw [hmore]
  exact lookup_append more h

/-! ## What a lookup can do -/

/-- The steps to a child, if it is registered. -/
def newChild (k : Nat) (tnode : Tnode) : List (List Nat) := if tnode.present then [] else [[k]]

/-- The rule for the loop over the names: `P` relates the children before it to what it finds, to
    the children behind it and to what it registers. -/
theorem walkRegistering_rule
    (P : List Tnode → Option (List Nat) → List Tnode → List (List Nat) → Prop)
    (hmissing : ∀ children, P children none children [])
    (hlast : ∀ children k tnode, children[k]? = some tnode →
      P children (some [k]) (children.set k (tnode.register registerInode)) (newChild k tnode))
    (hbelow : ∀ children k tnode inode below more, children[k]? = some tnode →
      P (tnode.register registerInode).firstChild inode below more →
      P children (inode.map (k :: ·))
        (children.set k { tnode.register registerInode with firstChild := below })
        (newChild k tnode ++ more.map (k :: ·)))
    {start rest : List (BitVec 8)} {len : Nat} {inode : Option (List Nat)}
    {registered : List (List Nat)}
    (h : walkRegistering registerInode children start len rest = some (inode, after, registered)) :
    P children inode after registered := by
  induction rest generalizing children start len inode after registered with
  | nil => cases h
  | cons c rest ih =>
    rw [walkRegistering] at h
    by_cases hname : c ≠ 0#8 ∧ c ≠ separator
    · rw [if_pos hname] at h
      exact ih h
    rw [if_neg hname] at h
    obtain ⟨found, hfound, h⟩ := Option.bind_eq_some_iff.mp h
    cases found with
    | none =>
      cases h
      exact hmissing children
    | some found =>
      obtain ⟨k, tnode⟩ := found
      have hk : children[k]? = some tnode := (findChild_some hfound).2
      by_cases hnull : c = 0#8
      · simp only [if_pos hnull] at h
        cases h
        exact hlast children k tnode hk
      · simp only [if_neg hnull] at h
        obtain ⟨⟨inode', below, more⟩, hwalk, h⟩ := Option.bind_eq_some_iff.mp h
        cases h
        exact hbelow children k tnode inode' below more hk (ih hwalk)

theorem findMount_mounted {path : List (BitVec 8)} {mounts : List MountPoint} {n k i : Nat}
    {m : MountPoint} (h : findMount path mounts n = some (some (k, m, i))) :
    n ≤ k ∧ mounts[k - n]? = some m := by
  induction mounts generalizing n with
  | nil => cases h
  | cons o mounts ih =>
    rw [findMount] at h
    obtain ⟨⟨found, j⟩, -, h⟩ := Option.bind_eq_some_iff.mp h
    dsimp only at h
    split at h
    · cases h
      exact ⟨Nat.le_refl _, by rw [Nat.sub_self]; rfl⟩
    · obtain ⟨hle, hm⟩ := ih h
      refine ⟨Nat.le_of_succ_le hle, ?_⟩
      rw [show k - n = k - (n + 1) + 1 by omega]
      exact hm

/-- The two ends of a lookup: there is no mount point, or the loop over the names ends below one. -/
theorem lookup_cases {mounts : List MountPoint} {path : List (BitVec 8)} {r : Lookup}
    (h : lookup mounts path = some r) : r = ⟨none, mounts, []⟩ ∨
      ∃ n m start inode below registered, mounts[n]? = some m ∧
        walkRegistering m.registerInode m.firstChild start 0 start =
          some (inode, below, registered) ∧
        r = ⟨inode.map (InodePtr.mk n), mounts.set n { m with firstChild := below },
          registered.map (InodePtr.mk n)⟩ := by
  rw [lookup] at h
  obtain ⟨found, hfound, h⟩ := Option.bind_eq_some_iff.mp h
  cases found with
  | none =>
    cases h
    exact .inl rfl
  | some found =>
    obtain ⟨n, m, i⟩ := found
    obtain ⟨⟨inode, below, registered⟩, hwalk, h⟩ := Option.bind_eq_some_iff.mp h
    cases h
    exact .inr ⟨n, m, _, inode, below, registered, (findMount_mounted hfound).2, hwalk, rfl⟩

/-! ## The inodes of a lookup -/

theorem isNode_set {k : Nat} {steps : List Nat} {old tnode : Tnode} (hk : children[k]? = some old)
    (h : IsNode tnode.firstChild steps) : IsNode (children.set k tnode) (k :: steps) :=
  ⟨tnode, List.getElem?_set_self (List.getElem?_eq_some_iff.mp hk).1, h⟩

/-- A child that is registered is a node behind the loop. -/
theorem isNode_newChild {k : Nat} {steps : List Nat} {old tnode : Tnode}
    (hk : children[k]? = some old) (hsteps : steps ∈ newChild k old) :
    IsNode (children.set k tnode) steps := by
  rw [newChild] at hsteps
  split at hsteps
  · cases hsteps
  · rw [List.mem_singleton.mp hsteps]
    exact isNode_set hk trivial

/-- What the loop over the names finds and registers are nodes behind it. -/
theorem walkRegistering_nodes {start rest : List (BitVec 8)} {len : Nat} {inode : Option (List Nat)}
    {registered : List (List Nat)}
    (h : walkRegistering registerInode children start len rest = some (inode, after, registered)) :
    (∀ steps, inode = some steps → IsNode after steps) ∧
      ∀ steps ∈ registered, IsNode after steps := by
  apply walkRegistering_rule (fun _ inode after registered =>
    (∀ steps, inode = some steps → IsNode after steps) ∧ ∀ steps ∈ registered, IsNode after steps)
    _ _ _ h
  · intro children
    refine ⟨fun steps hsteps => ?_, List.forall_mem_nil _⟩
    cases hsteps
  · intro children k tnode hk
    refine ⟨fun steps hsteps => ?_, fun steps hsteps => isNode_newChild hk hsteps⟩
    cases hsteps
    exact isNode_set hk trivial
  · intro children k tnode inode below more hk ih
    refine ⟨fun steps hsteps => ?_, fun steps hsteps => ?_⟩
    · obtain ⟨steps', hsteps', rfl⟩ := Option.map_eq_some_iff.mp hsteps
      exact isNode_set hk (ih.1 steps' hsteps')
    · rcases List.mem_append.mp hsteps with hhere | hmore
      · exact isNode_newChild hk hhere
      · obtain ⟨steps', hsteps', rfl⟩ := List.mem_map.mp hmore
        exact isNode_set hk (ih.2 steps' hsteps')

/-- A node that is registered is not present before. -/
theorem not_isPresent_newChild {k : Nat} {steps : List Nat} {tnode : Tnode}
    (hk : children[k]? = some tnode) (hsteps : steps ∈ newChild k tnode) :
    ¬ IsPresent children steps := by
  intro hpresent
  rw [newChild] at hsteps
  split at hsteps
  · cases hsteps
  next habsent =>
    rw [List.mem_singleton.mp hsteps] at hpresent
    obtain ⟨other, hother, hyes, -⟩ := hpresent
    obtain rfl : tnode = other := Option.some.inj (hk.symm.trans hother)
    exact habsent hyes

/-- The nodes that the loop over the names registers were not present. -/
theorem walkRegistering_absent {start rest : List (BitVec 8)} {len : Nat}
    {inode : Option (List Nat)} {registered : List (List Nat)}
    (h : walkRegistering registerInode children start len rest = some (inode, after, registered)) :
    ∀ steps ∈ registered, ¬ IsPresent children steps := by
  apply walkRegistering_rule (fun children _ _ registered =>
    ∀ steps ∈ registered, ¬ IsPresent children steps) _ _ _ h
  · exact fun children => List.forall_mem_nil _
  · exact fun children k tnode hk steps hsteps => not_isPresent_newChild hk hsteps
  · intro children k tnode inode below more hk ih steps hsteps
    rcases List.mem_append.mp hsteps with hhere | hmore
    · exact not_isPresent_newChild hk hhere
    · obtain ⟨steps', hsteps', rfl⟩ := List.mem_map.mp hmore
      rintro ⟨other, hother, hyes, hpresent⟩
      obtain rfl : tnode = other := Option.some.inj (hk.symm.trans hother)
      -- a node that is present keeps its children
      rw [register_of_present hyes] at ih
      exact ih steps' hsteps' hpresent

variable {mounts : List MountPoint} {path : List (BitVec 8)} {r : Lookup}

/-- What a lookup finds and registers are inodes behind it. -/
theorem lookup_inodes (h : lookup mounts path = some r) :
    (∀ p, r.found = some p → IsInode r.mounts p) ∧ ∀ p ∈ r.registered, IsInode r.mounts p := by
  rcases lookup_cases h with rfl | ⟨n, m, start, inode, below, registered, hm, hwalk, rfl⟩
  · refine ⟨fun p hp => ?_, List.forall_mem_nil _⟩
    cases hp
  · obtain ⟨hinode, hregistered⟩ := walkRegistering_nodes hwalk
    have hn : n < mounts.length := (List.getElem?_eq_some_iff.mp hm).1
    refine ⟨fun p hp => ?_, fun p hp => ?_⟩
    · obtain ⟨steps, hsteps, rfl⟩ := Option.map_eq_some_iff.mp hp
      exact ⟨_, List.getElem?_set_self hn, hinode steps hsteps⟩
    · obtain ⟨steps, hsteps, rfl⟩ := List.mem_map.mp hp
      exact ⟨_, List.getElem?_set_self hn, hregistered steps hsteps⟩

/-- The inodes that a lookup registers were not present. -/
theorem lookup_absent (h : lookup mounts path = some r) :
    ∀ p ∈ r.registered, ∀ m, mounts[p.mountPoint]? = some m →
      ¬ IsPresent m.firstChild p.children := by
  rcases lookup_cases h with rfl | ⟨n, m, start, inode, below, registered, hm, hwalk, rfl⟩
  · exact List.forall_mem_nil _
  · intro p hp o ho
    obtain ⟨steps, hsteps, rfl⟩ := List.mem_map.mp hp
    obtain rfl : m = o := Option.some.inj (hm.symm.trans ho)
    exact walkRegistering_absent hwalk steps hsteps

end Muse.Vfs
