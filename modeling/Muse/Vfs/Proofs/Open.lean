import Muse.Vfs.Tree

/-!
# Paths are resolved at the first mount point

`vfs_open` takes the first mount point whose path is a prefix of the characters of the path, whether
a name ends there or not, and skips the character behind it, whatever that is.
-/

namespace Muse.Vfs

/-- The loop over the characters of a mount point decides whether they are a prefix. -/
theorem comparePath_spec (path mountPath : List (BitVec 8)) (i : Nat) (hpath : 0#8 ∉ path)
    (hmount : 0#8 ∉ mountPath) :
    ∃ j, comparePath (path ++ [0#8]) (mountPath ++ [0#8]) i =
        some (mountPath.isPrefixOf path, j) ∧
      (mountPath.isPrefixOf path = true → j = i + mountPath.length) := by
  induction path generalizing mountPath i with
  | nil =>
      cases mountPath with
      | nil => exact ⟨i, rfl, fun _ => rfl⟩
      | cons d mountPath =>
          have hd : ¬ d = 0#8 := fun h => hmount (h ▸ List.mem_cons_self)
          refine ⟨i, ?_, fun h => by cases h⟩
          simp [comparePath, hd]
  | cons c path ih =>
      have hc : ¬ c = 0#8 := fun h => hpath (h ▸ List.mem_cons_self)
      cases mountPath with
      | nil => exact ⟨i, by simp [comparePath], fun _ => rfl⟩
      | cons d mountPath =>
          have hd : ¬ d = 0#8 := fun h => hmount (h ▸ List.mem_cons_self)
          obtain ⟨j, hj, hend⟩ := ih mountPath (i + 1) (mt (List.mem_cons_of_mem _) hpath)
            (mt (List.mem_cons_of_mem _) hmount)
          by_cases hcd : c = d
          · subst hcd
            refine ⟨j, ?_, fun h => ?_⟩
            · simpa [comparePath, hc] using hj
            · rw [hend (by simpa using h), List.length_cons]
              omega
          · refine ⟨i, ?_, fun h => ?_⟩
            · simp [comparePath, List.isPrefixOf, hc, hd, hcd, Ne.symm hcd]
            · simp [List.isPrefixOf, Ne.symm hcd] at h

/-- The search finds the first mount point that is a prefix. -/
theorem findMount_spec (path : CString) (mounts : List MountPoint) (n : Nat) :
    (findMount path.pointer mounts n = some none ∧
        ∀ m ∈ mounts, ¬ m.path.chars <+: path.chars) ∨
      ∃ k m, findMount path.pointer mounts n = some (some (n + k, m, m.path.chars.length)) ∧
        First mounts path k m := by
  induction mounts generalizing n with
  | nil => exact .inl ⟨rfl, fun m hm => by cases hm⟩
  | cons m mounts ih =>
      obtain ⟨j, hj, hend⟩ := comparePath_spec path.chars m.path.chars 0 path.noNull m.path.noNull
      have hfind : findMount path.pointer (m :: mounts) n =
          if m.path.chars.isPrefixOf path.chars then some (some (n, m, j))
          else findMount path.pointer mounts (n + 1) := by
        rw [findMount, CString.pointer, CString.pointer, hj]
        rfl
      rw [hfind]
      by_cases hpre : m.path.chars <+: path.chars
      · have hbool : m.path.chars.isPrefixOf path.chars = true :=
          List.isPrefixOf_iff_prefix.mpr hpre
        refine .inr ⟨0, m, ?_, rfl, hpre, fun k o hk => absurd hk (Nat.not_lt_zero k)⟩
        rw [if_pos hbool, hend hbool, Nat.zero_add]
        rfl
      · have hbool : ¬ m.path.chars.isPrefixOf path.chars = true :=
          mt List.isPrefixOf_iff_prefix.mp hpre
        rw [if_neg hbool]
        rcases ih (n + 1) with ⟨hnone, hall⟩ | ⟨k, o, hsome, hfirst⟩
        · exact .inl ⟨hnone, List.forall_mem_cons.mpr ⟨hpre, hall⟩⟩
        · refine .inr ⟨k + 1, o, ?_, hfirst.mounted, hfirst.isPrefix, ?_⟩
          · rw [hsome, Nat.add_assoc, Nat.add_comm 1 k]
          · intro l u hl hu
            cases l with
            | zero =>
                cases hu
                exact hpre
            | succ l => exact hfirst.first l u (Nat.lt_of_succ_lt_succ hl) hu

/-- The loop over the characters of a name, before a character that does not occur in it. -/
theorem compareName_spec (name segment rest : List (BitVec 8)) {c : BitVec 8} (h : c ∉ name) :
    compareName name (segment ++ c :: rest) = some (name.isPrefixOf segment) := by
  induction name generalizing segment with
  | nil => rfl
  | cons a name ih =>
      cases segment with
      | nil =>
          have hac : a ≠ c := fun heq => h (heq ▸ List.mem_cons_self)
          rw [List.nil_append, compareName, if_pos hac]
          rfl
      | cons d segment =>
          rw [List.cons_append, compareName]
          by_cases had : a = d
          · subst had
            rw [if_neg (by simp), ih segment (mt (List.mem_cons_of_mem _) h)]
            simp
          · rw [if_pos had]
            simp [List.isPrefixOf, had]

/-- The search among the children, before the end of a name in the path. -/
theorem findChild_spec (children : List Tnode) (segment rest : List (BitVec 8)) {c : BitVec 8}
    (hc : ∀ tnode ∈ children, c ∉ tnode.name) (n : Nat) :
    (findChild (segment ++ c :: rest) segment.length children n = some none ∧
        ∀ tnode ∈ children, tnode.name ≠ segment) ∨
      ∃ k tnode, findChild (segment ++ c :: rest) segment.length children n =
          some (some (n + k, tnode)) ∧
        children[k]? = some tnode ∧ tnode.name = segment := by
  induction children generalizing n with
  | nil => exact .inl ⟨rfl, fun tnode h => by cases h⟩
  | cons tnode children ih =>
      have hsame : (tnode.name.length = segment.length ∧ tnode.name.isPrefixOf segment = true) ↔
          tnode.name = segment := by
        rw [List.isPrefixOf_iff_prefix]
        constructor
        · rintro ⟨hlen, hpre⟩
          exact hpre.eq_of_length hlen
        · intro heq
          rw [heq]
          exact ⟨rfl, List.prefix_rfl⟩
      have hfind : findChild (segment ++ c :: rest) segment.length (tnode :: children) n =
          if tnode.name = segment then some (some (n, tnode))
          else findChild (segment ++ c :: rest) segment.length children (n + 1) := by
        rw [findChild, compareName_spec _ _ _ (hc tnode List.mem_cons_self)]
        simp only [Option.bind_eq_bind, Option.bind_some, hsame]
      rw [hfind]
      by_cases hname : tnode.name = segment
      · rw [if_pos hname]
        exact .inr ⟨0, tnode, rfl, rfl, hname⟩
      · rw [if_neg hname]
        rcases ih (fun t ht => hc t (List.mem_cons_of_mem _ ht)) (n + 1) with
          ⟨hnone, hall⟩ | ⟨k, t, hsome, hk, ht⟩
        · exact .inl ⟨hnone, List.forall_mem_cons.mpr ⟨hname, hall⟩⟩
        · refine .inr ⟨k + 1, t, ?_, hk, ht⟩
          rw [hsome, Nat.add_assoc, Nat.add_comm 1 k]

theorem not_leads_of_missing {registerInode : BitVec 32 → List Tnode} {children : List Tnode}
    {name : List (BitVec 8)} (h : ∀ tnode ∈ children, tnode.name ≠ name)
    (names : List (List (BitVec 8))) (steps : List Nat) :
    ¬ Leads registerInode children (name :: names) steps := by
  intro hleads
  cases steps with
  | nil => exact hleads
  | cons k steps =>
      obtain ⟨tnode, hk, hname, -⟩ := hleads
      exact h tnode (List.mem_of_getElem? hk) hname

/-- Names lead through the only child that has the first of them. -/
theorem leads_cons_iff {registerInode : BitVec 32 → List Tnode} {children : List Tnode}
    (hwell : WellNamed children) {k : Nat} {tnode : Tnode} (hk : children[k]? = some tnode)
    (names : List (List (BitVec 8))) (steps : List Nat) :
    Leads registerInode children (tnode.name :: names) steps ↔
      ∃ below, steps = k :: below ∧
        Leads registerInode (tnode.register registerInode).firstChild names below := by
  constructor
  · intro hleads
    cases steps with
    | nil => exact hleads.elim
    | cons l below =>
        obtain ⟨other, hl, hname, hbelow⟩ := hleads
        obtain rfl := hwell.injective hk hl hname.symm
        obtain rfl : tnode = other := Option.some.inj (hk.symm.trans hl)
        exact ⟨below, rfl, hbelow⟩
  · rintro ⟨below, rfl, hbelow⟩
    exact ⟨tnode, hk, rfl, hbelow⟩

/-- The loop over the names finds the inode that the rest of the path leads to, and reads nothing
    behind the path. `segment` are the characters between `start` and `end`. -/
theorem walk_spec {registerInode : BitVec 32 → List Tnode} (rest : List (BitVec 8))
    {children : List Tnode} (segment : List (BitVec 8))
    (hwell : WellFormed registerInode children) (hsegment : separator ∉ segment)
    (hrest : 0#8 ∉ rest) :
    ∃ inode after, walk registerInode children (segment ++ (rest ++ [0#8])) segment.length
        (rest ++ [0#8]) = some (inode, after) ∧
      ∀ steps, inode = some steps ↔
        Leads registerInode children ((segment ++ rest).splitOn separator) steps := by
  induction rest generalizing children segment with
  | nil =>
      rw [List.append_nil, List.splitOn_eq_singleton hsegment, List.nil_append, walk,
        if_neg (by simp)]
      rcases findChild_spec children segment [] hwell.root.noNull 0 with
        ⟨hnone, hmissing⟩ | ⟨k, tnode, hsome, hk, rfl⟩
      · refine ⟨none, children, by rw [hnone]; rfl, fun steps => ?_⟩
        exact iff_of_false (by simp) (not_leads_of_missing hmissing [] steps)
      · refine ⟨some [k], children.set k (tnode.register registerInode), ?_, fun steps => ?_⟩
        · rw [hsome, Nat.zero_add]
          rfl
        · rw [leads_cons_iff hwell.root hk]
          constructor
          · intro h
            cases h
            exact ⟨[], rfl, trivial⟩
          · rintro ⟨below, rfl, hbelow⟩
            cases below with
            | nil => rfl
            | cons l below => exact hbelow.elim
  | cons c rest ih =>
      have hnull : c ≠ 0#8 := fun h => hrest (h ▸ List.mem_cons_self)
      have hrest' : 0#8 ∉ rest := mt (List.mem_cons_of_mem _) hrest
      rw [List.cons_append, walk]
      by_cases hc : c = separator
      · -- the end of a name
        subst hc
        rw [List.splitOn_append_cons_self_of_not_mem hsegment, if_neg (by simp)]
        rcases findChild_spec children segment (rest ++ [0#8]) hwell.root.noSeparator 0 with
          ⟨hnone, hmissing⟩ | ⟨k, tnode, hsome, hk, rfl⟩
        · refine ⟨none, children, by rw [hnone]; rfl, fun steps => ?_⟩
          exact iff_of_false (by simp) (not_leads_of_missing hmissing _ steps)
        · obtain ⟨inode, after, hwalk, hinode⟩ := ih [] (hwell.below hk) (by simp) hrest'
          rw [List.nil_append, List.length_nil] at hwalk
          rw [List.nil_append] at hinode
          refine ⟨inode.map (k :: ·), children.set k
            { tnode.register registerInode with firstChild := after }, ?_, fun steps => ?_⟩
          · rw [hsome, Nat.zero_add]
            simp only [Option.bind_eq_bind, Option.bind_some, if_neg hnull, hwalk]
          · rw [leads_cons_iff hwell.root hk, Option.map_eq_some_iff]
            simp only [hinode]
            constructor
            · rintro ⟨below, hbelow, rfl⟩
              exact ⟨below, rfl, hbelow⟩
            · rintro ⟨below, rfl, hbelow⟩
              exact ⟨below, hbelow, rfl⟩
      · -- a character of the name
        have hsegment' : separator ∉ segment ++ [c] := by
          rw [List.mem_append, List.mem_singleton]
          rintro (h | h)
          · exact hsegment h
          · exact hc h.symm
        obtain ⟨inode, after, hwalk, hinode⟩ := ih (segment ++ [c]) hwell hsegment' hrest'
        refine ⟨inode, after, ?_, ?_⟩
        · rw [if_pos ⟨hnull, hc⟩, ← hwalk, List.length_append, List.append_assoc]
          rfl
        · rw [List.append_assoc] at hinode
          exact hinode

variable {mounts : List MountPoint} {path : CString} {n : Nat} {m : MountPoint}

/-- The names in a path are those between the separators. -/
theorem names_iff {c : BitVec 8} {rest : List (BitVec 8)}
    (hwell : WellFormed m.registerInode m.firstChild)
    (hpath : path.chars = m.path.chars ++ c :: rest) (d : BitVec 8) (steps : List Nat) :
    Names m d path steps ↔
      d = c ∧ Leads m.registerInode m.firstChild (rest.splitOn separator) steps := by
  constructor
  · rintro ⟨names, hnames, hd, hleads⟩
    have htail := List.append_cancel_left (hpath.symm.trans hd)
    obtain ⟨rfl, rfl⟩ := List.cons.inj htail
    rw [List.splitOn_intercalate separator (hleads.noSeparator hwell) hnames]
    exact ⟨rfl, hleads⟩
  · rintro ⟨rfl, hleads⟩
    refine ⟨rest.splitOn separator, List.splitOn_ne_nil _ _, ?_, hleads⟩
    rw [List.intercalate_splitOn, hpath]

/-- No mount point is a prefix of the path. -/
theorem vfsOpen_unmounted (h : ∀ m ∈ mounts, ¬ m.path.chars <+: path.chars) :
    vfsOpen mounts path = some (none, mounts) := by
  rcases findMount_spec path mounts 0 with ⟨hnone, -⟩ | ⟨k, o, -, hfirst⟩
  · rw [vfsOpen, hnone]
    rfl
  · exact absurd hfirst.isPrefix (h o (List.mem_of_getElem? hfirst.mounted))

theorem findMount_first (h : First mounts path n m) :
    findMount path.pointer mounts 0 = some (some (n, m, m.path.chars.length)) := by
  rcases findMount_spec path mounts 0 with ⟨-, hall⟩ | ⟨k, o, hfind, hfirst⟩
  · exact absurd h.isPrefix (hall m (List.mem_of_getElem? h.mounted))
  · obtain rfl := h.unique hfirst
    obtain rfl : m = o := Option.some.inj (h.mounted.symm.trans hfirst.mounted)
    rw [hfind, Nat.zero_add]

/-- The path of the first mount point is the whole path: `vfs_open` reads behind it. -/
theorem vfsOpen_mountPoint (h : First mounts path n m) (hpath : m.path.chars = path.chars) :
    vfsOpen mounts path = none := by
  have hbehind : path.pointer.drop (1 + m.path.chars.length) = [] := by
    rw [CString.pointer, hpath, List.drop_eq_nil_iff, List.length_append, List.length_singleton]
    omega
  rw [vfsOpen, findMount_first h]
  simp only [Option.bind_eq_bind, Option.bind_some, hbehind, walk, Option.bind_none]

/-- Otherwise `vfs_open` finds what the names behind the skipped character lead to. -/
theorem vfsOpen_first (h : First mounts path n m)
    (hwell : WellFormed m.registerInode m.firstChild) (hpath : m.path.chars ≠ path.chars) :
    ∃ found after, vfsOpen mounts path = some (found, after) ∧
      ∀ inode, found = some inode ↔
        inode.mountPoint = n ∧ ∃ c, Names m c path inode.children := by
  obtain ⟨tail, htail⟩ := h.isPrefix
  cases tail with
  | nil => exact absurd (by rw [← htail, List.append_nil]) hpath
  | cons c rest =>
      have hstart : path.pointer.drop (1 + m.path.chars.length) = rest ++ [0#8] := by
        rw [CString.pointer, ← htail, List.append_assoc, Nat.add_comm,
          List.drop_length_add_append]
        rfl
      have hrest : 0#8 ∉ rest := by
        intro hmem
        refine path.noNull ?_
        rw [← htail]
        exact List.mem_append_right _ (List.mem_cons_of_mem _ hmem)
      obtain ⟨steps, after, hwalk, hsteps⟩ := walk_spec rest [] hwell (by simp) hrest
      rw [List.nil_append, List.length_nil] at hwalk
      rw [List.nil_append] at hsteps
      refine ⟨steps.map (InodePtr.mk n), mounts.set n { m with firstChild := after }, ?_,
        fun inode => ?_⟩
      · rw [vfsOpen, findMount_first h]
        simp only [Option.bind_eq_bind, Option.bind_some, hstart, hwalk]
      · simp only [names_iff hwell htail.symm, Option.map_eq_some_iff, hsteps]
        constructor
        · rintro ⟨children, hleads, rfl⟩
          exact ⟨rfl, c, rfl, hleads⟩
        · rintro ⟨rfl, d, -, hleads⟩
          exact ⟨inode.children, hleads, rfl⟩

/-- What a path stands for at the first mount point, if that is the longest one. -/
theorem denotes_iff (h : Longest mounts path n m) (inode : InodePtr) :
    Denotes mounts path inode ↔
      inode.mountPoint = n ∧ Names m separator path inode.children := by
  constructor
  · rintro ⟨o, hlongest, hnames⟩
    have hn := hlongest.unique h
    rw [hn] at hlongest
    obtain rfl : o = m := Option.some.inj (hlongest.mounted.symm.trans h.mounted)
    exact ⟨hn, hnames⟩
  · rintro ⟨rfl, hnames⟩
    exact ⟨m, h, hnames⟩

/-- Behind a mount point that covers a path is the separator. -/
theorem names_covers (hcovers : m.Covers path) (hpath : m.path.chars ≠ path.chars) {c : BitVec 8}
    {steps : List Nat} (h : Names m c path steps) : c = separator := by
  obtain ⟨names, -, htail, -⟩ := h
  obtain ⟨rest, hrest⟩ := hcovers.resolve_left hpath
  rw [← hrest, List.append_assoc] at htail
  exact (List.cons.inj (List.append_cancel_left htail)).1.symm

/-- What `vfs_open` finds is below the first mount point, and what the path stands for is below the
    longest one. -/
theorem firstFits_of_resolved (hwell : ∀ m ∈ mounts, WellFormed m.registerInode m.firstChild)
    (h : Resolved mounts path) : FirstFits mounts path := by
  obtain ⟨found, after, hopen, hfound⟩ := h
  intro n m hfirst
  have hpath : m.path.chars ≠ path.chars := by
    intro heq
    rw [vfsOpen_mountPoint hfirst heq] at hopen
    cases hopen
  refine ⟨hpath, ?_⟩
  by_cases hlongest : Longest mounts path n m
  · exact .inl hlongest
  obtain ⟨found', after', hopen', hfound'⟩ :=
    vfsOpen_first hfirst (hwell m (List.mem_of_getElem? hfirst.mounted)) hpath
  obtain ⟨rfl, rfl⟩ := Prod.mk.inj (Option.some.inj (hopen.symm.trans hopen'))
  have hnone : ∀ inode, found ≠ some inode := by
    intro inode hsome
    obtain ⟨o, ho, -⟩ := (hfound inode).mp hsome
    obtain ⟨hn, -⟩ := (hfound' inode).mp hsome
    rw [hn] at ho
    obtain rfl : o = m := Option.some.inj (ho.mounted.symm.trans hfirst.mounted)
    exact hlongest ho
  refine .inr ⟨fun c steps hnames => ?_, fun inode hdenotes => ?_⟩
  · exact hnone ⟨n, steps⟩ ((hfound' ⟨n, steps⟩).mpr ⟨rfl, c, hnames⟩)
  · exact hnone inode ((hfound inode).mpr hdenotes)

/-- Without a mount point that is a prefix there is nothing to find. -/
theorem resolved_unmounted (h : ∀ m ∈ mounts, ¬ m.path.chars <+: path.chars) :
    Resolved mounts path := by
  refine ⟨none, mounts, vfsOpen_unmounted h, fun inode => iff_of_false (by simp) ?_⟩
  rintro ⟨m, hlongest, -⟩
  exact h m (List.mem_of_getElem? hlongest.mounted) hlongest.covers.isPrefix

theorem resolved_of_firstFits (hwell : ∀ m ∈ mounts, WellFormed m.registerInode m.firstChild)
    (h : FirstFits mounts path) : Resolved mounts path := by
  rcases findMount_spec path mounts 0 with ⟨-, hunmounted⟩ | ⟨n, m, -, hfirst⟩
  · exact resolved_unmounted hunmounted
  obtain ⟨hpath, hcase⟩ := h n m hfirst
  obtain ⟨found, after, hopen, hfound⟩ :=
    vfsOpen_first hfirst (hwell m (List.mem_of_getElem? hfirst.mounted)) hpath
  refine ⟨found, after, hopen, fun inode => ?_⟩
  rw [hfound]
  rcases hcase with hlongest | ⟨hnames, hdenotes⟩
  · rw [denotes_iff hlongest]
    refine and_congr_right fun _ => ⟨?_, fun hnames => ⟨separator, hnames⟩⟩
    rintro ⟨c, hnames⟩
    exact names_covers hlongest.covers hpath hnames ▸ hnames
  · refine iff_of_false ?_ (hdenotes inode)
    rintro ⟨-, c, hc⟩
    exact hnames c _ hc

/-- `vfs_open` finds what the path stands for, without reading behind it, exactly if the first mount
    point that is a prefix of its characters fits. -/
theorem resolved_iff (mounts : List MountPoint) (path : CString)
    (hwell : ∀ m ∈ mounts, WellFormed m.registerInode m.firstChild) :
    Resolved mounts path ↔ FirstFits mounts path :=
  ⟨firstFits_of_resolved hwell, resolved_of_firstFits hwell⟩

/-- A file system at `"/ext2"` with a file `"a"` that is not registered yet. -/
def ext2 : MountPoint :=
  ⟨⟨[47#8, 101#8, 120#8, 116#8, 50#8], by decide⟩, [⟨[97#8], 11#32, false, []⟩], fun _ => []⟩

theorem ext2_wellFormed : ∀ m ∈ [ext2], WellFormed m.registerInode m.firstChild := by
  have hempty : WellFormed ext2.registerInode [] :=
    wellFormed_iff.mpr ⟨⟨by simp, by simp, by simp, by simp⟩, by simp⟩
  have hroot : WellNamed ext2.firstChild := by
    refine ⟨?_, ?_, ?_, by decide⟩ <;> simp [ext2, separator]
  intro m hm
  obtain rfl := List.mem_singleton.mp hm
  refine wellFormed_iff.mpr ⟨hroot, fun tnode htnode => ?_⟩
  obtain rfl := List.mem_singleton.mp htnode
  exact hempty

/-- `"/ext2/a"`. -/
theorem resolved_file :
    Resolved [ext2] ⟨[47#8, 101#8, 120#8, 116#8, 50#8, 47#8, 97#8], by decide⟩ := by
  refine (resolved_iff [ext2] _ ext2_wellFormed).mpr fun n m hfirst => ?_
  obtain ⟨hlt, hm⟩ := List.getElem?_eq_some_iff.mp hfirst.mounted
  obtain rfl : n = 0 := Nat.lt_one_iff.mp hlt
  obtain rfl : ext2 = m := hm
  refine ⟨by decide, .inl ⟨rfl, by decide, fun k o hk _ => ?_, fun k o hk => ?_⟩⟩
  · exact Nat.le_of_eq (by rw [List.mem_singleton.mp (List.mem_of_getElem? hk)])
  · exact absurd hk (Nat.not_lt_zero k)

/-- `"/ext2"` is read behind its end, and `"/ext2xa"` opens the file that only `"/ext2/a"` stands
    for. -/
theorem unresolved_paths :
    (∀ m ∈ [ext2], WellFormed m.registerInode m.firstChild) ∧
      ¬ Resolved [ext2] ⟨[47#8, 101#8, 120#8, 116#8, 50#8], by decide⟩ ∧
      ¬ Resolved [ext2] ⟨[47#8, 101#8, 120#8, 116#8, 50#8, 120#8, 97#8], by decide⟩ := by
  refine ⟨ext2_wellFormed, ?_, ?_⟩
  · rintro ⟨found, after, hopen, -⟩
    cases hopen
  · rintro ⟨found, after, hopen, hfound⟩
    obtain ⟨rfl, -⟩ := Prod.mk.inj (Option.some.inj hopen)
    obtain ⟨m, hlongest, -⟩ := (hfound ⟨0, [0]⟩).mp rfl
    obtain rfl : ext2 = m := Option.some.inj hlongest.mounted
    exact absurd hlongest.covers (by decide)

end Muse.Vfs
