import Mathlib.Data.Nat.Cast.Basic
import Muse.Library.Counting
import Muse.Library.Transition
import Muse.Syscall.Proofs.Table

/-!
# Reference counts of inodes

`refs` of an inode is meant to be the number of descriptors that refer to it, over all contexts.
`open` increments it, `close` decrements it; `create_context` installs three descriptors without
incrementing it, and no constructor of an inode sets it. The counts are exact in the runs that
meet `Counted`: what is installed and registered does not matter to them, and every `open` that
finds an inode takes a slot.
-/

namespace Muse.Syscall

open Muse.Library

/-- The kernel, and the contexts whose file tables exist. -/
structure Refs where
  kernel : Kernel
  contexts : Finset CtxPtr

namespace Refs

/-- A slot that refers to an inode counts 1. -/
def weight (inode : InodePtr) (f : File) : Nat := if f.mode ≠ 0#8 ∧ f.inode = inode then 1 else 0

/-- The descriptors of all contexts that refer to an inode. -/
def descriptors (s : Refs) (inode : InodePtr) : Nat :=
  ∑ ctx ∈ s.contexts, total (weight inode) (s.kernel.files ctx)

/-- The steps of a run. `register` is what `vfs_open` does for a node whose inode is not present;
    `child` is what the constructor leaves there. -/
inductive Op where
  | createContext (ctxNew : CtxPtr) (memory : Fin fopenMax → File)
      (stdin stdout stderr : InodePtr)
  | switch (ctx : CtxPtr)
  | register (inode : InodePtr) (child : Inode)
  | open (drivers : Drivers) (inode : InodePtr) (arg : BitVec 32)
  | close (fd : BitVec 32)

def step (s : Refs) : Op → Option Refs
  | .createContext ctxNew memory stdin stdout stderr =>
      let table := Kernel.createFiles memory stdin stdout stderr
      let kernel := { s.kernel with files := Function.update s.kernel.files ctxNew table }
      some ⟨kernel, insert ctxNew s.contexts⟩
  | .switch ctx => some { s with kernel := { s.kernel with activeCtx := ctx } }
  | .register inode child => some { s with kernel := s.kernel.setInode inode child }
  | .open drivers inode arg =>
      (s.kernel.syscallOpen drivers inode arg).map fun (_, kernel) => { s with kernel }
  | .close fd => (s.kernel.syscallClose fd).final.map fun (_, kernel) => { s with kernel }

/-- `sizeof(struct context)`. -/
def sizeofContext : Nat := 236

/-- `kmalloc` returns a block of its own for a new context, only a node whose inode is not present
    is registered, `vfs_open` returns a present inode, and open descriptors are closed. -/
def Allowed (s : Refs) : Op → Prop
  | .createContext ctxNew _ _ _ _ => ∀ ctx ∈ s.contexts,
      ctx.toNat + sizeofContext ≤ ctxNew.toNat ∨ ctxNew.toNat + sizeofContext ≤ ctx.toNat
  | .switch ctx => ctx ∈ s.contexts
  | .register inode child => (s.kernel.inodes inode).present = false ∧ child.present = true
  | .open _ inode _ => inode = 0#32 ∨ (s.kernel.inodes inode).present = true
  | .close fd => ∃ i, slot? fd = some i ∧ (s.kernel.file i).mode ≠ 0#8

/-- New contexts get no inodes, registered inodes happen to have no references, and an `open` that
    finds an inode also finds a closed slot and asks for a mode other than 0. -/
def Counted (s : Refs) (op : Op) : Prop :=
  s.Allowed op ∧ match op with
    | .createContext _ _ stdin stdout stderr => stdin = 0#32 ∧ stdout = 0#32 ∧ stderr = 0#32
    | .register _ child => child.refs = 0#32
    | .open _ inode arg => inode = 0#32 ∨ (s.kernel.freeSlot ≠ none ∧ arg.setWidth 8 ≠ 0#8)
    | .switch _ | .close _ => True

/-- The counts of the registered inodes are the numbers of their descriptors, and the close of a
    descriptor frees the data of its inode if no other refers to that. -/
structure Exact (s : Refs) : Prop where
  refs : ∀ inode, inode ≠ 0#32 → (s.kernel.inodes inode).present = true →
    (s.kernel.inodes inode).refs.toNat = s.descriptors inode
  frees : ∀ fd i, slot? fd = some i → (s.kernel.file i).mode ≠ 0#8 →
    (s.kernel.file i).inode ≠ 0#32 → ∃ t, s.step (.close fd) = some t ∧
      (t.kernel.freed ≠ s.kernel.freed ↔ t.descriptors (s.kernel.file i).inode = 0)

/-- One context without open descriptors, and inodes that were registered. -/
structure Initial (s : Refs) : Prop where
  contexts : s.contexts = {s.kernel.activeCtx}
  closed : ∀ i, (s.kernel.file i).mode = 0#8

/-! ## Counting -/

variable {s t : Refs} {inode other : InodePtr} {i : Fin fopenMax} {f : File}

theorem weight_closed (h : f.mode = 0#8) : weight inode f = 0 := by
  rw [weight, if_neg (fun hopen => hopen.1 h)]

theorem weight_open (h : f.mode ≠ 0#8) (hinode : f.inode = inode) : weight inode f = 1 := by
  rw [weight, if_pos ⟨h, hinode⟩]

theorem weight_of_ne (h : f.inode ≠ inode) : weight inode f = 0 := by
  rw [weight, if_neg (fun hopen => h hopen.2)]

theorem weight_le_one : weight inode f ≤ 1 := by
  rw [weight]
  split <;> omega

/-- A changed slot of the active context changes the count by what the slot counts. -/
theorem descriptors_setFile (inode : InodePtr) {kernel : Kernel}
    (hactive : s.kernel.activeCtx ∈ s.contexts)
    (hfiles : kernel.files = (s.kernel.setFile i f).files) :
    descriptors { s with kernel } inode + weight inode (s.kernel.file i) =
      s.descriptors inode + weight inode f := by
  have htable := total_update (weight inode) (s.kernel.files s.kernel.activeCtx) i f
  have hcontexts := sum_update_add s.contexts (total (weight inode)) s.kernel.files hactive
    (Function.update (s.kernel.files s.kernel.activeCtx) i f)
  simp only [descriptors, hfiles, Kernel.setFile, Kernel.file] at hcontexts ⊢
  omega

theorem total_createFiles (memory : Fin fopenMax → File) (h : inode ≠ 0#32) :
    total (weight inode) (Kernel.createFiles memory 0#32 0#32 0#32) = 0 := by
  apply total_eq_zero
  intro i
  simp only [Kernel.createFiles]
  by_cases h2 : i = 2
  · rw [h2, Function.update_self]
    exact weight_of_ne h.symm
  rw [Function.update_of_ne h2]
  by_cases h1 : i = 1
  · rw [h1, Function.update_self]
    exact weight_of_ne h.symm
  rw [Function.update_of_ne h1]
  by_cases h0 : i = 0
  · rw [h0, Function.update_self]
    exact weight_of_ne h.symm
  rw [Function.update_of_ne h0]
  exact weight_closed rfl

/-- No context's block begins inside another's. -/
def Apart (contexts : Finset CtxPtr) : Prop :=
  ∀ c ∈ contexts, ∀ d ∈ contexts, c ≠ d → c.toNat / 32 ≠ d.toNat / 32

theorem Apart.card_le {contexts : Finset CtxPtr} (h : Apart contexts) : contexts.card ≤ 2 ^ 27 := by
  have hinj : Set.InjOn (fun c : CtxPtr => c.toNat / 32) contexts := by
    intro c hc d hd heq
    by_contra hne
    exact h c hc d hd hne heq
  have hmaps : Set.MapsTo (fun c : CtxPtr => c.toNat / 32) contexts (Finset.range (2 ^ 27)) := by
    intro c _
    have hc := c.isLt
    simp only [Finset.coe_range, Set.mem_Iio]
    omega
  have hcard := Finset.card_le_card_of_injOn _ hmaps hinj
  rwa [Finset.card_range] at hcard

/-- The descriptors fit into the 32 bits of a count. -/
theorem descriptors_lt (inode : InodePtr) (h : Apart s.contexts) :
    s.descriptors inode < 2 ^ 32 := by
  have htable : ∀ ctx ∈ s.contexts, total (weight inode) (s.kernel.files ctx) ≤ fopenMax := by
    intro ctx _
    have hsum := Finset.sum_le_card_nsmul Finset.univ
      (fun i => weight inode (s.kernel.files ctx i)) 1 (fun _ _ => weight_le_one)
    simpa [total] using hsum
  have hsum := Finset.sum_le_card_nsmul s.contexts _ fopenMax htable
  have hcard := h.card_le
  rw [nsmul_eq_mul, Nat.cast_id] at hsum
  change _ ≤ s.contexts.card * 16 at hsum
  rw [descriptors]
  omega

/-! ## The runs -/

/-- The invariant of a run. -/
structure Inv (s : Refs) : Prop where
  active : s.kernel.activeCtx ∈ s.contexts
  apart : Apart s.contexts
  refs : ∀ inode, inode ≠ 0#32 → (s.kernel.inodes inode).present = true →
    (s.kernel.inodes inode).refs.toNat = s.descriptors inode
  absent : ∀ inode, inode ≠ 0#32 → (s.kernel.inodes inode).present = false →
    s.descriptors inode = 0

theorem Inv.present (h : s.Inv) (hinode : inode ≠ 0#32) (hcount : 0 < s.descriptors inode) :
    (s.kernel.inodes inode).present = true := by
  by_contra habsent
  have hzero := h.absent inode hinode (by simpa using habsent)
  omega

/-- An open slot of the active context counts for its inode. -/
theorem descriptors_pos (hactive : s.kernel.activeCtx ∈ s.contexts)
    (hopen : (s.kernel.file i).mode ≠ 0#8) : 0 < s.descriptors (s.kernel.file i).inode := by
  have hslot := le_total (weight (s.kernel.file i).inode) (s.kernel.files s.kernel.activeCtx) i
  have hctx : total (weight (s.kernel.file i).inode) (s.kernel.files s.kernel.activeCtx) ≤
      s.descriptors (s.kernel.file i).inode :=
    Finset.single_le_sum
      (f := fun ctx => total (weight (s.kernel.file i).inode) (s.kernel.files ctx))
      (fun _ _ => Nat.zero_le _) hactive
  have hone : weight (s.kernel.file i).inode (s.kernel.files s.kernel.activeCtx i) = 1 :=
    weight_open hopen rfl
  omega

/-- Another context gets a table that refers to no inode. -/
theorem createContext_inv {ctxNew : CtxPtr} {memory : Fin fopenMax → File} (h : s.Inv)
    (hapart : ∀ ctx ∈ s.contexts, ctx.toNat + sizeofContext ≤ ctxNew.toNat ∨
      ctxNew.toNat + sizeofContext ≤ ctx.toNat)
    (hstep : s.step (.createContext ctxNew memory 0#32 0#32 0#32) = some t) : t.Inv := by
  rw [step, Option.some_inj] at hstep
  subst hstep
  have hnew : ctxNew ∉ s.contexts := by
    intro hmem
    have := hapart ctxNew hmem
    simp only [sizeofContext] at this
    omega
  have hcount : ∀ inode, inode ≠ 0#32 → descriptors
      ⟨{ s.kernel with
          files := Function.update s.kernel.files ctxNew
            (Kernel.createFiles memory 0#32 0#32 0#32) }, insert ctxNew s.contexts⟩ inode =
        s.descriptors inode := by
    intro inode hinode
    simp only [descriptors]
    rw [Finset.sum_insert hnew, Function.update_self, total_createFiles memory hinode, Nat.zero_add]
    refine Finset.sum_congr rfl fun ctx hctx => ?_
    have hne : ctx ≠ ctxNew := fun heq => hnew (heq ▸ hctx)
    rw [Function.update_of_ne hne]
  refine ⟨Finset.mem_insert_of_mem h.active, ?_, ?_, ?_⟩
  · intro c hc d hd hne
    have hdist : ∀ ctx ∈ s.contexts, ctx.toNat / 32 ≠ ctxNew.toNat / 32 := by
      intro ctx hctx
      have := hapart ctx hctx
      simp only [sizeofContext] at this
      omega
    rcases Finset.mem_insert.mp hc with hcnew | hcold
    · rcases Finset.mem_insert.mp hd with hdnew | hdold
      · exact absurd (hcnew.trans hdnew.symm) hne
      · rw [hcnew]
        exact (hdist d hdold).symm
    · rcases Finset.mem_insert.mp hd with hdnew | hdold
      · rw [hdnew]
        exact hdist c hcold
      · exact h.apart c hcold d hdold hne
  · intro inode hinode hpresent
    rw [hcount inode hinode]
    exact h.refs inode hinode hpresent
  · intro inode hinode habsent
    rw [hcount inode hinode]
    exact h.absent inode hinode habsent

/-- A constructor that leaves no references behind. -/
theorem register_inv {child : Inode} (h : s.Inv)
    (habsent : (s.kernel.inodes inode).present = false) (hrefs : child.refs = 0#32)
    (hstep : s.step (.register inode child) = some t) : t.Inv := by
  rw [step, Option.some_inj] at hstep
  subst hstep
  refine ⟨h.active, h.apart, ?_, ?_⟩
  · intro other hother hpres
    by_cases heq : other = inode
    · subst heq
      have hzero := h.absent other hother habsent
      simp only [Kernel.setInode, Function.update_self, hrefs]
      exact hzero.symm
    · simp only [Kernel.setInode, Function.update_of_ne heq] at hpres ⊢
      exact h.refs other hother hpres
  · intro other hother habs
    by_cases heq : other = inode
    · subst heq
      exact h.absent other hother habsent
    · simp only [Kernel.setInode, Function.update_of_ne heq] at habs
      exact h.absent other hother habs

/-- A change of one slot and one inode keeps the invariant if it suits that inode. -/
theorem Inv.change (inode : InodePtr) {kernel : Kernel} (h : s.Inv)
    (hactive : kernel.activeCtx = s.kernel.activeCtx)
    (hfiles : kernel.files = (s.kernel.setFile i f).files)
    (hother : ∀ p, p ≠ inode → kernel.inodes p = s.kernel.inodes p)
    (hweight : ∀ p, p ≠ inode → weight p (s.kernel.file i) = weight p f)
    (hrefs : inode ≠ 0#32 → (kernel.inodes inode).present = true →
      (kernel.inodes inode).refs.toNat = descriptors { s with kernel } inode)
    (habsent : inode ≠ 0#32 → (kernel.inodes inode).present = false →
      descriptors { s with kernel } inode = 0) : Inv { s with kernel } := by
  have hsame : ∀ p, p ≠ inode → descriptors { s with kernel } p = s.descriptors p := by
    intro p hp
    have hcount := descriptors_setFile p h.active hfiles
    rw [hweight p hp] at hcount
    omega
  refine ⟨by simp only [hactive, h.active], h.apart, ?_, ?_⟩
  · intro p hzero hpresent
    by_cases hp : p = inode
    · subst hp
      exact hrefs hzero hpresent
    · simp only [hother p hp, hsame p hp] at hpresent ⊢
      exact h.refs p hzero hpresent
  · intro p hzero habs
    by_cases hp : p = inode
    · subst hp
      exact habsent hzero habs
    · simp only [hother p hp, hsame p hp] at habs ⊢
      exact h.absent p hzero habs

/-- An `open` that takes a slot takes one more reference. -/
theorem open_inv {drivers : Drivers} {arg : BitVec 32} (h : s.Inv)
    (hpresent : inode = 0#32 ∨ (s.kernel.inodes inode).present = true)
    (htakes : inode = 0#32 ∨ (s.kernel.freeSlot ≠ none ∧ arg.setWidth 8 ≠ 0#8))
    (hstep : s.step (.open drivers inode arg) = some t) : t.Inv := by
  obtain ⟨⟨fd, kernel⟩, hopen, rfl⟩ := Option.map_eq_some_iff.mp hstep
  rcases Kernel.syscallOpen_cases hopen with
    ⟨-, -, rfl⟩ | ⟨hinode, hnone, -⟩ | ⟨hinode, i, pos, size, hfree, -, hkernel⟩
  · exact h
  · exact absurd hnone (htakes.resolve_left hinode).1
  have hmode := (htakes.resolve_left hinode).2
  have hpresent := hpresent.resolve_left hinode
  have hfiles : kernel.files = (s.kernel.setFile i ⟨inode, pos, arg.setWidth 8⟩).files := by
    rw [hkernel]
    rfl
  have hinodes : kernel.inodes = Function.update s.kernel.inodes inode
      { s.kernel.inodes inode with refs := (s.kernel.inodes inode).refs + 1#32, size } := by
    rw [hkernel]
    rfl
  have hclosed := Kernel.mode_freeSlot hfree
  have hcount := descriptors_setFile inode h.active hfiles
  have hone : weight inode ⟨inode, pos, arg.setWidth 8⟩ = 1 := weight_open hmode rfl
  rw [weight_closed hclosed, hone] at hcount
  have hlt := descriptors_lt (s := { s with kernel }) inode h.apart
  refine h.change inode (by rw [hkernel]; rfl) hfiles ?_ ?_ ?_ ?_
  · intro p hp
    rw [hinodes, Function.update_of_ne hp]
  · intro p hp
    rw [weight_closed hclosed, weight_of_ne (f := ⟨inode, pos, _⟩) hp.symm]
  · intro _ _
    have hrefs := h.refs inode hinode hpresent
    rw [hinodes, Function.update_self, BitVec.toNat_add]
    simp only [BitVec.toNat_ofNat, Nat.reducePow, Nat.reduceMod]
    omega
  · intro _ habsent
    rw [hinodes, Function.update_self] at habsent
    rw [hpresent] at habsent
    cases habsent

/-- What a `close` leaves of the descriptor's inode. -/
theorem close_spec (h : s.Inv) {fd : BitVec 32} (hi : slot? fd = some i)
    (hopen : (s.kernel.file i).mode ≠ 0#8) : ∃ kernel,
    s.step (.close fd) = some { s with kernel } ∧ Inv { s with kernel } ∧
    ((s.kernel.file i).inode ≠ 0#32 → (kernel.freed ≠ s.kernel.freed ↔
      descriptors { s with kernel } (s.kernel.file i).inode = 0)) := by
  generalize hinode : (s.kernel.file i).inode = inode
  let kernel := (s.kernel.dropRef inode).setFile i ⟨0#32, 0#32, 0#8⟩
  have hstep : s.step (.close fd) = some { s with kernel } := by
    rw [step, Kernel.syscallClose_final hi, hinode]
    rfl
  have hfiles : kernel.files = (s.kernel.setFile i ⟨0#32, 0#32, 0#8⟩).files := by
    simp only [kernel, Kernel.setFile, Kernel.dropRef_files, Kernel.dropRef_activeCtx]
  have hcount := descriptors_setFile inode h.active hfiles
  rw [weight_closed (f := ⟨0#32, 0#32, 0#8⟩) rfl, weight_open hopen hinode] at hcount
  have hdropped : inode ≠ 0#32 → (s.kernel.inodes inode).present = true ∧
      ((s.kernel.inodes inode).refs - 1#32).toNat = descriptors { s with kernel } inode := by
    intro hzero
    have hpos := descriptors_pos h.active hopen
    rw [hinode] at hpos
    have hpresent := h.present hzero hpos
    have hrefs := h.refs inode hzero hpresent
    refine ⟨hpresent, ?_⟩
    rw [BitVec.toNat_sub]
    simp only [BitVec.toNat_ofNat, Nat.reducePow, Nat.reduceMod]
    have hlt := (s.kernel.inodes inode).refs.isLt
    omega
  have hlast : inode ≠ 0#32 → ((s.kernel.inodes inode).refs - 1#32 = 0#32 ↔
      descriptors { s with kernel } inode = 0) := by
    intro hzero
    rw [← (hdropped hzero).2, BitVec.toNat_eq]
    rfl
  refine ⟨kernel, hstep, ?_, ?_⟩
  · refine h.change inode Kernel.dropRef_activeCtx hfiles ?_ ?_ ?_ ?_
    · intro p hp
      exact Kernel.dropRef_inodes_of_ne hp
    · intro p hp
      rw [weight_of_ne (by rw [hinode]; exact hp.symm), weight_closed rfl]
    · intro hzero _
      rw [← (hdropped hzero).2]
      exact congrArg BitVec.toNat Kernel.dropRef_refs
    · intro hzero habsent
      by_contra hcount
      have hpresent : (kernel.inodes inode).present = true :=
        Kernel.dropRef_present.mpr ⟨(hdropped hzero).1, fun hrefs =>
          hcount ((hlast hzero).mp hrefs)⟩
      rw [hpresent] at habsent
      cases habsent
  · intro hzero
    rw [← hlast hzero]
    exact Kernel.dropRef_freed_ne

theorem Inv.exact (h : s.Inv) : s.Exact where
  refs := h.refs
  frees := by
    intro fd i hi hopen hinode
    obtain ⟨kernel, hstep, -, hfrees⟩ := close_spec h hi hopen
    exact ⟨_, hstep, hfrees hinode⟩

theorem step_inv {op : Op} (h : s.Inv) (hok : s.Counted op) (hstep : s.step op = some t) :
    t.Inv := by
  cases op with
  | createContext ctxNew memory stdin stdout stderr =>
      obtain ⟨hapart, rfl, rfl, rfl⟩ := hok
      exact createContext_inv h hapart hstep
  | switch ctx =>
      cases hstep
      exact ⟨hok.1, h.apart, h.refs, h.absent⟩
  | register inode child => exact register_inv h hok.1.1 hok.2 hstep
  | «open» drivers inode arg => exact open_inv h hok.1 hok.2 hstep
  | close fd =>
      obtain ⟨i, hi, hopen⟩ := hok.1
      obtain ⟨kernel, hclose, hinv, -⟩ := close_spec h hi hopen
      rw [hclose, Option.some_inj] at hstep
      rwa [← hstep]

theorem inv_initial (h : s.Initial)
    (hrefs : ∀ inode, (s.kernel.inodes inode).present = true →
      (s.kernel.inodes inode).refs = 0#32) :
    s.Inv := by
  have hzero : ∀ inode, s.descriptors inode = 0 := by
    intro inode
    rw [descriptors, h.contexts, Finset.sum_singleton]
    exact total_eq_zero fun i => weight_closed (h.closed i)
  refine ⟨?_, ?_, ?_, fun inode _ _ => hzero inode⟩
  · rw [h.contexts]
    exact Finset.mem_singleton_self _
  · intro c hc d hd hne
    rw [h.contexts, Finset.mem_singleton] at hc hd
    exact absurd (hc.trans hd.symm) hne
  · intro inode _ hpresent
    rw [hrefs inode hpresent, hzero]
    rfl

/-- The counts are exact in the runs that meet `Counted`, from inodes without references on. -/
theorem refs_exact {init s : Refs} (hinit : init.Initial)
    (hrefs : ∀ inode, (init.kernel.inodes inode).present = true →
      (init.kernel.inodes inode).refs = 0#32)
    (h : Reaches step Counted init s) : s.Exact := by
  have hinv : s.Inv :=
    h.invariant (inv_initial hinit hrefs) fun _ _ _ hs hok hstep => step_inv hs hok hstep
  exact hinv.exact

/-- The first context and one inode, with no references. -/
def oneContext : Refs :=
  ⟨⟨0x100#32, fun _ _ => ⟨0#32, 0#32, 0#8⟩,
    fun inode => ⟨inode = 0x500#32, 0#32, 0#32, 0x700#32⟩, []⟩, {0x100#32}⟩

theorem oneContext_initial : oneContext.Initial := ⟨rfl, fun _ => rfl⟩

/-- The inode is opened for reading. -/
theorem refs_exact_open : ∃ s : Refs, (s.kernel.inodes 0x500#32).refs = 1#32 ∧ s.Exact := by
  let op : Op := .open ⟨fun _ _ _ _ _ => none, fun _ => none⟩ 0x500#32 1#32
  have hfree : oneContext.kernel.freeSlot = some 0 := by decide
  have hok : oneContext.Counted op := by
    refine ⟨.inr rfl, .inr ⟨?_, by decide⟩⟩
    rw [hfree]
    exact Option.some_ne_none 0
  obtain ⟨s, hs⟩ : ∃ s, oneContext.step op = some s := ⟨_, rfl⟩
  have hrefs : (s.kernel.inodes 0x500#32).refs = 1#32 := by
    cases hs
    rfl
  exact ⟨s, hrefs, refs_exact oneContext_initial (fun _ _ => rfl) (.tail .refl hok hs)⟩

/-- A new context gets three descriptors of an inode that counts none. -/
theorem created_descriptors_uncounted :
    ¬ ∀ init s : Refs, init.Initial → Reaches step Allowed init s → s.Exact := by
  intro h
  let op : Op := .createContext 0x1000#32 (fun _ => ⟨0#32, 0#32, 0#8⟩) 0x500#32 0x500#32 0x500#32
  have hok : oneContext.Allowed op := by
    intro ctx hctx
    rw [Finset.mem_singleton.mp hctx]
    decide
  obtain ⟨s, hs⟩ : ∃ s, oneContext.step op = some s := ⟨_, rfl⟩
  have hexact := (h oneContext s oneContext_initial (.tail .refl hok hs)).refs 0x500#32
  cases hs
  have hrefs := hexact (by decide) rfl
  exact absurd hrefs (by decide)

end Refs

end Muse.Syscall
