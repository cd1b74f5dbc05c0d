import Muse.Scheduler.Proofs.Switch

/-!
# Every context goes on where it stopped

`Switched` is what one call of `context_switch` does to the contexts. Over a run, a context that has
called `context_switch` finds its registers, its stack and its private memory again when it is next
active, whatever the other contexts did meanwhile: to its caller the function looks like one that
returns.
-/

namespace Muse.Scheduler

open Muse.Library Muse.Library.X86

namespace Tasks

variable {activeCtx : BitVec 32} {s t : Tasks}

/-- Memories that agree on a saved frame. -/
theorem onStack_congr {m m' : ByteMem} {esp : BitVec 32}
    (h : ∀ k : BitVec 32, k < 20#32 → m' (esp + k) = m (esp + k)) :
    Kept.onStack m' esp = Kept.onStack m esp := by
  have hword : ∀ i : BitVec 32, i ≤ 16#32 → readWord m' (esp + i) = readWord m (esp + i) := by
    intro i hi
    refine readWord_congr fun k hk => ?_
    rw [BitVec.add_assoc]
    exact h _ (by bv_omega)
  have h0 := hword 0#32 (by decide)
  rw [BitVec.add_zero] at h0
  rw [Kept.onStack, Kept.onStack, hword 12#32 (by decide), hword 8#32 (by decide),
    hword 4#32 (by decide), hword 16#32 (by decide), h0]

/-- From `s` to `t` the active context switches to the target. -/
structure Switched (activeCtx : BitVec 32) (s t : Tasks) : Prop where
  layout : t.layout = s.layout
  ctxs : t.ctxs = s.ctxs
  fits : t.layout.Fits t.cpu.mem.mem
  active : t.active activeCtx = s.target
  cr3 : t.cpu.mem.cr3 = s.dirOf s.target
  dir : ∀ c ∈ s.ctxs, t.dirOf c = s.dirOf c
  esp : ∀ c ∈ s.ctxs, c ≠ s.active activeCtx → t.espOf c = s.espOf c
  esp_active : t.espOf (s.active activeCtx) = s.cpu.reg .esp - 16#32
  mem : ∀ c ∈ s.ctxs, c ≠ s.active activeCtx → ∀ v ∈ s.own c, t.memOf c v = s.memOf c v
  mem_active : ∀ v ∈ s.own (s.active activeCtx), ¬ v - (s.cpu.reg .esp - 16#32) < 16#32 →
    t.memOf (s.active activeCtx) v = s.memOf (s.active activeCtx) v
  saved_active : t.saved (s.active activeCtx) = s.called
  resumed : Kept.now t.cpu = t.saved s.target

namespace Sound

variable (hs : s.Sound activeCtx)

include hs

theorem cr3_mem : s.cpu.mem.cr3 ∈ s.layout.dirs := by
  rw [hs.cr3]
  exact (hs.placed _ hs.active).dir

theorem memOf_active : s.memOf (s.active activeCtx) = s.view := by
  rw [memOf, ← hs.cr3]
  rfl

/-- The words that the code exchanges are different ones. -/
theorem esp_ne_active {c : CtxPtr} (hc : c ∈ s.ctxs) (m : ByteMem) (x : BitVec 32) :
    readWord (writeWord m activeCtx x) c = readWord m c := by
  have h := hs.placed c hc
  apply readWord_writeWord_of_sub m x h.behind
  have := h.before
  omega

theorem dir_ne_active {c : CtxPtr} (hc : c ∈ s.ctxs) (m : ByteMem) (x : BitVec 32) :
    readWord (writeWord m activeCtx x) (c + 4#32) = readWord m (c + 4#32) := by
  have hb := (hs.placed c hc).behind
  have hf := (hs.placed c hc).before
  have hadd : (c + 4#32 - activeCtx).toNat = (c - activeCtx).toNat + 4 := by
    bv_omega
  apply readWord_writeWord_of_sub m x
  · omega
  · omega

/-- The field `esp` of one context and the fields of the contexts. -/
theorem dir_ne_esp {c d : CtxPtr} (hc : c ∈ s.ctxs) (hd : d ∈ s.ctxs) (m : ByteMem)
    (x : BitVec 32) : readWord (writeWord m c x) (d + 4#32) = readWord m (d + 4#32) := by
  by_cases hcd : c = d
  · subst hcd
    have hadd : (c + 4#32 - c).toNat = 4 := by
      bv_omega
    apply readWord_writeWord_of_sub m x <;> omega
  · have hb := (hs.apart c hc d hd hcd).behind
    have hf := (hs.apart c hc d hd hcd).before
    have hadd : (d + 4#32 - c).toNat = (d - c).toNat + 4 := by
      bv_omega
    apply readWord_writeWord_of_sub m x
    · omega
    · omega

theorem esp_ne_esp {c d : CtxPtr} (hc : c ∈ s.ctxs) (hd : d ∈ s.ctxs) (hcd : c ≠ d) (m : ByteMem)
    (x : BitVec 32) : readWord (writeWord m c x) d = readWord m d := by
  have hb := (hs.apart c hc d hd hcd).behind
  have hf := (hs.apart c hc d hd hcd).before
  apply readWord_writeWord_of_sub m x
  · omega
  · omega

end Sound

/-- The processor on the flat memories. -/
def flat (s : Tasks) : Cpu (FlatSpace s.layout) := s.cpu.flat s.layout

/-- The flat memories behind a switch. -/
def behindSwitch (activeCtx : BitVec 32) (s : Tasks) : SharedMem :=
  exchanged activeCtx (s.active activeCtx) s.target (s.cpu.reg .esp - 16#32)
    (s.flat.mem.become (pushed s.view (s.cpu.reg .esp) (calleeSaved s.flat))).flat

section Switch

variable (hs : s.Sound activeCtx) (hc : s.CanSwitch activeCtx)

include hs hc

theorem owns_stack : s.flat.mem.Owns (s.cpu.reg .esp - 16#32) 24 := by
  refine ⟨hs.cr3_mem, fun k hk => ?_, fun k hk => (hc.room k hk).2⟩
  have h := (hc.room k hk).1
  rw [← hs.cr3] at h
  exact h

omit hc in
/-- The stack below the stack pointer is the only private memory that changes. -/
theorem behindSwitch_private {d : BitVec 20} {w : BitVec 32} (hw : w ∉ s.layout.shared) :
    behindSwitch activeCtx s d w = if d = s.cpu.mem.cr3 then
      pushed s.view (s.cpu.reg .esp) (calleeSaved s.flat) w
    else s.layout.view s.cpu.mem.mem d w := by
  rw [behindSwitch, exchanged, writeWord_of_notIn hs.variable_shared hw,
    writeWord_of_notIn (hs.placed _ hs.active).esp hw, FlatSpace.become_flat, ite_apply]
  rfl

/-- What becomes of the shared words. -/
theorem behindSwitch_shared {d : BitVec 20} {v : BitVec 32} (hd : d ∈ s.layout.dirs)
    (hv : WordIn s.layout.shared v) : readWord (behindSwitch activeCtx s d) v =
      readWord (writeWord (writeWord s.view (s.active activeCtx) (s.cpu.reg .esp - 16#32))
        activeCtx s.target) v := by
  refine readWord_congr fun k hk => ?_
  have hstack : pushed s.view (s.cpu.reg .esp) (calleeSaved s.flat) (v + k) = s.view (v + k) := by
    refine pushed_above _ _ _ (by simp [calleeSaved_length]) ?_
    by_contra hlt
    apply ((owns_stack hs hc).mono (by decide : 16 ≤ 24)).not_shared _ (Nat.not_le.mp hlt)
    rw [calleeSaved_length, BitVec.add_comm]
    exact BitVec.sub_add_cancel .. ▸ hv k hk
  have hbase : (s.flat.mem.become (pushed s.view (s.cpu.reg .esp) (calleeSaved s.flat))).flat d
      (v + k) = s.view (v + k) := by
    rw [FlatSpace.become_flat, ite_apply, hstack]
    split
    · rfl
    · exact congrArg s.cpu.mem.mem.byte (s.layout.common d hd _ hs.cr3_mem _ (hv k hk))
  simp only [behindSwitch, exchanged, writeWord, hbase]

theorem behindSwitch_active {d : BitVec 20} (hd : d ∈ s.layout.dirs) :
    readWord (behindSwitch activeCtx s d) activeCtx = s.target := by
  rw [behindSwitch_shared hs hc hd hs.variable_shared, readWord_writeWord_self]

theorem behindSwitch_esp {d : BitVec 20} {c : CtxPtr} (hd : d ∈ s.layout.dirs) (hcm : c ∈ s.ctxs) :
    readWord (behindSwitch activeCtx s d) c =
      if c = s.active activeCtx then s.cpu.reg .esp - 16#32 else s.espOf c := by
  rw [behindSwitch_shared hs hc hd (hs.placed c hcm).esp, hs.esp_ne_active hcm]
  split
  · next he => rw [he, readWord_writeWord_self]
  · next hne => rw [hs.esp_ne_esp hs.active hcm (Ne.symm hne), espOf]

theorem behindSwitch_dir {d : BitVec 20} {c : CtxPtr} (hd : d ∈ s.layout.dirs) (hcm : c ∈ s.ctxs) :
    readWord (behindSwitch activeCtx s d) (c + 4#32) = readWord s.view (c + 4#32) := by
  rw [behindSwitch_shared hs hc hd (hs.placed c hcm).pageDirectory, hs.dir_ne_active hcm,
    hs.dir_ne_esp hs.active hcm]

/-- The frame that the target is resumed from is its own. -/
theorem target_frame (k : BitVec 32) (hk : k < 20#32) :
    (if s.target = s.active activeCtx then s.cpu.reg .esp - 16#32 else s.espOf s.target) + k ∈
      s.own s.target := by
  split
  · next he =>
      rw [he]
      exact hc.room k (by bv_omega)
  · next hne => exact hs.framed _ hc.target hne k hk

/-- A call of `context_switch` returns to the target. -/
theorem switch_spec : ∃ t, s.step activeCtx .switch = some t ∧ Switched activeCtx s t := by
  have hd := (hs.placed _ hc.target).dir
  obtain ⟨f, hf, hfm, hfk⟩ := run_contextSwitch (c := s.flat) (owns_stack hs hc)
    hs.variable_shared rfl (hs.placed _ hs.active).esp rfl (hs.placed _ hc.target).esp
    (hs.placed _ hc.target).pageDirectory rfl (behindSwitch_esp hs hc hs.cr3_mem hc.target)
    (behindSwitch_dir hs hc hs.cr3_mem hc.target) (by
      intro i hi
      refine ⟨hd, fun k hk => ?_⟩
      rw [BitVec.add_assoc]
      exact (target_frame hs hc _ (by bv_omega)).1)
  obtain ⟨cpu, hcpu, hrel⟩ := (Cpu.rel_flat hs.fits).run FlatSpace.refines hf
  have hcr3 : cpu.mem.cr3 = s.dirOf s.target := by
    rw [hrel.mem.cr3, hfm]
    rfl
  have hshows : s.layout.Shows cpu.mem.mem (behindSwitch activeCtx s) := by
    have h := hrel.mem.shows
    rw [hfm] at h
    exact h
  refine ⟨{ s with cpu }, by rw [step, hcpu, Option.map_some], ?_⟩
  -- what the new address space sees of the shared words
  have hword : ∀ v, WordIn s.layout.shared v → readWord (view { s with cpu }) v =
      readWord (behindSwitch activeCtx s (s.dirOf s.target)) v := by
    intro v hv
    rw [view, hcr3]
    exact hshows.readWord_view hd (hv.mono (s.layout.shared_subset _ hd))
  have hactive : active activeCtx { s with cpu } = s.target := by
    rw [active, hword _ hs.variable_shared, behindSwitch_active hs hc hd]
  have hdir : ∀ c ∈ s.ctxs, dirOf { s with cpu } c = s.dirOf c := by
    intro c hcm
    rw [dirOf, hword _ (hs.placed c hcm).pageDirectory, behindSwitch_dir hs hc hd hcm, dirOf]
  have hesp : ∀ c ∈ s.ctxs, espOf { s with cpu } c =
      if c = s.active activeCtx then s.cpu.reg .esp - 16#32 else s.espOf c := by
    intro c hcm
    rw [espOf, hword _ (hs.placed c hcm).esp, behindSwitch_esp hs hc hd hcm]
  have hmem : ∀ c ∈ s.ctxs, ∀ v ∈ s.own c, memOf { s with cpu } c v =
      behindSwitch activeCtx s (s.dirOf c) v := by
    intro c hcm v hv
    rw [memOf, hdir c hcm]
    exact hshows.byte _ (hs.placed c hcm).dir v hv.1
  have hmemActive : ∀ v ∈ s.own (s.active activeCtx), memOf { s with cpu } (s.active activeCtx) v =
      pushed s.view (s.cpu.reg .esp) (calleeSaved s.flat) v := by
    intro v hv
    rw [hmem _ hs.active v hv, behindSwitch_private hs hv.2, ← hs.cr3, if_pos rfl]
  refine ⟨rfl, rfl, hshows.fits, hactive, hcr3, hdir, fun c hcm hne => ?_, ?_,
    fun c hcm hne v hv => ?_, fun v hv hout => ?_, ?_, ?_⟩
  · rw [hesp c hcm, if_neg hne]
  · rw [hesp _ hs.active, if_pos rfl]
  · have hapart := (hs.apart c hcm _ hs.active hne).dir
    rw [← hs.cr3] at hapart
    rw [hmem c hcm v hv, behindSwitch_private hs hv.2, if_neg hapart, memOf]
  · rw [hmemActive v hv, hs.memOf_active]
    refine pushed_above _ _ _ (by simp [calleeSaved_length]) ?_
    exact Nat.not_lt.mp hout
  · rw [saved, hesp _ hs.active, if_pos rfl]
    refine (onStack_congr fun k hk => hmemActive _ (hc.room k (by bv_omega))).trans ?_
    exact onStack_pushed s.flat s.view
  · have hnow : Kept.now cpu = Kept.now f := by
      rw [Kept.now, Kept.now, hrel.reg, hrel.eip]
    rw [hnow, hfk, saved, hesp _ hc.target]
    exact (onStack_congr fun k hk => hmem _ hc.target _ (target_frame hs hc k hk)).symm

end Switch

theorem Switched.own (h : Switched activeCtx s t) {c : CtxPtr}
    (hc : c ∈ s.ctxs) : t.own c = s.own c := by
  rw [Tasks.own, h.dir c hc, h.layout, Tasks.own]

theorem Switched.sound (hs : s.Sound activeCtx) (hc : s.CanSwitch activeCtx)
    (h : Switched activeCtx s t) : t.Sound activeCtx := by
  refine ⟨h.fits, h.layout ▸ hs.variable_shared, ?_, ?_, fun c hcm => ?_, fun c hcm d hdm hne => ?_,
    fun c hcm hne k hk => ?_⟩
  · rw [h.active, h.ctxs]
    exact hc.target
  · rw [h.active, h.cr3, h.dir _ hc.target]
  · rw [h.ctxs] at hcm
    have hp := hs.placed c hcm
    refine ⟨?_, h.layout ▸ hp.esp, h.layout ▸ hp.pageDirectory, hp.behind, hp.before⟩
    rw [h.dir c hcm, h.layout]
    exact hp.dir
  · rw [h.ctxs] at hcm hdm
    have ha := hs.apart c hcm d hdm hne
    refine ⟨?_, ha.behind, ha.before⟩
    rw [h.dir c hcm, h.dir d hdm]
    exact ha.dir
  · rw [h.ctxs] at hcm
    rw [h.own hcm]
    by_cases he : c = s.active activeCtx
    · rw [he, h.esp_active]
      exact hc.room k (by bv_omega)
    · rw [h.esp c hcm he]
      exact hs.framed c hcm he k hk

section Own

variable (hs : s.Sound activeCtx) (h : s.Own activeCtx t)

include hs h

theorem Own.wordIn {v : BitVec 32} (hv : WordIn s.layout.shared v) : WordIn t.layout.shared v :=
  fun k hk => (h.shared _ hs.cr3_mem _ (s.layout.shared_subset _ hs.cr3_mem (hv k hk))).mpr
    (hv k hk)

theorem Own.own_subset {c : CtxPtr} (hc : c ∈ s.ctxs) : s.own c ⊆ t.own c := by
  have hd := (hs.placed c hc).dir
  rintro v ⟨hv, hnot⟩
  refine ⟨?_, fun hin => hnot ((h.shared _ hd v hv).mp hin)⟩
  rw [h.dir c hc]
  exact h.addrs _ hd hv

theorem Own.sound : t.Sound activeCtx := by
  refine ⟨h.fits, h.wordIn hs hs.variable_shared, ?_, ?_, fun c hcm => ?_,
    fun c hcm d hdm hne => ?_, fun c hcm hne => ?_⟩
  · rw [h.active]
    exact h.ctxs hs.active
  · rw [h.cr3, h.active, h.dir _ hs.active, hs.cr3]
  · by_cases hold : c ∈ s.ctxs
    · have hp := hs.placed c hold
      refine ⟨?_, h.wordIn hs hp.esp, h.wordIn hs hp.pageDirectory, hp.behind, hp.before⟩
      rw [h.dir c hold]
      exact h.dirs hp.dir
    · exact (h.created c hcm hold).1
  · by_cases hold : c ∈ s.ctxs
    · by_cases hold' : d ∈ s.ctxs
      · have ha := hs.apart c hold d hold' hne
        refine ⟨?_, ha.behind, ha.before⟩
        rw [h.dir c hold, h.dir d hold']
        exact ha.dir
      · exact ((h.created d hdm hold').2.2 c hcm hne).2
    · exact ((h.created c hcm hold).2.2 d hdm (Ne.symm hne)).1
  · by_cases hold : c ∈ s.ctxs
    · rw [h.active] at hne
      intro k hk
      rw [h.esp c hold hne]
      exact h.own_subset hs hold (hs.framed c hold hne k hk)
    · exact (h.created c hcm hold).2.1

/-- The others still have what they saved. -/
theorem Own.saved {c : CtxPtr} (hc : c ∈ s.ctxs) (hne : c ≠ s.active activeCtx) :
    t.saved c = s.saved c := by
  rw [Tasks.saved, h.esp c hc hne, Tasks.saved]
  exact onStack_congr fun k hk => h.mem c hc hne _ (hs.framed c hc hne k hk)

end Own

/-- The context `c` waits to go on as `k`, with the private memory of `s` on `A`, or it has
    just gone on. -/
structure Waits (activeCtx : BitVec 32) (s : Tasks) (c : CtxPtr) (k : Kept) (A : Set (BitVec 32))
    (t : Tasks) : Prop where
  sound : t.Sound activeCtx
  mem_ctxs : c ∈ t.ctxs
  subset : A ⊆ t.own c
  mem : ∀ v ∈ A, t.memOf c v = s.memOf c v
  waiting : t.active activeCtx ≠ c → t.saved c = k
  resumed : t.active activeCtx = c → Kept.now t.cpu = k

/-- Steps of the other contexts. -/
theorem Waits.step {c : CtxPtr} {k : Kept} {A : Set (BitVec 32)} {u v : Tasks}
    (h : Waits activeCtx s c k A u) (hne : u.active activeCtx ≠ c) {op : Op}
    (hop : u.Allowed activeCtx op) (hv : u.step activeCtx op = some v) :
    Waits activeCtx s c k A v := by
  cases op with
  | own t =>
      obtain rfl := Option.some.inj hv
      have hown : u.Own activeCtx t := hop
      refine ⟨hown.sound h.sound, hown.ctxs h.mem_ctxs,
        h.subset.trans (hown.own_subset h.sound h.mem_ctxs), fun w hw => ?_, fun _ => ?_,
        fun he => ?_⟩
      · rw [hown.mem c h.mem_ctxs hne.symm w (h.subset hw), h.mem w hw]
      · rw [hown.saved h.sound h.mem_ctxs hne.symm, h.waiting hne]
      · rw [hown.active] at he
        exact absurd he hne
  | switch =>
      obtain ⟨t, ht, hsw⟩ := switch_spec h.sound hop
      obtain rfl := Option.some.inj (hv.symm.trans ht)
      have hsaved : v.saved c = k := by
        rw [← h.waiting hne, saved, hsw.esp c h.mem_ctxs hne.symm, saved]
        exact onStack_congr fun j hj =>
          hsw.mem c h.mem_ctxs hne.symm _ (h.sound.framed c h.mem_ctxs hne.symm j hj)
      refine ⟨hsw.sound h.sound hop, hsw.ctxs ▸ h.mem_ctxs, ?_, fun w hw => ?_, fun _ => hsaved,
        fun he => ?_⟩
      · rw [hsw.own h.mem_ctxs]
        exact h.subset
      · rw [hsw.mem c h.mem_ctxs hne.symm w (h.subset hw), h.mem w hw]
      · rw [hsw.active] at he
        rw [hsw.resumed, he, hsaved]

/-- A switch that begins the waiting. -/
theorem Switched.waits (hs : s.Sound activeCtx) (hc : s.CanSwitch activeCtx)
    (h : Switched activeCtx s t) : Waits activeCtx s (s.active activeCtx) s.called
      { v | v ∈ s.own (s.active activeCtx) ∧ ¬ v - (s.cpu.reg .esp - 16#32) < 16#32 } t := by
  refine ⟨h.sound hs hc, h.ctxs ▸ hs.active, fun v hv => ?_, fun v hv => h.mem_active v hv.1 hv.2,
    fun _ => h.saved_active, fun he => ?_⟩
  · rw [h.own hs.active]
    exact hv.1
  · rw [h.active] at he
    rw [h.resumed, he, h.saved_active]

/-- A call of `context_switch` returns to its caller. Whatever the other contexts do in the
    meantime, the caller goes on behind the call with its registers, its stack and its private
    memory as they were; and as long as it waits, every further switch succeeds. -/
theorem context_switch_returns (activeCtx : BitVec 32) {s t u : Tasks} (hs : s.Sound activeCtx)
    (hc : s.CanSwitch activeCtx) (ht : s.step activeCtx .switch = some t)
    (hr : Reaches (fun x op => x.step activeCtx op) (fun x op => x.Allowed activeCtx op ∧
      x.active activeCtx ≠ s.active activeCtx) t u) :
    (u.active activeCtx = s.active activeCtx → Kept.now u.cpu = s.called ∧
      ∀ v ∈ s.own (s.active activeCtx), ¬ v - (s.cpu.reg .esp - 16#32) < 16#32 →
        u.view v = s.view v) ∧
    (u.CanSwitch activeCtx →
      ∃ v, u.step activeCtx .switch = some v ∧ v.active activeCtx = u.target) := by
  obtain ⟨t', ht', hsw⟩ := switch_spec hs hc
  obtain rfl := Option.some.inj (ht.symm.trans ht')
  have hwaits := hr.invariant (hsw.waits hs hc) fun x op y hx hok hxy => hx.step hok.2 hok.1 hxy
  refine ⟨fun he => ⟨hwaits.resumed he, fun v hv hout => ?_⟩, fun hu => ?_⟩
  · have hmem := hwaits.mem v ⟨hv, hout⟩
    rw [hs.memOf_active, ← he, hwaits.sound.memOf_active] at hmem
    exact hmem
  · obtain ⟨v, hv, hsw'⟩ := switch_spec hwaits.sound hu
    exact ⟨v, hv, hsw'.active⟩

/-! Two contexts, each with a stack page of its own at the same address. -/

/-- The frames 1 and 2 are directories, 3 to 5 are tables, 6 is the shared page, and 7 and 8 are the
    stacks. -/
def pairMem : PhysMem := fun f k =>
  if (f = 1#20 ∨ f = 2#20) ∧ k = 512#10 then 0x3001#32
  else if f = 1#20 ∧ k = 1022#10 then 0x4001#32
  else if f = 2#20 ∧ k = 1022#10 then 0x5001#32
  else if f = 3#20 ∧ k = 0#10 then 0x6001#32
  else if f = 4#20 ∧ k = 255#10 then 0x7001#32
  else if f = 5#20 ∧ k = 255#10 then 0x8001#32
  else if f = 6#20 ∧ k = 0#10 then 0x80000010#32
  else if f = 6#20 ∧ k = 5#10 then 0x1000#32
  else if f = 6#20 ∧ k = 8#10 then 0xFF8FF100#32
  else if f = 6#20 ∧ k = 9#10 then 0x2000#32
  else if f = 7#20 ∧ k = 129#10 then 0x80000020#32
  else if f = 8#20 ∧ k = 70#10 then 0x80000010#32
  else 0#32

def pairFrame (d page : BitVec 20) : BitVec 20 :=
  if page = 0x80000#20 then 6#20 else if d = 1#20 then 7#20 else 8#20

def pairLayout : Layout where
  dirs := {1#20, 2#20}
  addrs _ := { v | pageOf v = 0x80000#20 ∨ pageOf v = 0xFF8FF#20 }
  place d v := (pairFrame d (pageOf v), v.extractLsb' 0 12)
  shared := { v | pageOf v = 0x80000#20 }
  shared_subset := fun _ _ _ hv => .inl hv
  common := by
    intro d _ e _ v (hv : pageOf v = 0x80000#20)
    simp only [pairFrame, hv, if_true]
  apart := by
    rintro d hd e he v hv w hw heq
    obtain ⟨hframe, hoffset⟩ := Prod.mk.inj heq
    have hpage : pageOf v = pageOf w ∧ (d = e ∨ pageOf v = 0x80000#20) := by
      rcases hd with rfl | rfl <;> rcases he with rfl | rfl <;> rcases hv with hv | hv <;>
        rcases hw with hw | hw <;> rw [hv, hw] at hframe ⊢ <;> revert hframe <;> decide
    exact ⟨eq_of_page_offset hpage.1 hoffset, hpage.2⟩

def pairTasks : Tasks where
  layout := pairLayout
  ctxs := {0x80000010#32, 0x80000020#32}
  cpu := ⟨fun r => if r = .esp then 0xFF8FF200#32 else 0x1234#32, fun _ => 0#16, 0#32, 0#32,
    ⟨pairMem, 1#20⟩⟩

theorem pairLayout_fits : pairLayout.Fits pairMem := by
  refine ⟨fun d hd v hv => ?_, fun d hd e he v hv w hw => ?_⟩
  · rw [Space.place_eq_some]
    refine ⟨?_, rfl⟩
    show Space.frameOf ⟨pairMem, d⟩ v = some (pairFrame d (pageOf v))
    rcases hv with hv | hv
    · rw [Space.frameOf, Space.pte, Space.pde, (indices_of_page hv).1, (indices_of_page hv).2, hv]
      rcases hd with rfl | rfl <;> decide
    · rw [Space.frameOf, Space.pte, Space.pde, (indices_of_page hv).1, (indices_of_page hv).2, hv]
      rcases hd with rfl | rfl <;> decide
  · show e ≠ pairFrame d (pageOf v) ∧ frame (pairMem e (dirIdx w)) ≠ pairFrame d (pageOf v)
    rcases hw with hw | hw
    · rw [(indices_of_page hw).1]
      rcases hv with hv | hv <;> rw [hv] <;> rcases hd with rfl | rfl <;>
        rcases he with rfl | rfl <;> decide
    · rw [(indices_of_page hw).1]
      rcases hv with hv | hv <;> rw [hv] <;> rcases hd with rfl | rfl <;>
        rcases he with rfl | rfl <;> decide

theorem pairLayout_shared {v : BitVec 32} (hv : pageOf v = 0x80000#20)
    (h : v.toNat % 4096 + 4 ≤ 4096) : WordIn pairLayout.shared v := by
  intro k hk
  have hlt : k.toNat < 4 := hk
  exact (pageOf_add (by omega)).trans hv

theorem pairLayout_own {s : Tasks} (hl : s.layout = pairLayout) {c : CtxPtr} {v k : BitVec 32}
    (hv : pageOf v = 0xFF8FF#20) (h : v.toNat % 4096 + k.toNat < 4096) : v + k ∈ s.own c := by
  have hp : pageOf (v + k) = 0xFF8FF#20 := (pageOf_add h).trans hv
  rw [own, hl]
  refine ⟨.inr hp, fun hs => ?_⟩
  have hs : pageOf (v + k) = 0x80000#20 := hs
  rw [hp] at hs
  exact absurd hs (by decide)

theorem pairTasks_active : pairTasks.active 0x80000000#32 = 0x80000010#32 := by decide

theorem pairTasks_sound : pairTasks.Sound 0x80000000#32 := by
  refine ⟨pairLayout_fits, pairLayout_shared (by decide) (by decide), ?_, ?_, ?_, ?_, ?_⟩
  · rw [pairTasks_active]
    exact .inl rfl
  · rw [pairTasks_active]
    decide
  · rintro c (rfl | rfl)
    · exact ⟨.inl (by decide), pairLayout_shared (by decide) (by decide),
        pairLayout_shared (by decide) (by decide), by decide, by decide⟩
    · exact ⟨.inr (by decide : pairTasks.dirOf 0x80000020#32 = 2#20),
        pairLayout_shared (by decide) (by decide),
        pairLayout_shared (by decide) (by decide), by decide, by decide⟩
  · rintro c (rfl | rfl) d (rfl | rfl) hne
    · exact absurd rfl hne
    · exact ⟨by decide, by decide, by decide⟩
    · exact ⟨by decide, by decide, by decide⟩
    · exact absurd rfl hne
  · rintro c (rfl | rfl) hne k hk
    · exact absurd pairTasks_active.symm hne
    · have hesp : pairTasks.espOf 0x80000020#32 = 0xFF8FF100#32 := by decide
      have hlt : k.toNat < 20 := hk
      rw [hesp]
      exact pairLayout_own rfl (by decide)
        (Nat.lt_of_lt_of_le (Nat.add_lt_add_left hlt _) (by decide))

theorem pairTasks_canSwitch : pairTasks.CanSwitch 0x80000000#32 := by
  refine ⟨.inr (by decide : pairTasks.target = 0x80000020#32), fun k hk => ?_⟩
  have hlt : k.toNat < 24 := hk
  exact pairLayout_own rfl (by decide)
    (Nat.lt_of_lt_of_le (Nat.add_lt_add_left hlt _) (by decide))

/-- To the second context and back. -/
theorem context_switch_returns_pair : ∃ t u, pairTasks.step 0x80000000#32 .switch = some t ∧
    t.active 0x80000000#32 = 0x80000020#32 ∧ t.step 0x80000000#32 .switch = some u ∧
    Kept.now u.cpu = pairTasks.called := by
  obtain ⟨t, ht, hsw⟩ := switch_spec pairTasks_sound pairTasks_canSwitch
  have htarget : pairTasks.target = 0x80000020#32 := by decide
  have hmem : (0x80000020#32 : CtxPtr) ∈ pairTasks.ctxs := .inr rfl
  have hne : (0x80000020#32 : CtxPtr) ≠ pairTasks.active 0x80000000#32 := by
    rw [pairTasks_active]
    decide
  -- the second context calls `context_switch` with the first one as soon as it is active
  have hesp : t.cpu.reg .esp = 0xFF8FF114#32 := by
    have h := congrArg Kept.esp hsw.resumed
    rw [htarget] at h
    refine h.trans (?_ : t.espOf 0x80000020#32 + 20#32 = _)
    rw [hsw.esp _ hmem hne]
    decide
  have hview : ∀ v ∈ pairTasks.own 0x80000020#32, t.view v = pairTasks.memOf 0x80000020#32 v := by
    intro v hv
    rw [← hsw.mem _ hmem hne v hv, memOf, hsw.dir _ hmem, ← htarget, ← hsw.cr3]
    rfl
  have hback : t.target = 0x80000010#32 := by
    have hword : readWord t.view 0xFF8FF118#32 =
        readWord (pairTasks.memOf 0x80000020#32) 0xFF8FF118#32 := by
      refine readWord_congr fun k hk => hview _ ?_
      have hlt : k.toNat < 4 := hk
      exact pairLayout_own rfl (by decide)
        (Nat.lt_of_lt_of_le (Nat.add_lt_add_left hlt _) (by decide))
    rw [target, hesp]
    refine hword.trans ?_
    decide
  have hcan : t.CanSwitch 0x80000000#32 := by
    refine ⟨?_, fun k hk => ?_⟩
    · rw [hback, hsw.ctxs]
      exact .inl rfl
    · have hlt : k.toNat < 24 := hk
      rw [hesp]
      exact pairLayout_own hsw.layout (by decide)
        (Nat.lt_of_lt_of_le (Nat.add_lt_add_left hlt _) (by decide))
  obtain ⟨u, hu, hactive⟩ := (context_switch_returns 0x80000000#32 pairTasks_sound
    pairTasks_canSwitch ht .refl).2 hcan
  have hreach : Reaches (fun x op => x.step 0x80000000#32 op)
      (fun x op => x.Allowed 0x80000000#32 op ∧
        x.active 0x80000000#32 ≠ pairTasks.active 0x80000000#32) t u := by
    refine .tail (a := .switch) .refl ⟨hcan, ?_⟩ hu
    rw [hsw.active, htarget]
    exact hne
  have h := (context_switch_returns 0x80000000#32 pairTasks_sound pairTasks_canSwitch ht hreach).1
  rw [hactive, hback, pairTasks_active] at h
  exact ⟨t, u, ht, hsw.active.trans htarget, hu, (h rfl).1⟩

end Tasks

end Muse.Scheduler
