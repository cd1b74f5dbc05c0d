import Muse.Scheduler.Switch

/-!
# What `context_switch` does

The code is run on the flat memories of the address spaces, in three parts: it saves four registers
on the stack of the active context, exchanges the stack pointers and the page directories, and takes
the registers of the other context off its stack.
-/

namespace Muse.Scheduler

open Muse.Library Muse.Library.X86

/-- What `context_switch` pushes. -/
def calleeSaved {μ : Type} (c : Cpu μ) : List (BitVec 32) :=
  [c.reg .ebx, c.reg .esi, c.reg .edi, c.reg .ebp]

theorem calleeSaved_length {μ : Type} (c : Cpu μ) : (calleeSaved c).length = 4 := rfl

/-- The pushed registers are those that are taken off the stack. -/
theorem onStack_pushed {μ : Type} (c : Cpu μ) (m : ByteMem) :
    Kept.onStack (pushed m (c.reg .esp) (calleeSaved c)) (c.reg .esp - 16#32) =
      Kept.atCall c m := by
  have hlen : 4 * (calleeSaved c).length ≤ 2 ^ 32 := by
    rw [calleeSaved_length]
    decide
  have hword := fun i x (hx : (calleeSaved c)[i]? = some x) =>
    readWord_pushed m (c.reg .esp) (calleeSaved c) hx hlen
  have h4 : c.reg .esp - 16#32 + 4#32 = c.reg .esp - 12#32 := by bv_omega
  have h8 : c.reg .esp - 16#32 + 8#32 = c.reg .esp - 8#32 := by bv_omega
  have h12 : c.reg .esp - 16#32 + 12#32 = c.reg .esp - 4#32 := by bv_omega
  have h16 : c.reg .esp - 16#32 + 16#32 = c.reg .esp := by bv_omega
  have h20 : c.reg .esp - 16#32 + 20#32 = c.reg .esp + 4#32 := by bv_omega
  have hbase : c.reg .esp - (c.reg .esp - 16#32) = 16#32 := by bv_omega
  have hret : readWord (pushed m (c.reg .esp) (calleeSaved c)) (c.reg .esp) =
      readWord m (c.reg .esp) := by
    apply readWord_pushed_above
    · show 16 ≤ (c.reg .esp - (c.reg .esp - 16#32)).toNat
      rw [hbase]
      decide
    · show (c.reg .esp - (c.reg .esp - 16#32)).toNat + 4 ≤ 2 ^ 32
      rw [hbase]
      decide
  rw [Kept.onStack, Kept.atCall, h4, h8, h12, h16, h20, hret, Kept.mk.injEq]
  exact ⟨hword 0 _ rfl, hword 1 _ rfl, hword 2 _ rfl, hword 3 _ rfl, rfl, rfl⟩

/-- The words from `esp` on are what the end of `context_switch` takes off the stack. -/
structure Kept.LoadedFrom {μ : Type} [Memory μ] (mem : μ) (esp : BitVec 32) (k : Kept) : Prop where
  ebp : Memory.load mem esp = some k.ebp
  edi : Memory.load mem (esp + 4#32) = some k.edi
  esi : Memory.load mem (esp + 8#32) = some k.esi
  ebx : Memory.load mem (esp + 12#32) = some k.ebx
  eip : Memory.load mem (esp + 16#32) = some k.eip
  esp : k.esp = esp + 20#32

/-- The last five instructions. -/
theorem run_resume {μ : Type} [Memory μ] {c : Cpu μ} {k : Kept}
    (h : k.LoadedFrom c.mem (c.reg .esp)) :
    ∃ c', c.run [.pop (.reg .ebp), .pop (.reg .edi), .pop (.reg .esi), .pop (.reg .ebx), .ret] =
      some c' ∧ c'.mem = c.mem ∧ Kept.now c' = k := by
  have hzero : c.reg .esp + BitVec.ofNat 32 (4 * 0) = c.reg .esp := BitVec.add_zero _
  obtain ⟨d, hd, hp⟩ := @Cpu.run_pops _ _ c [.reg .ebp, .reg .edi, .reg .esi, .reg .ebx]
    (by decide) (by decide) fun i hi => by
      match i, hi with
      | 0, _ => rw [hzero, h.ebp]; rfl
      | 1, _ => exact Option.isSome_iff_exists.mpr ⟨_, h.edi⟩
      | 2, _ => exact Option.isSome_iff_exists.mpr ⟨_, h.esi⟩
      | 3, _ => exact Option.isSome_iff_exists.mpr ⟨_, h.ebx⟩
  have hret : Memory.load d.mem (d.reg .esp) = some k.eip := by
    rw [hp.mem, hp.esp]
    exact h.eip
  refine ⟨{ d.setReg .esp (d.reg .esp + 4#32) with eip := k.eip }, ?_, hp.mem, ?_⟩
  · show c.run ([Dest.reg .ebp, .reg .edi, .reg .esi, .reg .ebx].map .pop ++ [.ret]) = _
    rw [Cpu.run_append, hd]
    simp only [Option.bind_some, Cpu.run, Cpu.exec, Cpu.pop, hret]
    rfl
  · have hebp := hp.word 0 .ebp rfl
    rw [hzero, h.ebp] at hebp
    have hedi := Option.some.inj (h.edi.symm.trans (hp.word 1 .edi rfl))
    have hesi := Option.some.inj (h.esi.symm.trans (hp.word 2 .esi rfl))
    have hebx := Option.some.inj (h.ebx.symm.trans (hp.word 3 .ebx rfl))
    have hesp : d.reg .esp + 4#32 = k.esp := by
      rw [hp.esp, h.esp, BitVec.add_assoc]
      rfl
    have hnow : Kept.now { d.setReg .esp (d.reg .esp + 4#32) with eip := k.eip } =
        ⟨d.reg .ebx, d.reg .esi, d.reg .edi, d.reg .ebp, k.esp, k.eip⟩ := by
      rw [← hesp]
      simp [Kept.now, Cpu.setReg]
    rw [hnow, ← hebx, ← hesi, ← hedi, ← Option.some.inj hebp]

section Flat

variable {L : Layout} {c : Cpu (FlatSpace L)}

/-- The first four instructions. -/
theorem run_save (h : c.mem.Owns (c.reg .esp - 16#32) 16) :
    c.run [.push (.reg .ebx), .push (.reg .esi), .push (.reg .edi), .push (.reg .ebp)] =
      some ((c.setMem (c.mem.become (pushed (c.mem.flat c.mem.cr3) (c.reg .esp)
        (calleeSaved c)))).setReg .esp (c.reg .esp - 16#32)) := by
  refine @Cpu.run_pushes _ c [.reg .ebx, .reg .esi, .reg .edi, .reg .ebp] (calleeSaved c)
    ?_ rfl ?_ h
  · simp [Source.Stable]
  · simp [calleeSaved_length]

/-- A load of a word that every space has. -/
theorem exec_load {o : Operand} {v : BitVec 32} (dst : Reg) (hv : c.addr o = v)
    (h : c.mem.Has v) :
    c.exec (.load o dst) = some (c.setReg dst (readWord (c.mem.flat c.mem.cr3) v)) := by
  rw [Cpu.exec, hv, FlatSpace.load_eq h]
  rfl

/-- A store to a shared word is seen by every space. -/
theorem exec_store_shared {o : Operand} {v : BitVec 32} (src : Reg) (hv : c.addr o = v)
    (h : c.mem.Has v) (hs : WordIn L.shared v) :
    c.exec (.store src o) = some (c.setMem
      { c.mem with flat := fun e => writeWord (c.mem.flat e) v (c.reg src) }) := by
  rw [Cpu.exec, hv, FlatSpace.store_eq h, Option.bind_eq_bind, Option.bind_some]
  congr 3
  funext e
  exact SharedMem.write_shared _ hs _

theorem has_of_shared {s : FlatSpace L} {v : BitVec 32} (hd : s.cr3 ∈ L.dirs)
    (h : WordIn L.shared v) : s.Has v :=
  ⟨hd, h.mono (L.shared_subset _ hd)⟩

/-- The memories after `context_switch` has stored the stack pointer of the context `old` and made
    `new` the active one. -/
def exchanged (activeCtx old new esp : BitVec 32) (flat : SharedMem) : SharedMem :=
  fun e => writeWord (writeWord (flat e) old esp) activeCtx new

/-- The next seven instructions. -/
theorem run_exchange {activeCtx old new dir : BitVec 32} {flat : SharedMem}
    (hd : c.mem.cr3 ∈ L.dirs) (ha : WordIn L.shared activeCtx)
    (hold : readWord (c.mem.flat c.mem.cr3) activeCtx = old) (ho : WordIn L.shared old)
    (harg : WordIn (L.addrs c.mem.cr3) (c.reg .esp + 20#32))
    (hnew : readWord (writeWord (c.mem.flat c.mem.cr3) old (c.reg .esp)) (c.reg .esp + 20#32) = new)
    (hn : WordIn L.shared new) (hn' : WordIn L.shared (new + 4#32))
    (hflat : exchanged activeCtx old new (c.reg .esp) c.mem.flat = flat)
    (hdir : readWord (flat c.mem.cr3) (new + 4#32) = dir) :
    ∃ c', c.run [.load ⟨none, activeCtx⟩ .esi, .store .esp ⟨some .esi, 0#32⟩,
        .load ⟨some .esp, 20#32⟩ .edi, .store .edi ⟨none, activeCtx⟩,
        .load ⟨some .edi, 0#32⟩ .esp, .load ⟨some .edi, 4#32⟩ .eax, .movCr3 .eax] = some c' ∧
      c'.mem = ⟨flat, frame dir⟩ ∧ c'.reg .esp = readWord (flat c.mem.cr3) new := by
  have hmem : ∀ (d : Cpu (FlatSpace L)) v, d.mem.cr3 = c.mem.cr3 → WordIn L.shared v →
      d.mem.Has v := fun d v he hv => has_of_shared (he ▸ hd) hv
  have h₁ : c.exec (.load ⟨none, activeCtx⟩ .esi) = some (c.setReg .esi old) := by
    rw [exec_load .esi (BitVec.zero_add _) (hmem c _ rfl ha), hold]
  obtain ⟨c₂, h₂, hm₂, hr₂⟩ : ∃ c₂, (c.setReg .esi old).exec (.store .esp ⟨some .esi, 0#32⟩) =
      some c₂ ∧ c₂.mem = ⟨fun e => writeWord (c.mem.flat e) old (c.reg .esp), c.mem.cr3⟩ ∧
        c₂.reg .esp = c.reg .esp :=
    ⟨_, exec_store_shared .esp (BitVec.add_zero _) (hmem _ _ rfl ho) ho, rfl, rfl⟩
  have h₃ : c₂.exec (.load ⟨some .esp, 20#32⟩ .edi) = some (c₂.setReg .edi new) := by
    have hv : c₂.addr ⟨some .esp, 20#32⟩ = c.reg .esp + 20#32 := by
      rw [← hr₂]
      rfl
    have hhas : c₂.mem.Has (c.reg .esp + 20#32) := by
      rw [hm₂]
      exact ⟨hd, harg⟩
    rw [exec_load .edi hv hhas, hm₂, hnew]
  obtain ⟨c₄, h₄, hm₄, hr₄⟩ : ∃ c₄, (c₂.setReg .edi new).exec (.store .edi ⟨none, activeCtx⟩) =
      some c₄ ∧ c₄.mem = ⟨flat, c.mem.cr3⟩ ∧ c₄.reg .edi = new := by
    refine ⟨_, exec_store_shared .edi (BitVec.zero_add _) (hmem _ _ ?_ ha) ha, ?_, ?_⟩
    · rw [Cpu.setReg, hm₂]
    · rw [← hflat]
      simp only [Cpu.setMem, Cpu.setReg, hm₂, Function.update_self]
      rfl
    · simp [Cpu.setMem, Cpu.setReg]
  have hcr3 : c₄.mem.cr3 = c.mem.cr3 := by rw [hm₄]
  have h₅ : c₄.exec (.load ⟨some .edi, 0#32⟩ .esp) =
      some (c₄.setReg .esp (readWord (flat c.mem.cr3) new)) := by
    have hv : c₄.addr ⟨some .edi, 0#32⟩ = new := by
      rw [← hr₄]
      exact BitVec.add_zero _
    rw [exec_load .esp hv (hmem _ _ hcr3 hn), hm₄]
  have h₆ : (c₄.setReg .esp (readWord (flat c.mem.cr3) new)).exec (.load ⟨some .edi, 4#32⟩ .eax) =
      some ((c₄.setReg .esp (readWord (flat c.mem.cr3) new)).setReg .eax dir) := by
    have hv : (c₄.setReg .esp (readWord (flat c.mem.cr3) new)).addr ⟨some .edi, 4#32⟩ =
        new + 4#32 := by
      rw [← hr₄]
      rfl
    have hm : (c₄.setReg .esp (readWord (flat c.mem.cr3) new)).mem = ⟨flat, c.mem.cr3⟩ := hm₄
    rw [exec_load .eax hv (hmem _ _ hcr3 hn'), hm, hdir]
  simp only [Cpu.run, h₁, h₂, h₃, h₄, h₅, h₆, Option.bind_some]
  refine ⟨_, rfl, ?_, ?_⟩
  · simp only [Cpu.setMem, Cpu.setReg, Function.update_self, hm₄]
    rfl
  · simp [Cpu.setMem, Cpu.setReg]

/-- Shared words are not on the stack. -/
theorem readWord_pushed_shared {esp v : BitVec 32} {xs : List (BitVec 32)} (m : ByteMem)
    (h : c.mem.Owns (esp - BitVec.ofNat 32 (4 * xs.length)) (4 * xs.length))
    (hn : 4 * xs.length ≤ 2 ^ 32) (hv : WordIn L.shared v) :
    readWord (pushed m esp xs) v = readWord m v := by
  refine readWord_congr fun k hk => pushed_above m esp xs hn ?_
  by_contra hlt
  apply h.not_shared _ (Nat.not_le.mp hlt)
  rw [BitVec.add_comm, BitVec.sub_add_cancel]
  exact hv k hk

/-- The whole of `context_switch`. -/
theorem run_contextSwitch {activeCtx old new esp dir : BitVec 32} {flat : SharedMem}
    (room : c.mem.Owns (c.reg .esp - 16#32) 24) (ha : WordIn L.shared activeCtx)
    (hold : readWord (c.mem.flat c.mem.cr3) activeCtx = old) (ho : WordIn L.shared old)
    (hnew : readWord (c.mem.flat c.mem.cr3) (c.reg .esp + 4#32) = new)
    (hn : WordIn L.shared new) (hn' : WordIn L.shared (new + 4#32))
    (hflat : exchanged activeCtx old new (c.reg .esp - 16#32) (c.mem.become
      (pushed (c.mem.flat c.mem.cr3) (c.reg .esp) (calleeSaved c))).flat = flat)
    (hesp : readWord (flat c.mem.cr3) new = esp)
    (hdir : readWord (flat c.mem.cr3) (new + 4#32) = dir)
    (hframe : ∀ i < 5, FlatSpace.Has (L := L) ⟨flat, frame dir⟩ (esp + BitVec.ofNat 32 (4 * i))) :
    ∃ c', c.run (contextSwitchCode activeCtx) = some c' ∧ c'.mem = ⟨flat, frame dir⟩ ∧
      Kept.now c' = Kept.onStack (flat (frame dir)) esp := by
  have hargv : c.reg .esp - 16#32 + 20#32 = c.reg .esp + 4#32 := by bv_omega
  have harg : c.mem.Owns (c.reg .esp + 4#32) 4 := by
    rw [← hargv]
    exact room.sub (by decide)
  obtain ⟨d, hd, hdm, hde⟩ : ∃ d, c.run [.push (.reg .ebx), .push (.reg .esi), .push (.reg .edi),
      .push (.reg .ebp)] = some d ∧ d.mem = c.mem.become (pushed (c.mem.flat c.mem.cr3)
        (c.reg .esp) (calleeSaved c)) ∧ d.reg .esp = c.reg .esp - 16#32 :=
    ⟨_, run_save (room.mono (by decide)), rfl, by simp [Cpu.setReg]⟩
  have hcr3 : d.mem.cr3 = c.mem.cr3 := by rw [hdm, FlatSpace.become_cr3]
  have hmem : d.mem.flat d.mem.cr3 =
      pushed (c.mem.flat c.mem.cr3) (c.reg .esp) (calleeSaved c) := by
    rw [hcr3, hdm, FlatSpace.become_flat_cr3]
  have hstack : ∀ v, WordIn L.shared v →
      readWord (pushed (c.mem.flat c.mem.cr3) (c.reg .esp) (calleeSaved c)) v =
        readWord (c.mem.flat c.mem.cr3) v := fun v hv =>
    readWord_pushed_shared _ (room.mono (by simp [calleeSaved_length]))
      (by simp [calleeSaved_length]) hv
  have hbase : c.reg .esp + 4#32 - (c.reg .esp - 16#32) = 20#32 := by bv_omega
  have harg' : readWord (pushed (c.mem.flat c.mem.cr3) (c.reg .esp) (calleeSaved c))
      (c.reg .esp + 4#32) = new := by
    rw [← hnew]
    apply readWord_pushed_above
    · show 16 ≤ (c.reg .esp + 4#32 - (c.reg .esp - 16#32)).toNat
      rw [hbase]
      decide
    · show (c.reg .esp + 4#32 - (c.reg .esp - 16#32)).toNat + 4 ≤ 2 ^ 32
      rw [hbase]
      decide
  obtain ⟨e, he, hem, hee⟩ := run_exchange (c := d)
    (hcr3 ▸ room.dir) ha (by rw [hmem, hstack _ ha, hold]) ho
    (by
      rw [hde, hargv, hcr3]
      exact fun k hk => harg.addrs k hk)
    (by rw [hde, hargv, readWord_writeWord_of_notIn ho harg.not_shared, hmem, harg'])
    hn hn' (by rw [hde, hdm, hflat]) (by rw [hcr3, hdir])
  rw [hcr3, hesp] at hee
  have hload : ∀ i < 5, Memory.load e.mem (e.reg .esp + BitVec.ofNat 32 (4 * i)) =
      some (readWord (flat (frame dir)) (esp + BitVec.ofNat 32 (4 * i))) := by
    intro i hi
    rw [hem, hee, FlatSpace.load_eq (hframe i hi)]
  have hload₀ := hload 0 (by decide)
  rw [show BitVec.ofNat 32 (4 * 0) = 0#32 from rfl, BitVec.add_zero, BitVec.add_zero] at hload₀
  obtain ⟨f, hf, hfm, hfk⟩ := run_resume (c := e) (k := Kept.onStack (flat (frame dir)) esp)
    ⟨hload₀, hload 1 (by decide), hload 2 (by decide), hload 3 (by decide), hload 4 (by decide),
      by rw [hee]; rfl⟩
  refine ⟨f, ?_, hfm.trans hem, ?_⟩
  · show c.run ([.push (.reg .ebx), .push (.reg .esi), .push (.reg .edi), .push (.reg .ebp)] ++
      ([.load ⟨none, activeCtx⟩ .esi, .store .esp ⟨some .esi, 0#32⟩,
        .load ⟨some .esp, 20#32⟩ .edi, .store .edi ⟨none, activeCtx⟩,
        .load ⟨some .edi, 0#32⟩ .esp, .load ⟨some .edi, 4#32⟩ .eax, .movCr3 .eax] ++
      [.pop (.reg .ebp), .pop (.reg .edi), .pop (.reg .esi), .pop (.reg .ebx), .ret])) = _
    rw [Cpu.run_append, hd, Option.bind_some, Cpu.run_append, he, Option.bind_some, hf]
  · exact hfk

end Flat

end Muse.Scheduler
