import Muse.Scheduler.Proofs.Resumption
import Muse.Syscall.Entry

/-!
# A system call returns to the user program

Whatever `handle_syscall` does as a C function, the user program goes on behind `int $0x80` with all
registers but `eax` as they were. The handler's argument points to the words of `eax`, `ebx`, `ecx`
and `edx`.
-/

namespace Muse.Syscall

open Muse.Library Muse.Library.X86

/-- What `syscall_isr` pushes of the user program. -/
def userWords {μ : Type} (c : Cpu μ) : List (BitVec 32) :=
  [(c.seg .gs).setWidth 32, (c.seg .fs).setWidth 32, (c.seg .es).setWidth 32,
    (c.seg .ds).setWidth 32, c.reg .edx, c.reg .ecx, c.reg .ebx, c.reg .eax]

/-- The words on the kernel stack when `handle_syscall` is called, from its base down. -/
def frameWords {μ : Type} (c : Cpu μ) (stack : InnerStack) (ret : BitVec 32) : List (BitVec 32) :=
  c.interrupted ++ (userWords c ++ [stack.esp - 52#32, ret])

theorem frameWords_length {μ : Type} (c : Cpu μ) (stack : InnerStack) (ret : BitVec 32) :
    (frameWords c stack ret).length = 15 := rfl

section Flat

variable {L : Layout} {c : Cpu (FlatSpace L)} {gate : Gate} {stack : InnerStack}
  {ret : BitVec 32}

theorem toHandler_flat (gate : Gate) (ret : BitVec 32) (h : c.mem.Owns (stack.esp - 60#32) 60) :
    ∃ c', toHandler gate stack ret c = some c' ∧
      Cpu.Pushed (c.atGate gate stack) c' (frameWords c stack ret) := by
  have hsub : ∀ {i n : Nat} {v : BitVec 32}, i + n ≤ 60 →
      stack.esp - 60#32 + BitVec.ofNat 32 i = v → c.mem.Owns v n := by
    rintro i n v hi rfl
    exact h.sub (by rw [BitVec.toNat_ofNat]; omega)
  -- the processor
  obtain ⟨c₂, hc₂, hp₂⟩ := @Cpu.enterInner_pushed L c gate stack
    (hsub (i := 40) (n := 20) (by decide) (by bv_omega))
  have hesp₂ : c₂.reg .esp = stack.esp - 20#32 := hp₂.esp
  -- the eight registers
  obtain ⟨c₃, hc₃, hp₃⟩ := @Cpu.Pushed.run L _ c₂ _ (userWords c) hp₂
    [.seg .gs, .seg .fs, .seg .es, .seg .ds, .reg .edx, .reg .ecx, .reg .ebx, .reg .eax]
    (by simp [Source.Stable]) (by simp [hp₂.reg, hp₂.seg, userWords, Cpu.value, Cpu.atGate])
    (by simp [userWords]) (by
      rw [hesp₂]
      exact hsub (i := 8) (n := 32) (by decide) (by simp [userWords]; bv_omega))
  have hesp₃ : c₃.reg .esp = stack.esp - 52#32 := hp₃.esp
  -- the argument and the return address
  obtain ⟨c₄, hc₄, hp₄⟩ := @Cpu.Pushed.exec L _ c₃ _ hp₃ (.reg .esp) (stack.esp - 52#32)
    (by rw [Cpu.value, hesp₃]) (by
      rw [hesp₃]
      exact hsub (i := 4) (n := 4) (by decide) (by bv_omega))
  have hesp₄ : c₄.reg .esp = stack.esp - 56#32 := hp₄.esp
  obtain ⟨c₅, hc₅, hp₅⟩ := @Cpu.Pushed.exec L _ c₄ _ hp₄ (.imm ret) ret rfl (by
    rw [hesp₄]
    exact hsub (i := 0) (n := 4) (by decide) (by bv_omega))
  have hrun : c₂.run syscallIsrEntry = some c₄ := by
    show c₂.run (syscallIsrEntry.take 8 ++ [.push (.reg .esp)]) = some c₄
    rw [Cpu.run_append]
    exact (congrArg (Option.bind · _) hc₃).trans (congrArg (Option.bind · _) hc₄)
  refine ⟨c₅, ?_, hp₅⟩
  rw [toHandler, hc₂, Option.bind_eq_bind, Option.bind_some, hrun]
  exact hc₅

end Flat

section Paged

variable {L : Layout} {c : Cpu Space} {gate : Gate} {stack : InnerStack} {ret : BitVec 32}

/-- The way to the handler on a memory that stands for another one. -/
theorem toHandler_refines {f f' : Cpu (FlatSpace L)} (h : Cpu.Rel FlatSpace.Shown c f)
    (hf : toHandler gate stack ret f = some f') :
    ∃ c', toHandler gate stack ret c = some c' ∧ Cpu.Rel FlatSpace.Shown c' f' := by
  obtain ⟨f₁, hf₁, hf⟩ := Option.bind_eq_some_iff.mp hf
  obtain ⟨f₂, hf₂, hf₃⟩ := Option.bind_eq_some_iff.mp hf
  obtain ⟨c₁, hc₁, h₁⟩ := h.enterInner FlatSpace.refines hf₁
  obtain ⟨c₂, hc₂, h₂⟩ := h₁.run FlatSpace.refines hf₂
  obtain ⟨c₃, hc₃, h₃⟩ := h₂.push FlatSpace.refines hf₃
  refine ⟨c₃, ?_, h₃⟩
  rw [toHandler, hc₁, Option.bind_eq_bind, Option.bind_some, hc₂]
  exact hc₃

/-- The state in which `handle_syscall` begins. -/
structure AtHandler (L : Layout) (gate : Gate) (stack : InnerStack) (ret : BitVec 32)
    (c c' : Cpu Space) : Prop where
  shows : L.Shows c'.mem.mem (Function.update (L.view c.mem.mem) c.mem.cr3
    (pushed (L.view c.mem.mem c.mem.cr3) stack.esp (frameWords c stack ret)))
  cr3 : c'.mem.cr3 = c.mem.cr3
  reg : c'.reg = Function.update c.reg .esp (stack.esp - 60#32)
  seg : c'.seg = Function.update (Function.update c.seg .ss stack.ss) .cs gate.selector

/-- The bytes of the inner stack that a system call needs. -/
structure Room (L : Layout) (stack : InnerStack) (c : Cpu Space) : Prop where
  dir : c.mem.cr3 ∈ L.dirs
  addrs : ∀ k : BitVec 32, k.toNat < 60 → stack.esp - 60#32 + k ∈ L.addrs c.mem.cr3
  not_shared : ∀ k : BitVec 32, k.toNat < 60 → stack.esp - 60#32 + k ∉ L.shared

theorem toHandler_spec (gate : Gate) (ret : BitVec 32) (hfits : L.Fits c.mem.mem)
    (hroom : Room L stack c) :
    ∃ c', toHandler gate stack ret c = some c' ∧ AtHandler L gate stack ret c c' := by
  obtain ⟨f, hf, hp⟩ := toHandler_flat (c := c.flat L) gate ret
    ⟨hroom.dir, hroom.addrs, hroom.not_shared⟩
  obtain ⟨c', hc', hrel⟩ := toHandler_refines (Cpu.rel_flat hfits) hf
  have hshows := hrel.mem.shows
  have hlen : BitVec.ofNat 32 (4 * (frameWords (c.flat L) stack ret).length) = 60#32 := rfl
  refine ⟨c', hc', ?_, ?_, ?_, ?_⟩
  · rw [hp.mem] at hshows
    exact hshows
  · rw [hrel.mem.cr3, hp.cr3]
    rfl
  · have hreg : ((c.flat L).atGate gate stack).reg = Function.update c.reg .esp stack.esp := rfl
    rw [hrel.reg, hp.reg, hlen, hreg, Function.update_self, Function.update_idem]
  · rw [hrel.seg, hp.seg]
    rfl

/-- A word of the frame. -/
theorem readWord_frame (m : ByteMem) {i : Nat} {x : BitVec 32}
    (hx : (frameWords c stack ret)[i]? = some x) :
    readWord (pushed m stack.esp (frameWords c stack ret))
      (stack.esp - BitVec.ofNat 32 (4 * (i + 1))) = x :=
  readWord_pushed _ _ _ hx (by rw [frameWords_length]; decide)

theorem Room.wordIn (h : Room L stack c) {i : Nat} (hi : i < 15) :
    WordIn (L.addrs c.mem.cr3) (stack.esp - BitVec.ofNat 32 (4 * (i + 1))) := by
  intro k hk
  have hoff : stack.esp - BitVec.ofNat 32 (4 * (i + 1)) + k =
      stack.esp - 60#32 + (BitVec.ofNat 32 (56 - 4 * i) + k) := by
    bv_omega
  rw [hoff]
  apply h.addrs
  bv_omega

variable {c₁ c₂ : Cpu Space}

/-- A word of the frame is in the memory when the handler begins. -/
theorem AtHandler.word (h : AtHandler L gate stack ret c c₁) (hroom : Room L stack c) {i : Nat}
    {x : BitVec 32} (hx : (frameWords c stack ret)[i]? = some x) :
    readWord (L.view c₁.mem.mem c₁.mem.cr3) (stack.esp - BitVec.ofNat 32 (4 * (i + 1))) = x := by
  have hi : i < 15 := by
    rw [← frameWords_length c stack ret]
    exact (List.getElem?_eq_some_iff.mp hx).1
  rw [h.cr3, h.shows.readWord_view hroom.dir (hroom.wordIn hi), Function.update_self,
    readWord_frame _ hx]

/-- The words above the argument are still there when the handler has returned. -/
theorem Returns.load (h : AtHandler L gate stack ret c c₁) (hret : Returns L 52 c₁ c₂)
    (hroom : Room L stack c) {i : Nat} (hi : i < 13) {x : BitVec 32}
    (hx : (frameWords c stack ret)[i]? = some x) :
    Memory.load c₂.mem (stack.esp - BitVec.ofNat 32 (4 * (i + 1))) = some x := by
  have hcr3 : c₂.mem.cr3 = c.mem.cr3 := hret.cr3.trans h.cr3
  have hdir : c₂.mem.cr3 ∈ L.dirs := hcr3 ▸ hroom.dir
  have hesp : c₁.reg .esp = stack.esp - 60#32 := by rw [h.reg, Function.update_self]
  refine (hret.fits.shows_view.load32 hdir ?_).trans ?_
  · rw [hcr3]
    exact hroom.wordIn (by omega)
  · rw [← h.word hroom hx]
    congr 1
    refine readWord_congr fun k hk => ?_
    have hoff : stack.esp - BitVec.ofNat 32 (4 * (i + 1)) + k =
        c₁.reg .esp + 8#32 + (BitVec.ofNat 32 (48 - 4 * i) + k) := by
      rw [hesp]
      bv_omega
    rw [hoff]
    exact hret.stack _ (by bv_omega)

/-- The argument of the handler. -/
theorem AtHandler.args (h : AtHandler L gate stack ret c c₁) (hroom : Room L stack c) :
    args (L.view c₁.mem.mem c₁.mem.cr3) c₁ = [c.reg .eax, c.reg .ebx, c.reg .ecx, c.reg .edx] := by
  have hesp : c₁.reg .esp + 4#32 = stack.esp - 56#32 := by
    rw [h.reg, Function.update_self]
    bv_omega
  have harg : readWord (L.view c₁.mem.mem c₁.mem.cr3) (stack.esp - 56#32) = stack.esp - 52#32 :=
    h.word hroom (i := 13) rfl
  have h4 : stack.esp - 52#32 + 4#32 = stack.esp - 48#32 := by bv_omega
  have h8 : stack.esp - 52#32 + 8#32 = stack.esp - 44#32 := by bv_omega
  have h12 : stack.esp - 52#32 + 12#32 = stack.esp - 40#32 := by bv_omega
  have heax := h.word hroom (i := 12) rfl
  have hebx := h.word hroom (i := 11) rfl
  have hecx := h.word hroom (i := 10) rfl
  have hedx := h.word hroom (i := 9) rfl
  simp only [Syscall.args, hesp, harg, h4, h8, h12]
  exact congrArg₂ _ heax (congrArg₂ _ hebx (congrArg₂ _ hecx (congrArg (fun x => [x]) hedx)))

/-- What the seven pops of the way back restore. -/
structure Restored (stack : InnerStack) (c d e : Cpu Space) : Prop where
  mem : e.mem = d.mem
  esp : e.reg .esp = stack.esp - 20#32
  reg : ∀ r ∈ [Reg.ebx, .ecx, .edx], e.reg r = c.reg r
  kept : ∀ r ∈ [Reg.eax, .ebp, .esi, .edi], e.reg r = d.reg r
  seg : ∀ r ∈ [Seg.ds, .es, .fs, .gs], e.seg r = c.seg r
  cs : e.seg .cs = d.seg .cs

theorem run_restore {d : Cpu Space} (hesp : d.reg .esp = stack.esp - 48#32)
    (hload : ∀ (i : Nat) (x : BitVec 32), i < 13 → (frameWords c stack ret)[i]? = some x →
      Memory.load d.mem (stack.esp - BitVec.ofNat 32 (4 * (i + 1))) = some x) :
    ∃ e, d.run (syscallIsrExit.tail.take 7) = some e ∧ Restored stack c d e := by
  have hpop : ∀ i < 7, Memory.load d.mem (d.reg .esp + BitVec.ofNat 32 (4 * i)) =
      (frameWords c stack ret)[11 - i]? := by
    intro i hi
    have haddr : stack.esp - 48#32 + BitVec.ofNat 32 (4 * i) =
        stack.esp - BitVec.ofNat 32 (4 * (11 - i + 1)) := by
      bv_omega
    have hlt : 11 - i < (frameWords c stack ret).length := by
      rw [frameWords_length]
      omega
    rw [hesp, haddr, List.getElem?_eq_getElem hlt]
    exact hload _ _ (by omega) (List.getElem?_eq_getElem hlt)
  obtain ⟨e, he, hp⟩ := @Cpu.run_pops _ _ d
    [.reg .ebx, .reg .ecx, .reg .edx, .seg .ds, .seg .es, .seg .fs, .seg .gs] (by decide)
    (by decide)
    fun i hi => by
      rw [hpop i hi, List.getElem?_eq_getElem (by rw [frameWords_length]; omega)]
      rfl
  have hreg : ∀ (i : Nat) (r : Reg) (x : BitVec 32), i < 7 →
      [Dest.reg .ebx, .reg .ecx, .reg .edx, .seg .ds, .seg .es, .seg .fs, .seg .gs][i]? =
        some (.reg r) → (frameWords c stack ret)[11 - i]? = some x → e.reg r = x := by
    intro i r x hi hr hx
    exact Option.some.inj ((hp.word i r hr).symm.trans ((hpop i hi).trans hx))
  have hseg : ∀ (i : Nat) (r : Seg) (x : BitVec 16), i < 7 →
      [Dest.reg .ebx, .reg .ecx, .reg .edx, .seg .ds, .seg .es, .seg .fs, .seg .gs][i]? =
        some (.seg r) → (frameWords c stack ret)[11 - i]? = some (x.setWidth 32) → e.seg r = x := by
    intro i r x hi hr hx
    rw [hp.selector i r _ hr ((hpop i hi).trans hx)]
    simp
  refine ⟨e, he, hp.mem, ?_, ?_, ?_, ?_, hp.seg .cs (by decide)⟩
  · have h28 : BitVec.ofNat 32 (4 * 7) = 28#32 := rfl
    rw [hp.esp, hesp]
    simp only [List.length_cons, List.length_nil, h28]
    bv_omega
  · simp only [List.forall_mem_cons]
    exact ⟨hreg 0 _ _ (by decide) rfl rfl, hreg 1 _ _ (by decide) rfl rfl,
      hreg 2 _ _ (by decide) rfl rfl, fun _ h => absurd h List.not_mem_nil⟩
  · intro r hr
    refine hp.reg r ?_ ?_
    · rintro rfl
      simp at hr
    · simp only [List.mem_cons, List.not_mem_nil, or_false] at hr
      rcases hr with rfl | rfl | rfl | rfl <;> decide
  · simp only [List.forall_mem_cons]
    exact ⟨hseg 3 _ _ (by decide) rfl rfl, hseg 4 _ _ (by decide) rfl rfl,
      hseg 5 _ _ (by decide) rfl rfl, hseg 6 _ _ (by decide) rfl rfl,
      fun _ h => absurd h List.not_mem_nil⟩

/-- The way back to the user program. -/
theorem exit_spec (h : AtHandler L gate stack ret c c₁) (hret : Returns L 52 c₁ c₂)
    (hroom : Room L stack c) (hinner : gate.selector.setWidth 2 < c.cpl) :
    ∃ c₃, c₂.run syscallIsrExit = some c₃ ∧ (∀ r, r ≠ .eax → c₃.reg r = c.reg r) ∧
      c₃.reg .eax = c₂.reg .eax ∧ c₃.seg = c.seg ∧ c₃.eflags = c.eflags ∧ c₃.eip = c.eip ∧
      c₃.mem = c₂.mem := by
  have hload := fun (i : Nat) (x : BitVec 32) (hi : i < 13)
    (hx : (frameWords c stack ret)[i]? = some x) => hret.load h hroom hi hx
  have hesp : c₂.reg .esp + 8#32 = stack.esp - 48#32 := by
    rw [hret.esp, h.reg, Function.update_self]
    bv_omega
  obtain ⟨d, hd⟩ : ∃ d, d = c₂.setReg .esp (stack.esp - 48#32) := ⟨_, rfl⟩
  have hdreg : ∀ r, r ≠ .esp → d.reg r = c₂.reg r := by
    intro r hr
    rw [hd]
    exact Function.update_of_ne hr ..
  obtain ⟨e, he, hr⟩ := @run_restore c stack ret d
    (by simp [hd, Cpu.setReg]) (by
      rw [hd]
      exact hload)
  have hmem : e.mem = c₂.mem := by rw [hr.mem, hd]; rfl
  -- `iret`
  have hword : ∀ (i : Nat) (v x : BitVec 32), i < 5 → (frameWords c stack ret)[i]? = some x →
      v = stack.esp - BitVec.ofNat 32 (4 * (i + 1)) → Memory.load e.mem v = some x := by
    rintro i v x hi hx rfl
    rw [hmem]
    exact hload i x (by omega) hx
  have hcpl : e.cpl = gate.selector.setWidth 2 := by
    rw [Cpu.cpl, hr.cs, hd]
    show (c₂.seg .cs).setWidth 2 = _
    rw [hret.seg, h.seg, Function.update_self]
  have hiret := @Cpu.iret_outer _ _ e c.eip ((c.seg .cs).setWidth 32) c.eflags (c.reg .esp)
    ((c.seg .ss).setWidth 32)
    (hword 4 _ _ (by decide) rfl (by rw [hr.esp]))
    (hword 3 _ _ (by decide) rfl (by rw [hr.esp]; bv_omega))
    (hword 2 _ _ (by decide) rfl (by rw [hr.esp]; bv_omega))
    (hword 1 _ _ (by decide) rfl (by rw [hr.esp]; bv_omega))
    (hword 0 _ _ (by decide) rfl (by rw [hr.esp]; bv_omega))
    (by
      rw [hcpl]
      simpa [Cpu.cpl] using hinner)
  obtain ⟨f, hf, hreg, hseg, heflags, heip, hfmem⟩ : ∃ f, e.iret = some f ∧
      f.reg = Function.update e.reg .esp (c.reg .esp) ∧
      f.seg = Function.update
        (Function.update e.seg .cs (((c.seg .cs).setWidth 32).setWidth 16)) .ss
        (((c.seg .ss).setWidth 32).setWidth 16) ∧
      f.eflags = c.eflags ∧ f.eip = c.eip ∧ f.mem = e.mem := ⟨_, hiret, rfl, rfl, rfl, rfl, rfl⟩
  have hsel : ∀ x : BitVec 16, (x.setWidth 32).setWidth 16 = x := by simp
  refine ⟨f, ?_, ?_, ?_, ?_, heflags, heip, hfmem.trans hmem⟩
  · have hadd : c₂.exec (.addImm 8#32 .esp) = some d := by rw [Cpu.exec, hesp, hd]
    have hrun : d.run (syscallIsrExit.tail) = some f := by
      show d.run (syscallIsrExit.tail.take 7 ++ [.iret]) = _
      rw [Cpu.run_append, he, Option.bind_some, Cpu.run, Cpu.exec, hf]
      rfl
    show (c₂.exec (.addImm 8#32 .esp)).bind (fun c => c.run syscallIsrExit.tail) = _
    rw [hadd, Option.bind_some, hrun]
  · intro r hne
    have hkept : ∀ r ∈ [Reg.ebp, .esi, .edi], e.reg r = c.reg r := by
      intro r hmem
      have hne : r ≠ .esp := by
        rintro rfl
        simp at hmem
      rw [hr.kept r (List.mem_cons_of_mem _ hmem), hdreg r hne, hret.kept r, h.reg,
        Function.update_of_ne hne]
      simp only [List.mem_cons, List.not_mem_nil, or_false] at hmem ⊢
      rcases hmem with rfl | rfl | rfl <;> simp
    rw [hreg]
    cases r with
    | eax => exact absurd rfl hne
    | esp => exact Function.update_self ..
    | ebx | ecx | edx => exact (Function.update_of_ne (by decide) ..).trans (hr.reg _ (by decide))
    | ebp | esi | edi => exact (Function.update_of_ne (by decide) ..).trans (hkept _ (by decide))
  · rw [hreg, Function.update_of_ne (by decide), hr.kept .eax (by decide), hdreg .eax (by decide)]
  · funext r
    rw [hseg, hsel, hsel]
    cases r with
    | ss => exact Function.update_self ..
    | cs => exact (Function.update_of_ne (by decide) ..).trans (Function.update_self ..)
    | ds | es | fs | gs =>
        rw [Function.update_of_ne (by decide), Function.update_of_ne (by decide)]
        exact hr.seg _ (by decide)

/-- The memory that the handler finds is that of the user program, but for the frame. -/
theorem AtHandler.view (h : AtHandler L gate stack ret c c₁) {d : BitVec 20} {v : BitVec 32}
    (hd : d ∈ L.dirs) (hv : v ∈ L.addrs d)
    (hout : d = c.mem.cr3 → 60 ≤ (v - (stack.esp - 60#32)).toNat) :
    L.view c₁.mem.mem d v = L.view c.mem.mem d v := by
  rw [h.shows.byte d hd v hv]
  by_cases heq : d = c.mem.cr3
  · rw [heq, Function.update_self]
    exact pushed_above _ _ _ (by rw [frameWords_length]; decide) (hout heq)
  · rw [Function.update_of_ne heq]

end Paged

/-- The handler of a system call is given the four registers of its arguments, and when it
    returns as a C function does, the user program goes on behind the interrupt with only `eax`
    changed. -/
theorem syscall_returns (L : Layout) (handleSyscall : Cpu Space → Option (Cpu Space)) (gate : Gate)
    (stack : InnerStack) (ret : BitVec 32) (c : Cpu Space) (hfits : L.Fits c.mem.mem)
    (hroom : Room L stack c) (hinner : gate.selector.setWidth 2 < c.cpl) :
    ∃ c₁, toHandler gate stack ret c = some c₁ ∧ L.Fits c₁.mem.mem ∧
      args (L.view c₁.mem.mem c₁.mem.cr3) c₁ =
        [c.reg .eax, c.reg .ebx, c.reg .ecx, c.reg .edx] ∧
      (∀ d ∈ L.dirs, ∀ v ∈ L.addrs d, (d = c.mem.cr3 → 60 ≤ (v - (stack.esp - 60#32)).toNat) →
        L.view c₁.mem.mem d v = L.view c.mem.mem d v) ∧
      ∀ c₂, handleSyscall c₁ = some c₂ → Returns L 52 c₁ c₂ →
        ∃ c₃, syscall handleSyscall gate stack ret c = some c₃ ∧
          (∀ r, r ≠ .eax → c₃.reg r = c.reg r) ∧ c₃.reg .eax = c₂.reg .eax ∧ c₃.seg = c.seg ∧
          c₃.eflags = c.eflags ∧ c₃.eip = c.eip ∧ c₃.mem = c₂.mem := by
  obtain ⟨c₁, hc₁, h⟩ := toHandler_spec gate ret hfits hroom
  refine ⟨c₁, hc₁, h.shows.fits, h.args hroom, fun d hd v hv => h.view hd hv, fun c₂ hc₂ hret => ?_⟩
  obtain ⟨c₃, hc₃, hspec⟩ := exit_spec h hret hroom hinner
  refine ⟨c₃, ?_, hspec⟩
  rw [syscall, hc₁, Option.bind_eq_bind, Option.bind_some, hc₂]
  exact hc₃

/-- A handler that returns 7. -/
theorem syscall_returns_seven : ∃ c₃ : Cpu Space,
    syscall (fun c => some ((c.setReg .esp (c.reg .esp + 4#32)).setReg .eax 7#32))
      ⟨0x80100000#32, 8#16, 0xE#5, 3#2, true⟩ ⟨0x10#16, 0xFF8FF300#32⟩ 0x80100020#32
      ⟨fun _ => 4#32, fun _ => 0x1B#16, 0x202#32, 0x1000#32, ⟨Scheduler.Tasks.pairMem, 1#20⟩⟩ =
      some c₃ ∧
    c₃.reg .eax = 7#32 ∧ c₃.reg .ebx = 4#32 ∧ c₃.eip = 0x1000#32 := by
  have hpage : ∀ k : BitVec 32, k.toNat < 60 → pageOf (0xFF8FF300#32 - 60#32 + k) = 0xFF8FF#20 := by
    intro k hk
    refine (pageOf_add ?_).trans (by decide)
    exact Nat.lt_of_lt_of_le (Nat.add_lt_add_left hk _) (by decide)
  obtain ⟨c₁, -, hfits, -, -, hret⟩ := syscall_returns Scheduler.Tasks.pairLayout
    (fun c => some ((c.setReg .esp (c.reg .esp + 4#32)).setReg .eax 7#32))
    ⟨0x80100000#32, 8#16, 0xE#5, 3#2, true⟩ ⟨0x10#16, 0xFF8FF300#32⟩ 0x80100020#32
    ⟨fun _ => 4#32, fun _ => 0x1B#16, 0x202#32, 0x1000#32, ⟨Scheduler.Tasks.pairMem, 1#20⟩⟩
    Scheduler.Tasks.pairLayout_fits
    ⟨.inl rfl, fun k hk => .inr (hpage k hk), fun k hk h => by
      have h : pageOf (0xFF8FF300#32 - 60#32 + k) = 0x80000#20 := h
      rw [hpage k hk] at h
      exact absurd h (by decide)⟩
    (by decide)
  obtain ⟨c₃, hc₃, hreg, heax, -, -, heip, -⟩ := hret _ rfl
    ⟨hfits, rfl, by simp [Cpu.setReg], by simp [Cpu.setReg], rfl, fun _ _ => rfl⟩
  refine ⟨c₃, hc₃, ?_, hreg .ebx (by decide), heip⟩
  rw [heax]
  simp [Cpu.setReg]

end Muse.Syscall
