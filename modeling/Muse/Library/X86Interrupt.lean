import Muse.Library.X86

/-!
# Interrupts of the x86

A gate of the interrupt descriptor table names the code that handles an interrupt. When the handler
runs at an inner privilege level, the processor takes the stack of that level and saves the
interrupted state on it: five words that `iret` takes off again. A software interrupt passes only
through a gate whose privilege level is not below the current one.
-/

namespace Muse.Library.X86

/-- A gate, taken from its two words. -/
structure Gate where
  offset : BitVec 32
  selector : BitVec 16
  type : BitVec 5
  dpl : BitVec 2
  present : Bool
  deriving DecidableEq, Repr

def Gate.decode (low high : BitVec 32) : Gate where
  offset := high.extractLsb' 16 16 ++ low.extractLsb' 0 16
  selector := low.extractLsb' 16 16
  type := high.extractLsb' 8 5
  dpl := high.extractLsb' 13 2
  present := high.getLsbD 15

/-- A present 32-bit interrupt gate. -/
def Gate.Valid (g : Gate) : Prop := g.present = true ∧ g.type = 0xE#5

instance (g : Gate) : Decidable g.Valid := inferInstanceAs (Decidable (_ ∧ _))

/-- The flags that an interrupt gate clears: TF, IF, NT, RF and VM. -/
def clearedFlags : BitVec 32 := 0x34300#32

/-- The stack of the inner level, from the task state segment. -/
structure InnerStack where
  ss : BitVec 16
  esp : BitVec 32

namespace Cpu

variable {μ : Type} [Memory μ]

/-- The words that the processor saves when it changes the level. -/
def interrupted (c : Cpu μ) : List (BitVec 32) :=
  [(c.seg .ss).setWidth 32, c.reg .esp, c.eflags, (c.seg .cs).setWidth 32, c.eip]

/-- An interrupt that goes through `g` to an inner level. -/
def enterInner (c : Cpu μ) (g : Gate) (stack : InnerStack) : Option (Cpu μ) := do
  let c' ← ((c.setReg .esp stack.esp).setSeg .ss stack.ss).run
    (c.interrupted.map fun x => .push (.imm x))
  some { c'.setSeg .cs g.selector with
    eip := g.offset, eflags := c.eflags &&& ~~~clearedFlags }

omit [Memory μ] in
/-- An instruction `int` passes through the gate; else it is a general protection fault. -/
def MayInterrupt (c : Cpu μ) (g : Gate) : Prop := g.Valid ∧ c.cpl ≤ g.dpl

/-- `iret` to an outer level. -/
theorem iret_outer {c : Cpu μ} {eip cs eflags esp ss : BitVec 32}
    (heip : Memory.load c.mem (c.reg .esp) = some eip)
    (hcs : Memory.load c.mem (c.reg .esp + 4#32) = some cs)
    (heflags : Memory.load c.mem (c.reg .esp + 8#32) = some eflags)
    (hesp : Memory.load c.mem (c.reg .esp + 12#32) = some esp)
    (hss : Memory.load c.mem (c.reg .esp + 16#32) = some ss)
    (hcpl : c.cpl < (cs.setWidth 16).setWidth 2) :
    c.iret = some ⟨Function.update c.reg .esp esp,
      Function.update (Function.update c.seg .cs (cs.setWidth 16)) .ss (ss.setWidth 16),
      eflags, eip, c.mem⟩ := by
  have h8 : c.reg .esp + 4#32 + 4#32 = c.reg .esp + 8#32 := by bv_omega
  have h12 : c.reg .esp + 8#32 + 4#32 = c.reg .esp + 12#32 := by bv_omega
  have h16 : c.reg .esp + 12#32 + 4#32 = c.reg .esp + 16#32 := by bv_omega
  simp only [iret, pop, setReg, setSeg, Option.bind_eq_bind, Option.bind_some, heip, hcs, heflags,
    hesp, hss, Function.update_self, Function.update_idem, cpl, h8, h12, h16]
  simp only [cpl] at hcpl
  rw [if_pos hcpl]

end Cpu

/-- An interrupt on a memory that stands for another one. -/
theorem Cpu.Rel.enterInner {μ ν : Type} [Memory μ] [Memory ν] {R : μ → ν → Prop} (hR : Refines R)
    {c : Cpu μ} {d d' : Cpu ν} (h : Rel R c d) {g : Gate} {stack : InnerStack}
    (hd : d.enterInner g stack = some d') :
    ∃ c', c.enterInner g stack = some c' ∧ Rel R c' d' := by
  obtain ⟨d₁, hd₁, hd⟩ := Option.bind_eq_some_iff.mp hd
  have hwords : c.interrupted = d.interrupted := by
    rw [interrupted, interrupted, h.reg, h.seg, h.eflags, h.eip]
  obtain ⟨c₁, hc₁, h₁⟩ := Cpu.Rel.run hR ((h.setReg .esp stack.esp).setSeg .ss stack.ss) hd₁
  cases hd
  refine ⟨{ c₁.setSeg .cs g.selector with
    eip := g.offset, eflags := c.eflags &&& ~~~clearedFlags }, ?_, ?_⟩
  · rw [Cpu.enterInner, hwords, hc₁]
    rfl
  · have hseg := h₁.setSeg .cs g.selector
    exact ⟨hseg.reg, hseg.seg, by rw [h.eflags], rfl, hseg.mem⟩

/-- The processor behind a gate, with an empty inner stack. -/
def Cpu.atGate {μ : Type} (c : Cpu μ) (g : Gate) (stack : InnerStack) : Cpu μ where
  reg := Function.update c.reg .esp stack.esp
  seg := Function.update (Function.update c.seg .ss stack.ss) .cs g.selector
  eflags := c.eflags &&& ~~~clearedFlags
  eip := g.offset
  mem := c.mem

/-- An interrupt pushes five words on the inner stack. -/
theorem Cpu.enterInner_pushed {L : Layout} {c : Cpu (FlatSpace L)} (g : Gate) {stack : InnerStack}
    (h : c.mem.Owns (stack.esp - 20#32) 20) :
    ∃ c', c.enterInner g stack = some c' ∧ Pushed (c.atGate g stack) c' c.interrupted := by
  have hesp : ((c.setReg .esp stack.esp).setSeg .ss stack.ss).reg .esp = stack.esp := by
    simp [setReg, setSeg]
  have hpush := @Cpu.run_pushes L ((c.setReg .esp stack.esp).setSeg .ss stack.ss)
    (c.interrupted.map .imm) c.interrupted (by simp [Source.Stable])
    (by rw [List.map_map]; rfl) (by simp [interrupted]) (by
      rw [hesp]
      exact h)
  have hmap : c.interrupted.map (fun x => Insn.push (.imm x)) =
      (c.interrupted.map Source.imm).map .push := by
    rw [List.map_map]
    rfl
  obtain ⟨c₁, hc₁, hp⟩ : ∃ c₁, ((c.setReg .esp stack.esp).setSeg .ss stack.ss).run
      ((c.interrupted.map Source.imm).map .push) = some c₁ ∧
      Pushed ((c.setReg .esp stack.esp).setSeg .ss stack.ss) c₁ c.interrupted :=
    ⟨_, hpush, Pushed.of_setReg _ _⟩
  refine ⟨{ c₁.setSeg .cs g.selector with
    eip := g.offset, eflags := c.eflags &&& ~~~clearedFlags }, ?_, hp.mem, hp.reg, ?_, rfl, rfl⟩
  · rw [enterInner, hmap, hc₁]
    rfl
  · show Function.update c₁.seg .cs g.selector = _
    rw [hp.seg]
    rfl

end Muse.Library.X86
