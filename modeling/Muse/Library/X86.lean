import Muse.Library.SharedSpaces

/-!
# A part of the 32-bit x86 instruction set

The instructions that the assembly of a kernel switches stacks and privilege levels with, in the
order of operands of the AT&T syntax. The segments are flat, so that an address is an offset, and a
selector is pushed zero-extended. A memory is anything with words at 32-bit addresses and a page
directory (`Memory`), and an access that faults has no result.

The same code runs on paged memory and on the flat memories that it shows. `Refines` says when a
memory stands for another one, and `run_refines` carries a run over.
-/

namespace Muse.Library.X86

inductive Reg where
  | eax
  | ecx
  | edx
  | ebx
  | esp
  | ebp
  | esi
  | edi
  deriving DecidableEq, Repr

/-- The segment registers. -/
inductive Seg where
  | es
  | cs
  | ss
  | ds
  | fs
  | gs
  deriving DecidableEq, Repr

class Memory (μ : Type) where
  load : μ → BitVec 32 → Option (BitVec 32)
  store : μ → BitVec 32 → BitVec 32 → Option μ
  setDir : μ → BitVec 32 → μ

structure Cpu (μ : Type) where
  reg : Reg → BitVec 32
  seg : Seg → BitVec 16
  eflags : BitVec 32
  eip : BitVec 32
  mem : μ

/-- A memory operand: `disp` or `disp(base)`. -/
structure Operand where
  base : Option Reg
  disp : BitVec 32

/-- What `push` takes. -/
inductive Source where
  | reg (r : Reg)
  | seg (r : Seg)
  | imm (x : BitVec 32)
  | mem (o : Operand)
  | eflags

/-- Where `pop` puts a word. -/
inductive Dest where
  | reg (r : Reg)
  | seg (r : Seg)
  deriving DecidableEq

inductive Insn where
  | push (src : Source)
  | pop (dst : Dest)
  | mov (src dst : Reg)
  | movSeg (src : Reg) (dst : Seg)
  | movImm16 (x : BitVec 16) (dst : Reg)
  | load (src : Operand) (dst : Reg)
  | store (src : Reg) (dst : Operand)
  | movCr3 (src : Reg)
  | addImm (x : BitVec 32) (dst : Reg)
  | ret
  | iret

namespace Cpu

variable {μ ν : Type} [Memory μ] [Memory ν]

def setReg (c : Cpu μ) (r : Reg) (x : BitVec 32) : Cpu μ :=
  { c with reg := Function.update c.reg r x }

def setMem (c : Cpu μ) (mem : μ) : Cpu μ := { c with mem }

def setSeg (c : Cpu μ) (r : Seg) (x : BitVec 16) : Cpu μ :=
  { c with seg := Function.update c.seg r x }

/-- The address of an operand. -/
def addr (c : Cpu μ) (o : Operand) : BitVec 32 := o.base.elim 0#32 c.reg + o.disp

def push (c : Cpu μ) (x : BitVec 32) : Option (Cpu μ) := do
  let mem ← Memory.store c.mem (c.reg .esp - 4#32) x
  some ((c.setMem mem).setReg .esp (c.reg .esp - 4#32))

def pop (c : Cpu μ) : Option (BitVec 32 × Cpu μ) := do
  let x ← Memory.load c.mem (c.reg .esp)
  some (x, c.setReg .esp (c.reg .esp + 4#32))

/-- The current privilege level. -/
def cpl (c : Cpu μ) : BitVec 2 := (c.seg .cs).setWidth 2

/-- `iret` to the same level or to an outer one. -/
def iret (c : Cpu μ) : Option (Cpu μ) := do
  let (eip, c') ← c.pop
  let (cs, c') ← c'.pop
  let (eflags, c') ← c'.pop
  let c' := { c' with eip, eflags }.setSeg .cs (cs.setWidth 16)
  if c.cpl < c'.cpl then do
    let (esp, c') ← c'.pop
    let (ss, c') ← c'.pop
    some ((c'.setReg .esp esp).setSeg .ss (ss.setWidth 16))
  else some c'

def value (c : Cpu μ) : Source → Option (BitVec 32)
  | .reg r => some (c.reg r)
  | .seg r => some ((c.seg r).setWidth 32)
  | .imm x => some x
  | .mem o => Memory.load c.mem (c.addr o)
  | .eflags => some c.eflags

def put (c : Cpu μ) (x : BitVec 32) : Dest → Cpu μ
  | .reg r => c.setReg r x
  | .seg r => c.setSeg r (x.setWidth 16)

def exec (c : Cpu μ) : Insn → Option (Cpu μ)
  | .push src => do
      let x ← c.value src
      c.push x
  | .pop dst => do
      let (x, c) ← c.pop
      some (c.put x dst)
  | .mov src dst => some (c.setReg dst (c.reg src))
  | .movSeg src dst => some (c.setSeg dst ((c.reg src).setWidth 16))
  | .movImm16 x dst => some (c.setReg dst ((c.reg dst).extractLsb' 16 16 ++ x))
  | .load src dst => do
      let x ← Memory.load c.mem (c.addr src)
      some (c.setReg dst x)
  | .store src dst => do
      let mem ← Memory.store c.mem (c.addr dst) (c.reg src)
      some (c.setMem mem)
  | .movCr3 src => some (c.setMem (Memory.setDir c.mem (c.reg src)))
  | .addImm x dst => some (c.setReg dst (c.reg dst + x))
  | .ret => do
      let (eip, c) ← c.pop
      some { c with eip }
  | .iret => c.iret

/-- Runs instructions one after another. -/
def run (c : Cpu μ) : List Insn → Option (Cpu μ)
  | [] => some c
  | i :: is => (c.exec i).bind fun c => c.run is

theorem run_append (c : Cpu μ) (is js : List Insn) :
    c.run (is ++ js) = (c.run is).bind fun c => c.run js := by
  induction is generalizing c with
  | nil => rfl
  | cons i is ih =>
      rw [List.cons_append, run, run, Option.bind_assoc]
      congr 1
      funext c'
      exact ih c'

end Cpu

/-! ## Refinement of the memory -/

/-- What succeeds on the abstract memory `ν` succeeds on `μ`. -/
structure Refines {μ ν : Type} [Memory μ] [Memory ν] (R : μ → ν → Prop) : Prop where
  load : ∀ {m n v x}, R m n → Memory.load n v = some x → Memory.load m v = some x
  store : ∀ {m n v x n'}, R m n → Memory.store n v x = some n' →
    ∃ m', Memory.store m v x = some m' ∧ R m' n'
  setDir : ∀ {m n} x, R m n → R (Memory.setDir m x) (Memory.setDir n x)

/-- The same registers, and memories in the relation. -/
structure Cpu.Rel {μ ν : Type} (R : μ → ν → Prop) (c : Cpu μ) (d : Cpu ν) : Prop where
  reg : c.reg = d.reg
  seg : c.seg = d.seg
  eflags : c.eflags = d.eflags
  eip : c.eip = d.eip
  mem : R c.mem d.mem

namespace Cpu.Rel

variable {μ ν : Type} {R : μ → ν → Prop} {c : Cpu μ} {d d' : Cpu ν}

theorem setReg (h : Rel R c d) (r : Reg) (x : BitVec 32) : Rel R (c.setReg r x) (d.setReg r x) := by
  refine ⟨?_, h.seg, h.eflags, h.eip, h.mem⟩
  rw [Cpu.setReg, Cpu.setReg, h.reg]

theorem setMem (h : Rel R c d) {m : μ} {n : ν} (hm : R m n) : Rel R (c.setMem m) (d.setMem n) :=
  ⟨h.reg, h.seg, h.eflags, h.eip, hm⟩

theorem setSeg (h : Rel R c d) (r : Seg) (x : BitVec 16) : Rel R (c.setSeg r x) (d.setSeg r x) := by
  refine ⟨h.reg, ?_, h.eflags, h.eip, h.mem⟩
  rw [Cpu.setSeg, Cpu.setSeg, h.seg]

theorem addr (h : Rel R c d) (o : Operand) : c.addr o = d.addr o := by
  rw [Cpu.addr, Cpu.addr, h.reg]

theorem cpl (h : Rel R c d) : c.cpl = d.cpl := by
  rw [Cpu.cpl, Cpu.cpl, h.seg]

variable [Memory μ] [Memory ν]

section Steps

variable (hR : Refines R) (h : Rel R c d)

include hR h

theorem push {x : BitVec 32} (hd : d.push x = some d') :
    ∃ c', c.push x = some c' ∧ Rel R c' d' := by
  obtain ⟨n', hn, hd'⟩ := Option.bind_eq_some_iff.mp hd
  obtain ⟨m', hm, hrel⟩ := hR.store h.mem hn
  cases hd'
  refine ⟨_, ?_, (h.setMem hrel).setReg .esp _⟩
  rw [Cpu.push, h.reg, hm]
  rfl

theorem pop {x : BitVec 32} (hd : d.pop = some (x, d')) :
    ∃ c', c.pop = some (x, c') ∧ Rel R c' d' := by
  obtain ⟨y, hy, hd'⟩ := Option.bind_eq_some_iff.mp hd
  cases hd'
  refine ⟨_, ?_, h.setReg .esp _⟩
  rw [Cpu.pop, h.reg, hR.load h.mem hy]
  rfl

theorem iret (hd : d.iret = some d') : ∃ c', c.iret = some c' ∧ Rel R c' d' := by
  simp only [Cpu.iret, Option.bind_eq_bind] at hd
  obtain ⟨⟨eip, d₁⟩, h₁, hd⟩ := Option.bind_eq_some_iff.mp hd
  obtain ⟨⟨cs, d₂⟩, h₂, hd⟩ := Option.bind_eq_some_iff.mp hd
  obtain ⟨⟨eflags, d₃⟩, h₃, hd⟩ := Option.bind_eq_some_iff.mp hd
  obtain ⟨c₁, hc₁, r₁⟩ := h.pop hR h₁
  obtain ⟨c₂, hc₂, r₂⟩ := r₁.pop hR h₂
  obtain ⟨c₃, hc₃, r₃⟩ := r₂.pop hR h₃
  have r₄ : Rel R ({ c₃ with eip, eflags }.setSeg .cs (cs.setWidth 16))
      ({ d₃ with eip, eflags }.setSeg .cs (cs.setWidth 16)) :=
    Rel.setSeg (c := { c₃ with eip, eflags }) (d := { d₃ with eip, eflags })
      ⟨r₃.reg, r₃.seg, rfl, rfl, r₃.mem⟩ .cs _
  simp only [Cpu.iret, Option.bind_eq_bind, hc₁, hc₂, hc₃, Option.bind_some, h.cpl, r₄.cpl]
  split at hd
  · next hlt =>
      obtain ⟨⟨esp, d₅⟩, h₅, hd⟩ := Option.bind_eq_some_iff.mp hd
      obtain ⟨⟨ss, d₆⟩, h₆, hd⟩ := Option.bind_eq_some_iff.mp hd
      obtain ⟨c₅, hc₅, r₅⟩ := r₄.pop hR h₅
      obtain ⟨c₆, hc₆, r₆⟩ := r₅.pop hR h₆
      cases hd
      rw [if_pos hlt, hc₅, Option.bind_some, hc₆]
      exact ⟨_, rfl, (r₆.setReg .esp esp).setSeg .ss _⟩
  · next hlt =>
      cases hd
      rw [if_neg hlt]
      exact ⟨_, rfl, r₄⟩

theorem value {src : Source} {x : BitVec 32} (hd : d.value src = some x) :
    c.value src = some x := by
  cases src with
  | reg r => rwa [Cpu.value, h.reg]
  | seg r => rwa [Cpu.value, h.seg]
  | imm x => exact hd
  | mem o =>
      rw [Cpu.value, h.addr]
      exact hR.load h.mem hd
  | eflags => rwa [Cpu.value, h.eflags]

omit hR [Memory μ] [Memory ν] in
theorem put (x : BitVec 32) (dst : Dest) : Rel R (c.put x dst) (d.put x dst) := by
  cases dst with
  | reg r => exact h.setReg r x
  | seg r => exact h.setSeg r _

/-- One instruction. -/
theorem exec {i : Insn} (hd : d.exec i = some d') :
    ∃ c', c.exec i = some c' ∧ Rel R c' d' := by
  cases i with
  | push src =>
      obtain ⟨x, hx, hd⟩ := Option.bind_eq_some_iff.mp hd
      rw [Cpu.exec, h.value hR hx]
      exact h.push hR hd
  | pop dst =>
      obtain ⟨⟨x, d₁⟩, h₁, hd⟩ := Option.bind_eq_some_iff.mp hd
      obtain ⟨c₁, hc₁, r₁⟩ := h.pop hR h₁
      cases hd
      refine ⟨_, ?_, r₁.put x dst⟩
      rw [Cpu.exec, hc₁]
      rfl
  | mov src dst =>
      cases hd
      refine ⟨_, rfl, ?_⟩
      rw [h.reg]
      exact h.setReg dst _
  | movSeg src dst =>
      cases hd
      refine ⟨_, rfl, ?_⟩
      rw [h.reg]
      exact h.setSeg dst _
  | movImm16 x dst =>
      cases hd
      refine ⟨_, rfl, ?_⟩
      rw [h.reg]
      exact h.setReg dst _
  | load src dst =>
      obtain ⟨x, hx, hd⟩ := Option.bind_eq_some_iff.mp hd
      cases hd
      refine ⟨_, ?_, h.setReg dst x⟩
      rw [Cpu.exec, h.addr, hR.load h.mem hx]
      rfl
  | store src dst =>
      obtain ⟨n', hn, hd⟩ := Option.bind_eq_some_iff.mp hd
      obtain ⟨m', hm, hrel⟩ := hR.store h.mem hn
      cases hd
      refine ⟨_, ?_, h.setMem hrel⟩
      rw [Cpu.exec, h.addr, h.reg, hm]
      rfl
  | movCr3 src =>
      cases hd
      refine ⟨_, rfl, ?_⟩
      rw [h.reg]
      exact h.setMem (hR.setDir _ h.mem)
  | addImm x dst =>
      cases hd
      refine ⟨_, rfl, ?_⟩
      rw [h.reg]
      exact h.setReg dst _
  | ret =>
      obtain ⟨⟨eip, d₁⟩, h₁, hd⟩ := Option.bind_eq_some_iff.mp hd
      obtain ⟨c₁, hc₁, r₁⟩ := h.pop hR h₁
      cases hd
      refine ⟨{ c₁ with eip }, ?_, r₁.reg, r₁.seg, r₁.eflags, rfl, r₁.mem⟩
      rw [Cpu.exec, hc₁]
      rfl
  | iret => exact h.iret hR hd

end Steps

/-- A run on the abstract memory is a run on the one that stands for it. -/
theorem run (hR : Refines R) {is : List Insn} (h : Rel R c d) (hd : d.run is = some d') :
    ∃ c', c.run is = some c' ∧ Rel R c' d' := by
  induction is generalizing c d with
  | nil =>
      cases hd
      exact ⟨c, rfl, h⟩
  | cons i is ih =>
      obtain ⟨d₁, h₁, hd⟩ := Option.bind_eq_some_iff.mp hd
      obtain ⟨c₁, hc₁, r₁⟩ := h.exec hR h₁
      obtain ⟨c', hc', r'⟩ := ih r₁ hd
      refine ⟨c', ?_, r'⟩
      rw [Cpu.run, hc₁]
      exact hc'

end Cpu.Rel

/-! ## Paged and flat memories -/

instance : Memory Space where
  load := Space.load32
  store := Space.store32
  setDir s x := { s with cr3 := frame x }

/-- The flat memories that a layout shows, and the active one of them. -/
structure FlatSpace (L : Layout) where
  flat : SharedMem
  cr3 : BitVec 20

namespace FlatSpace

variable {L : Layout}

/-- The active space sees `m`, the others see what they saw. -/
def become (s : FlatSpace L) (m : ByteMem) : FlatSpace L :=
  { s with flat := Function.update s.flat s.cr3 m }

@[simp] theorem become_cr3 (s : FlatSpace L) (m : ByteMem) : (s.become m).cr3 = s.cr3 := rfl

theorem become_flat (s : FlatSpace L) (m : ByteMem) (d : BitVec 20) :
    (s.become m).flat d = if d = s.cr3 then m else s.flat d :=
  Function.update_apply ..

@[simp] theorem become_flat_cr3 (s : FlatSpace L) (m : ByteMem) : (s.become m).flat s.cr3 = m :=
  Function.update_self ..

@[simp] theorem become_become (s : FlatSpace L) (m m' : ByteMem) :
    (s.become m).become m' = s.become m' := by
  simp [become]

/-- The active space has a word. -/
def Has (s : FlatSpace L) (v : BitVec 32) : Prop := s.cr3 ∈ L.dirs ∧ WordIn (L.addrs s.cr3) v

open Classical in
noncomputable instance : Memory (FlatSpace L) where
  load s v := if s.Has v then some (readWord (s.flat s.cr3) v) else none
  store s v x := if s.Has v then some { s with flat := s.flat.write L.shared s.cr3 v x } else none
  setDir s x := { s with cr3 := frame x }

theorem load_eq {s : FlatSpace L} {v : BitVec 32} (h : s.Has v) :
    Memory.load s v = some (readWord (s.flat s.cr3) v) := by
  simp [Memory.load, h]

theorem store_eq {s : FlatSpace L} {v : BitVec 32} (h : s.Has v) (x : BitVec 32) :
    Memory.store s v x = some { s with flat := s.flat.write L.shared s.cr3 v x } := by
  simp [Memory.store, h]

/-- The `n` addresses from `base` on are private addresses of the active space. -/
structure Owns (s : FlatSpace L) (base : BitVec 32) (n : Nat) : Prop where
  dir : s.cr3 ∈ L.dirs
  addrs : ∀ k : BitVec 32, k.toNat < n → base + k ∈ L.addrs s.cr3
  not_shared : ∀ k : BitVec 32, k.toNat < n → base + k ∉ L.shared

theorem Owns.mono {s : FlatSpace L} {base : BitVec 32} {n k : Nat} (h : s.Owns base n)
    (hk : k ≤ n) : s.Owns base k :=
  ⟨h.dir, fun i hi => h.addrs i (Nat.lt_of_lt_of_le hi hk),
    fun i hi => h.not_shared i (Nat.lt_of_lt_of_le hi hk)⟩

/-- A run of addresses inside another one. -/
theorem Owns.sub {s : FlatSpace L} {base i : BitVec 32} {n k : Nat} (h : s.Owns base n)
    (hi : i.toNat + k ≤ n) : s.Owns (base + i) k := by
  refine ⟨h.dir, fun j hj => ?_, fun j hj => ?_⟩
  · rw [BitVec.add_assoc]
    apply h.addrs
    rw [BitVec.toNat_add]
    have := Nat.mod_le (i.toNat + j.toNat) (2 ^ 32)
    omega
  · rw [BitVec.add_assoc]
    apply h.not_shared
    rw [BitVec.toNat_add]
    have := Nat.mod_le (i.toNat + j.toNat) (2 ^ 32)
    omega

theorem Owns.has {s : FlatSpace L} {v : BitVec 32} {n : Nat} (h : s.Owns v n) (hn : 4 ≤ n) :
    s.Has v :=
  ⟨h.dir, fun k hk => h.addrs k (Nat.lt_of_lt_of_le hk hn)⟩

theorem store_private {s : FlatSpace L} {v : BitVec 32} (h : s.Owns v 4) (x : BitVec 32) :
    Memory.store s v x = some (s.become (writeWord (s.flat s.cr3) v x)) := by
  rw [store_eq (h.has (Nat.le_refl 4)), become]
  congr 2
  funext e
  by_cases he : e = s.cr3
  · rw [he, SharedMem.write_self, Function.update_self]
  · rw [SharedMem.write_private _ h.not_shared he, Function.update_of_ne he]

/-- Paged memory shows the flat memories. -/
structure Shown (s : Space) (f : FlatSpace L) : Prop where
  cr3 : s.cr3 = f.cr3
  shows : L.Shows s.mem f.flat

theorem refines : Refines (Shown (L := L)) where
  load := by
    intro s f v x h hx
    by_cases hv : f.Has v
    · rw [load_eq hv] at hx
      rw [← hx, ← h.shows.load32 hv.1 hv.2, ← h.cr3]
      rfl
    · simp [Memory.load, hv] at hx
  store := by
    intro s f v x f' h hx
    by_cases hv : f.Has v
    · rw [store_eq hv] at hx
      obtain ⟨m', hm, hshows⟩ := h.shows.store32 hv.1 hv.2 x
      cases hx
      refine ⟨⟨m', s.cr3⟩, ?_, h.cr3, hshows⟩
      rw [← h.cr3] at hm
      exact hm
    · simp [Memory.store, hv] at hx
  setDir := fun x h => ⟨rfl, h.shows⟩

end FlatSpace

/-- The processor on the flat memories that its memory shows. -/
def Cpu.flat (L : Layout) (c : Cpu Space) : Cpu (FlatSpace L) :=
  ⟨c.reg, c.seg, c.eflags, c.eip, ⟨L.view c.mem.mem, c.mem.cr3⟩⟩

theorem Cpu.rel_flat {L : Layout} {c : Cpu Space} (h : L.Fits c.mem.mem) :
    Rel FlatSpace.Shown c (c.flat L) :=
  ⟨rfl, rfl, rfl, rfl, rfl, h.shows_view⟩

/-! ## Stacks -/

/-- The memory after words are pushed. -/
def pushed (m : ByteMem) (esp : BitVec 32) : List (BitVec 32) → ByteMem
  | [] => m
  | x :: xs => pushed (writeWord m (esp - 4#32) x) (esp - 4#32) xs

/-- Words that are pushed one behind the other. -/
theorem pushed_append (m : ByteMem) (esp : BitVec 32) (xs ys : List (BitVec 32)) :
    pushed m esp (xs ++ ys) =
      pushed (pushed m esp xs) (esp - BitVec.ofNat 32 (4 * xs.length)) ys := by
  induction xs generalizing m esp with
  | nil => simp [pushed]
  | cons x xs ih =>
      have hsub : esp - 4#32 - BitVec.ofNat 32 (4 * xs.length) =
          esp - BitVec.ofNat 32 (4 * (xs.length + 1)) := by
        bv_omega
      rw [List.cons_append, pushed, ih, hsub, pushed, List.length_cons]

/-- What is not below the stack pointer is left alone. -/
theorem pushed_above (m : ByteMem) (esp : BitVec 32) (xs : List (BitVec 32)) {v : BitVec 32}
    (hn : 4 * xs.length ≤ 2 ^ 32)
    (hv : 4 * xs.length ≤ (v - (esp - BitVec.ofNat 32 (4 * xs.length))).toNat) :
    pushed m esp xs v = m v := by
  induction xs generalizing m esp with
  | nil => rfl
  | cons x xs ih =>
      rw [List.length_cons] at hn hv
      have hbase : esp - 4#32 - BitVec.ofNat 32 (4 * xs.length) =
          esp - BitVec.ofNat 32 (4 * (xs.length + 1)) := by
        bv_omega
      rw [pushed, ih _ _ (by omega) (by rw [hbase]; omega), writeWord, if_neg]
      bv_omega

theorem readWord_pushed_above (m : ByteMem) (esp : BitVec 32) (xs : List (BitVec 32))
    {v : BitVec 32} (hn : 4 * xs.length ≤ (v - (esp - BitVec.ofNat 32 (4 * xs.length))).toNat)
    (hv : (v - (esp - BitVec.ofNat 32 (4 * xs.length))).toNat + 4 ≤ 2 ^ 32) :
    readWord (pushed m esp xs) v = readWord m v := by
  refine readWord_congr fun k hk => pushed_above m esp xs (by omega) ?_
  bv_omega

/-- The words are found again. -/
theorem readWord_pushed (m : ByteMem) (esp : BitVec 32) (xs : List (BitVec 32)) {i : Nat}
    {x : BitVec 32} (hx : xs[i]? = some x) (hn : 4 * xs.length ≤ 2 ^ 32) :
    readWord (pushed m esp xs) (esp - BitVec.ofNat 32 (4 * (i + 1))) = x := by
  induction xs generalizing m esp i with
  | nil => cases hx
  | cons y xs ih =>
      rw [List.length_cons] at hn
      cases i with
      | zero =>
          obtain rfl := Option.some.inj hx
          rw [pushed, readWord_pushed_above _ _ _ (by bv_omega) (by bv_omega)]
          exact readWord_writeWord_self ..
      | succ i =>
          have hsub : esp - BitVec.ofNat 32 (4 * (i + 1 + 1)) =
              esp - 4#32 - BitVec.ofNat 32 (4 * (i + 1)) := by
            bv_omega
          rw [pushed, hsub]
          exact ih _ _ hx (by omega)

/-- A push leaves the operand alone. -/
def Source.Stable : Source → Prop
  | .reg r => r ≠ .esp
  | .mem _ => False
  | _ => True

namespace Cpu

variable {L : Layout} {c : Cpu (FlatSpace L)}

theorem value_of_stable {src : Source} (h : src.Stable) (mem : FlatSpace L) (esp : BitVec 32) :
    ((c.setMem mem).setReg .esp esp).value src = c.value src := by
  cases src with
  | reg r => simp [value, setReg, setMem, Function.update_of_ne h]
  | mem o => exact absurd h id
  | seg r => rfl
  | imm x => rfl
  | eflags => rfl

theorem exec_push {src : Source} {x : BitVec 32} (hx : c.value src = some x)
    (h : c.mem.Owns (c.reg .esp - 4#32) 4) :
    c.exec (.push src) = some ((c.setMem (c.mem.become (pushed (c.mem.flat c.mem.cr3)
      (c.reg .esp) [x]))).setReg .esp (c.reg .esp - 4#32)) := by
  rw [exec, hx, Option.bind_eq_bind, Option.bind_some, push, FlatSpace.store_private h]
  rfl

/-- A sequence of pushes. -/
theorem run_pushes {srcs : List Source} {xs : List (BitVec 32)} (hs : ∀ src ∈ srcs, src.Stable)
    (hv : srcs.map c.value = xs.map some) (hn : 4 * xs.length ≤ 2 ^ 32)
    (h : c.mem.Owns (c.reg .esp - BitVec.ofNat 32 (4 * xs.length)) (4 * xs.length)) :
    c.run (srcs.map .push) = some ((c.setMem (c.mem.become (pushed (c.mem.flat c.mem.cr3)
      (c.reg .esp) xs))).setReg .esp (c.reg .esp - BitVec.ofNat 32 (4 * xs.length))) := by
  induction srcs generalizing c xs with
  | nil =>
      obtain rfl : xs = [] := by simpa using hv.symm
      simp [run, setReg, setMem, FlatSpace.become, pushed]
  | cons src srcs ih =>
      cases xs with
      | nil => cases hv
      | cons x xs =>
          simp only [List.map_cons, List.cons.injEq] at hv
          rw [List.length_cons] at hn h
          have hword : c.reg .esp - BitVec.ofNat 32 (4 * (xs.length + 1)) +
              BitVec.ofNat 32 (4 * xs.length) = c.reg .esp - 4#32 := by
            bv_omega
          have hbase : c.reg .esp - 4#32 - BitVec.ofNat 32 (4 * xs.length) =
              c.reg .esp - BitVec.ofNat 32 (4 * (xs.length + 1)) := by
            bv_omega
          have hfirst : c.mem.Owns (c.reg .esp - 4#32) 4 := by
            rw [← hword]
            exact h.sub (by bv_omega)
          rw [List.map_cons, run, exec_push hv.1 hfirst, Option.bind_some, @ih _ xs]
          · simp [setReg, setMem, hbase, pushed, FlatSpace.become]
          · exact fun s hmem => hs s (List.mem_cons_of_mem _ hmem)
          · rw [← hv.2]
            exact List.map_congr_left fun s hmem =>
              value_of_stable (hs s (List.mem_cons_of_mem _ hmem)) _ _
          · omega
          · simp only [setReg, setMem, Function.update_self, hbase]
            exact ⟨h.dir, (h.mono (by omega)).addrs, (h.mono (by omega)).not_shared⟩

end Cpu

/-- The words `xs` are on the stack of the active space. -/
structure Cpu.Pushed {L : Layout} (c c' : Cpu (FlatSpace L)) (xs : List (BitVec 32)) : Prop where
  mem : c'.mem = c.mem.become (pushed (c.mem.flat c.mem.cr3) (c.reg .esp) xs)
  reg : c'.reg = Function.update c.reg .esp (c.reg .esp - BitVec.ofNat 32 (4 * xs.length))
  seg : c'.seg = c.seg
  eflags : c'.eflags = c.eflags
  eip : c'.eip = c.eip

namespace Cpu.Pushed

variable {L : Layout} {c d e : Cpu (FlatSpace L)} {xs ys : List (BitVec 32)}

theorem of_setReg (c : Cpu (FlatSpace L)) (xs : List (BitVec 32)) :
    Pushed c ((c.setMem (c.mem.become (pushed (c.mem.flat c.mem.cr3) (c.reg .esp) xs))).setReg .esp
      (c.reg .esp - BitVec.ofNat 32 (4 * xs.length))) xs :=
  ⟨rfl, rfl, rfl, rfl, rfl⟩

theorem esp (h : Pushed c d xs) : d.reg .esp = c.reg .esp - BitVec.ofNat 32 (4 * xs.length) := by
  rw [h.reg, Function.update_self]

theorem cr3 (h : Pushed c d xs) : d.mem.cr3 = c.mem.cr3 := by
  rw [h.mem, FlatSpace.become_cr3]

theorem owns (h : Pushed c d xs) {v : BitVec 32} {n : Nat} (hv : c.mem.Owns v n) :
    d.mem.Owns v n := by
  rw [h.mem]
  exact ⟨hv.dir, hv.addrs, hv.not_shared⟩

theorem trans (h : Pushed c d xs) (h' : Pushed d e ys) : Pushed c e (xs ++ ys) := by
  have hlen : c.reg .esp - BitVec.ofNat 32 (4 * xs.length) - BitVec.ofNat 32 (4 * ys.length) =
      c.reg .esp - BitVec.ofNat 32 (4 * (xs ++ ys).length) := by
    rw [List.length_append]
    bv_omega
  refine ⟨?_, ?_, h'.seg.trans h.seg, h'.eflags.trans h.eflags, h'.eip.trans h.eip⟩
  · rw [h'.mem, h.mem, h.esp, FlatSpace.become_cr3, FlatSpace.become_flat_cr3,
      FlatSpace.become_become, pushed_append]
  · rw [h'.reg, h.reg, Function.update_self, Function.update_idem, hlen]

/-- One word more. -/
theorem exec (h : Pushed c d xs) {src : Source} {x : BitVec 32} (hx : d.value src = some x)
    (howns : c.mem.Owns (d.reg .esp - 4#32) 4) :
    ∃ e, d.exec (.push src) = some e ∧ Pushed c e (xs ++ [x]) :=
  ⟨_, exec_push hx (h.owns howns), h.trans (of_setReg d [x])⟩

/-- More words. -/
theorem run (h : Pushed c d xs) {srcs : List Source} (hs : ∀ src ∈ srcs, src.Stable)
    (hv : srcs.map d.value = ys.map some) (hn : 4 * ys.length ≤ 2 ^ 32)
    (howns : c.mem.Owns (d.reg .esp - BitVec.ofNat 32 (4 * ys.length)) (4 * ys.length)) :
    ∃ e, d.run (srcs.map .push) = some e ∧ Pushed c e (xs ++ ys) :=
  ⟨_, run_pushes hs hv hn (h.owns howns), h.trans (of_setReg d ys)⟩

end Cpu.Pushed

/-- The words from the stack pointer on are in the registers `dsts`. -/
structure Cpu.Popped {μ : Type} [Memory μ] (c c' : Cpu μ) (dsts : List Dest) : Prop where
  mem : c'.mem = c.mem
  eflags : c'.eflags = c.eflags
  eip : c'.eip = c.eip
  esp : c'.reg .esp = c.reg .esp + BitVec.ofNat 32 (4 * dsts.length)
  reg : ∀ r, r ≠ .esp → .reg r ∉ dsts → c'.reg r = c.reg r
  seg : ∀ r, .seg r ∉ dsts → c'.seg r = c.seg r
  word : ∀ i r, dsts[i]? = some (.reg r) →
    Memory.load c.mem (c.reg .esp + BitVec.ofNat 32 (4 * i)) = some (c'.reg r)
  selector : ∀ i r x, dsts[i]? = some (.seg r) →
    Memory.load c.mem (c.reg .esp + BitVec.ofNat 32 (4 * i)) = some x →
    c'.seg r = x.setWidth 16

namespace Cpu

variable {μ : Type} [Memory μ] {c : Cpu μ}

theorem exec_pop (dst : Dest) {x : BitVec 32} (h : Memory.load c.mem (c.reg .esp) = some x) :
    c.exec (.pop dst) = some ((c.setReg .esp (c.reg .esp + 4#32)).put x dst) := by
  rw [exec, pop, h]
  rfl

omit [Memory μ] in
/-- What a pop leaves alone. -/
theorem put_frame (c : Cpu μ) (esp x : BitVec 32) {dst : Dest} (h : .reg .esp ≠ dst) :
    ((c.setReg .esp esp).put x dst).reg .esp = esp ∧
      ((c.setReg .esp esp).put x dst).mem = c.mem ∧
      ((c.setReg .esp esp).put x dst).eflags = c.eflags ∧
      ((c.setReg .esp esp).put x dst).eip = c.eip := by
  cases dst with
  | reg r =>
      have hr : Reg.esp ≠ r := fun he => h (by rw [he])
      simp [put, setReg, Function.update_of_ne hr]
  | seg r => simp [put, setReg, setSeg]

/-- A sequence of pops. -/
theorem run_pops {dsts : List Dest} (hesp : .reg .esp ∉ dsts) (hnd : dsts.Nodup)
    (h : ∀ i < dsts.length,
      (Memory.load c.mem (c.reg .esp + BitVec.ofNat 32 (4 * i))).isSome) :
    ∃ c', c.run (dsts.map .pop) = some c' ∧ Popped c c' dsts := by
  induction dsts generalizing c with
  | nil =>
      refine ⟨c, rfl, rfl, rfl, rfl, ?_, fun _ _ _ => rfl, fun _ _ => rfl, ?_, ?_⟩
      · simp
      · intro i r hi
        cases hi
      · intro i r x hi
        cases hi
  | cons dst dsts ih =>
      simp only [List.mem_cons, not_or] at hesp
      obtain ⟨hmem, hnd⟩ := List.nodup_cons.mp hnd
      have hzero : c.reg .esp + BitVec.ofNat 32 (4 * 0) = c.reg .esp := BitVec.add_zero _
      have hsucc : ∀ i : Nat, c.reg .esp + 4#32 + BitVec.ofNat 32 (4 * i) =
          c.reg .esp + BitVec.ofNat 32 (4 * (i + 1)) := by
        intro i
        bv_omega
      have hfirst := h 0 (Nat.succ_pos _)
      rw [hzero] at hfirst
      obtain ⟨x, hx⟩ := Option.isSome_iff_exists.mp hfirst
      obtain ⟨h₁, h₂, h₃, h₄⟩ := put_frame c (c.reg .esp + 4#32) x hesp.1
      obtain ⟨c', hc', hp⟩ := ih (c := (c.setReg .esp (c.reg .esp + 4#32)).put x dst) hesp.2 hnd (by
        intro i hi
        rw [h₁, h₂, hsucc]
        exact h (i + 1) (by rw [List.length_cons]; omega))
      refine ⟨c', ?_, hp.mem.trans h₂, hp.eflags.trans h₃, hp.eip.trans h₄, ?_, ?_, ?_, ?_, ?_⟩
      · rw [List.map_cons, run, exec_pop dst hx, Option.bind_some]
        exact hc'
      · rw [hp.esp, h₁, hsucc, List.length_cons]
      · intro r hr hnot
        simp only [List.mem_cons, not_or] at hnot
        rw [hp.reg r hr hnot.2]
        cases dst with
        | reg q =>
            have hq : r ≠ q := fun he => hnot.1 (by rw [he])
            simp [put, setReg, Function.update_of_ne hq, Function.update_of_ne hr]
        | seg q => simp [put, setReg, setSeg, Function.update_of_ne hr]
      · intro r hnot
        simp only [List.mem_cons, not_or] at hnot
        rw [hp.seg r hnot.2]
        cases dst with
        | reg q => rfl
        | seg q =>
            have hq : r ≠ q := fun he => hnot.1 (by rw [he])
            simp [put, setReg, setSeg, Function.update_of_ne hq]
      · intro i r hi
        cases i with
        | zero =>
            obtain rfl := Option.some.inj hi
            have hr : r ≠ .esp := fun he => hesp.1 (by rw [he])
            rw [hp.reg r hr hmem, hzero, hx]
            simp [put, setReg]
        | succ i =>
            rw [← hp.word i r hi, h₁, h₂, hsucc]
      · intro i r y hi hy
        cases i with
        | zero =>
            obtain rfl := Option.some.inj hi
            rw [hzero, hx] at hy
            obtain rfl := Option.some.inj hy
            rw [hp.seg r hmem]
            simp [put, setReg, setSeg]
        | succ i =>
            refine hp.selector i r y hi ?_
            rw [h₁, h₂, hsucc]
            exact hy

end Cpu

end Muse.Library.X86
