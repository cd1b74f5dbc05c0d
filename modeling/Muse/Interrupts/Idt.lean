import Mathlib.Logic.Function.Basic
import Muse.Library.X86Interrupt

/-!
# The interrupt descriptor table

`init_idt` of `src/kernel/interrupts.c`, with the gates that the processor takes from the table.
-/

namespace Muse.Interrupts

open Muse.Library.X86

/-- `struct idt_entry`. -/
structure IdtEntry where
  isrAddrLow : BitVec 16
  kernelCs : BitVec 16
  reserved : BitVec 8
  attributes : BitVec 8
  isrAddrHigh : BitVec 16
  deriving DecidableEq

/-- The gate of an entry, from the two words of the packed structure. -/
def IdtEntry.gate (e : IdtEntry) : Gate :=
  .decode (e.kernelCs ++ e.isrAddrLow) (e.isrAddrHigh ++ e.attributes ++ e.reserved)

abbrev Idt : Type := Nat → IdtEntry

/-- `idt` before `init_idt`. -/
def zeroIdt : Idt := fun _ => ⟨0#16, 0#16, 0#8, 0#8, 0#16⟩

/-- `idt_set_entry` (`interrupts.c:51-61`). -/
def idtSetEntry (idt : Idt) (vector : Nat) (isr : BitVec 32) (user : Bool) : Idt :=
  Function.update idt vector
    { isrAddrLow := isr.setWidth 16
      isrAddrHigh := (isr >>> 16).setWidth 16
      kernelCs := 0x08#16
      attributes := if user then 0x8E#8 ||| 0x60#8 else 0x8E#8
      reserved := 0#8 }

/-- The addresses of the handlers. -/
structure Handlers where
  handleGpf : BitVec 32
  handleKeypress : BitVec 32
  handleTimer : BitVec 32
  syscallIsr : BitVec 32

/-- `init_idt` (`interrupts.c:63-73`). -/
def initIdt (h : Handlers) (timerIrq : BitVec 32) (idt : Idt) : Idt :=
  let idt := idtSetEntry idt 0xD h.handleGpf false
  let idt := idtSetEntry idt 0x31 h.handleKeypress false
  let idt := idtSetEntry idt (0x30 + timerIrq.toNat) h.handleTimer false
  idtSetEntry idt 0x80 h.syscallIsr true

/-- A gate for a handler of the kernel. -/
def kernelGate (isr : BitVec 32) (user : Bool) : Gate :=
  ⟨isr, 0x08#16, 0xE#5, if user then 3#2 else 0#2, true⟩

/-- The fields of a gate in the packed structure. -/
theorem gate_eq (e : IdtEntry) : e.gate = ⟨e.isrAddrHigh ++ e.isrAddrLow, e.kernelCs,
    e.attributes.extractLsb' 0 5, e.attributes.extractLsb' 5 2, e.attributes.getLsbD 7⟩ := by
  rw [IdtEntry.gate, Gate.decode, Gate.mk.injEq]
  refine ⟨?_, ?_, ?_, ?_, ?_⟩
  case refine_5 =>
    simp only [BitVec.getLsbD_append]
    grind
  all_goals
    apply BitVec.eq_of_getLsbD_eq
    intro i hi
    simp only [BitVec.getLsbD_append, BitVec.getLsbD_extractLsb']
    grind

/-- The gate of an entry that was set. -/
theorem gate_idtSetEntry (idt : Idt) (vector : Nat) (isr : BitVec 32) (user : Bool) :
    (idtSetEntry idt vector isr user vector).gate = kernelGate isr user := by
  have haddr : (isr >>> 16).setWidth 16 ++ isr.setWidth 16 = isr := by
    apply BitVec.eq_of_getLsbD_eq
    intro i hi
    simp only [BitVec.getLsbD_append, BitVec.getLsbD_setWidth, BitVec.getLsbD_ushiftRight]
    grind
  rw [idtSetEntry, Function.update_self, gate_eq, haddr, kernelGate]
  cases user with
  | false => simp
  | true => simp

theorem gate_zeroIdt (vector : Nat) : (zeroIdt vector).gate = ⟨0#32, 0#16, 0#5, 0#2, false⟩ := by
  rw [gate_eq]
  simp [zeroIdt]

end Muse.Interrupts
