import Mathlib.Data.List.Range
import Muse.Interrupts.Idt

/-!
# The interrupt controllers

`init_pic` (`src/kernel/pic.c`), `init_hpet` (`src/kernel/hpet.c`) and the part of `init_ioapic`
(`src/kernel/apic.c`) behind the search for the I/O APIC, with the registers that they write. The
registers of the I/O APIC are behind a window: a number is written to the first word and the
register is at the offset `0x10`. `read_ioapic` adds `0x10` to a pointer to words and so reads at
the offset `0x40`, where there is no register; what it gets there is not known (`IoApic.other`).
-/

namespace Muse.Interrupts

/-! ## The PICs -/

/-- What a PIC takes the next byte on its data port for. -/
inductive PicStage where
  | mask
  | icw2
  | icw3
  | icw4
  deriving DecidableEq

structure Pic where
  stage : PicStage
  offset : BitVec 8
  cascade : BitVec 8
  mode : BitVec 8
  mask : BitVec 8
  deriving DecidableEq

/-- A byte on the command port; one with bit 4 starts the initialization. -/
def Pic.command (p : Pic) (x : BitVec 8) : Pic :=
  if x.getLsbD 4 then { p with stage := .icw2, mask := 0#8 } else p

def Pic.data (p : Pic) (x : BitVec 8) : Pic :=
  match p.stage with
  | .mask => { p with mask := x }
  | .icw2 => { p with stage := .icw3, offset := x }
  | .icw3 => { p with stage := .icw4, cascade := x }
  | .icw4 => { p with stage := .mask, mode := x }

structure Pics where
  pic1 : Pic
  pic2 : Pic

/-- `outb` to a port of the PICs; other ports do not concern them. -/
def Pics.outb (p : Pics) (port : BitVec 16) (x : BitVec 8) : Pics :=
  if port = 0x20#16 then { p with pic1 := p.pic1.command x }
  else if port = 0x21#16 then { p with pic1 := p.pic1.data x }
  else if port = 0xA0#16 then { p with pic2 := p.pic2.command x }
  else if port = 0xA1#16 then { p with pic2 := p.pic2.data x }
  else p

/-- The bytes that `init_pic` sends (`pic.c:31-56`), without those of `io_wait`. -/
def initPicBytes : List (BitVec 16 × BitVec 8) :=
  [(0x20#16, 0x10#8 ||| 0x01#8), (0xA0#16, 0x10#8 ||| 0x01#8), (0x21#16, 0x20#8), (0xA1#16, 0x28#8),
    (0x21#16, 1#8 <<< 2), (0xA1#16, 2#8), (0x21#16, 0x01#8), (0xA1#16, 0x01#8), (0x21#16, 0xFF#8),
    (0xA1#16, 0xFF#8)]

/-- `init_pic` (`pic.c:30-58`). -/
def initPic (p : Pics) : Pics := initPicBytes.foldl (fun p b => p.outb b.1 b.2) p

/-! ## The HPET -/

/-- The first two words of a timer, its configuration and the interrupts that it can be routed
    to. -/
structure TimerRegs where
  conf : BitVec 32
  routingMap : BitVec 32

structure Hpet where
  capabilities : BitVec 32
  period : BitVec 32
  generalConf : BitVec 32
  timers : Nat → TimerRegs

/-- `timer_idx`, `timer_irq` and `tick_period`. -/
structure TimerInfo where
  idx : BitVec 32
  irq : BitVec 32
  tickPeriod : BitVec 32

/-- `stop_hpet` (`hpet.c:21-24`). -/
def Hpet.stop (h : Hpet) : Hpet := { h with generalConf := h.generalConf &&& ~~~1#32 }

/-- `timer_count` (`hpet.c:37`). -/
def Hpet.timerCount (h : Hpet) : Nat := ((h.capabilities >>> 8) &&& 0x1F#32).toNat + 1

def Hpet.setConf (h : Hpet) (i : Nat) (conf : BitVec 32) : Hpet :=
  { h with timers := Function.update h.timers i { h.timers i with conf } }

/-- The interrupt that `init_hpet` chooses for a timer (`hpet.c:56-58`); 1 is the keyboard's. -/
def routableIrq (routingMap : BitVec 32) : Option Nat :=
  (List.range 32).find? fun j => routingMap.getLsbD j && decide (j ≠ 1)

/-- The loop over the timers (`hpet.c:49-68`), from timer `i` on. -/
def initTimers : Nat → Nat → Hpet × TimerInfo → Hpet × TimerInfo
  | 0, _, s => s
  | n + 1, i, (h, info) =>
      let h := h.setConf i ((h.timers i).conf ||| 1#32 <<< 8)
      match routableIrq (h.timers i).routingMap with
      | some j =>
          let irq := BitVec.ofNat 32 j
          let h := h.setConf i ((h.timers i).conf ||| irq <<< 9)
          let h := h.setConf i ((h.timers i).conf ||| 1#32 <<< 2)
          (h, { info with irq, idx := BitVec.ofNat 32 i })
      | none => initTimers n (i + 1) (h, info)

/-- `init_hpet` (`hpet.c:26-69`) behind the search for its registers. -/
def initHpet (h : Hpet) (info : TimerInfo) : Hpet × TimerInfo :=
  initTimers h.timerCount 0 (h.stop, { info with tickPeriod := h.period })

/-! ## The I/O APIC -/

/-- An I/O APIC. `other n` is what read number `n` at the offset `0x40` yields. -/
structure IoApic where
  select : BitVec 8
  regs : BitVec 8 → BitVec 32
  other : Nat → BitVec 32
  reads : Nat

namespace IoApic

/-- `write_ioapic` (`apic.c:44-47`). -/
def writeIoapic (a : IoApic) (offset : BitVec 8) (val : BitVec 32) : IoApic :=
  { a with select := offset, regs := Function.update a.regs offset val }

/-- `read_ioapic` (`apic.c:49-52`). -/
def readIoapic (a : IoApic) (offset : BitVec 8) : BitVec 32 × IoApic :=
  (a.other a.reads, { a with select := offset, reads := a.reads + 1 })

/-- `map_irq` (`apic.c:54-66`). -/
def mapIrq (a : IoApic) (irq : BitVec 8) : IoApic :=
  let (entryLow, a) := a.readIoapic (0x10#8 + irq * 2#8)
  let (entryHigh, a) := a.readIoapic (0x11#8 + irq * 2#8)
  let entryLow := entryLow &&& ~~~0xFF#32 ||| ((0x30#32 + irq.setWidth 32) &&& 0xFF#32)
  let entryLow := entryLow &&& ~~~(0x7#32 <<< 8)
  let entryLow := entryLow &&& ~~~(0x1#32 <<< 11)
  let entryLow := entryLow &&& ~~~(0x1#32 <<< 15)
  let entryLow := entryLow &&& ~~~(0x1#32 <<< 16)
  let a := a.writeIoapic (0x10#8 + irq * 2#8) entryLow
  a.writeIoapic (0x11#8 + irq * 2#8) entryHigh

/-- The end of `init_ioapic` (`apic.c:89-90`). -/
def initIoapic (a : IoApic) (timerIrq : BitVec 32) : IoApic :=
  (a.mapIrq 1#8).mapIrq (timerIrq.setWidth 8)

/-- The low word of the entry of an interrupt line. -/
def entryLow (a : IoApic) (irq : Nat) : BitVec 32 := a.regs (BitVec.ofNat 8 (0x10 + 2 * irq))

/-- The high word. -/
def entryHigh (a : IoApic) (irq : Nat) : BitVec 32 := a.regs (BitVec.ofNat 8 (0x11 + 2 * irq))

/-- The line is masked. -/
def masked (a : IoApic) (irq : Nat) : Bool := (a.entryLow irq).getLsbD 16

/-- The vector of an interrupt on a line. -/
def vector (a : IoApic) (irq : Nat) : Option (BitVec 8) :=
  if a.masked irq then none else some ((a.entryLow irq).setWidth 8)

end IoApic

/-! ## Initialization -/

structure Chips where
  idt : Idt
  pics : Pics
  hpet : Hpet
  info : TimerInfo
  ioapic : IoApic

/-- The calls of `kmain` (`src/kernel/kernel.c:111-115`). -/
def initInterrupts (h : Handlers) (c : Chips) : Chips :=
  let (hpet, info) := initHpet c.hpet c.info
  { idt := initIdt h info.irq c.idt
    pics := initPic c.pics
    hpet
    info
    ioapic := c.ioapic.initIoapic info.irq }

end Muse.Interrupts
