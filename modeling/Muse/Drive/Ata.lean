import Mathlib.Logic.Function.Basic
import Muse.Ext2.Device

/-!
# The ATA driver

`ata_transfer` of `src/common/ata.c` and what it calls. The driver reaches a drive through the
registers of its bus, so its functions run on anything that has these (`Ports`).

A `Bus` is a drive of which nothing is known: a read of a register yields whatever the drive
answers, in whatever state it is, so the answers are a sequence. Writes set the registers that a
command uses, and a write to the command register issues a command with the registers as they are.
-/

namespace Muse.Drive

open Muse.Ext2

/-- The registers behind a bus, without the data register. -/
inductive Reg where
  | err
  | sectCnt
  | lbaLo
  | lbaMid
  | lbaHi
  | drive
  | stat
  deriving DecidableEq, Repr

/-- What a command finds in the registers. -/
structure Regs where
  sectCnt : BitVec 8
  lbaLo : BitVec 8
  lbaMid : BitVec 8
  lbaHi : BitVec 8
  drive : BitVec 8
  deriving DecidableEq

/-- A command with its registers. -/
structure Command where
  code : BitVec 8
  regs : Regs
  deriving DecidableEq

/-- A bus. `answer n` is the answer to read number `n`, `word n` is word number `n` of the data
    register; `sent` are the words that were written to that one, and `commands` the commands,
    both with the latest first. -/
structure Bus where
  answer : Nat → Reg → BitVec 8
  word : Nat → BitVec 16
  reads : Nat
  wordReads : Nat
  regs : Regs
  sent : List (BitVec 16)
  commands : List Command

/-- `ATA_DRIVE_MASTER` and `ATA_DRIVE_SLAVE`. -/
inductive DriveSelect where
  | master
  | slave
  deriving DecidableEq, Repr

def DriveSelect.toByte : DriveSelect → BitVec 8
  | .master => 0xA0#8
  | .slave => 0xB0#8

/-- The fields of `struct ata_dev` that a transfer uses; its bus is the `Bus` it works on. -/
structure AtaDev where
  drive : DriveSelect
  lba28 : Bool

/-- `struct partition` (`include/muse/gpt.h`), without the drive it is on. -/
structure Partition where
  start : BitVec 32
  limit : BitVec 32
  deriving DecidableEq

/-- `ATA_CMD_READ_SECTORS`. -/
def cmdReadSectors : BitVec 8 := 0x20#8

/-- `ATA_CMD_WRITE_SECTORS`. -/
def cmdWriteSectors : BitVec 8 := 0x30#8

/-- `ATA_CMD_FLUSH`. -/
def cmdFlush : BitVec 8 := 0xE7#8

/-- `ATA_FLAG_BSY`. -/
def flagBsy : BitVec 8 := 0x80#8

/-- `ATA_FLAG_ERR`. -/
def flagErr : BitVec 8 := 0x01#8

/-- `ATA_FLAG_DRIVE_FLT`. -/
def flagDriveFlt : BitVec 8 := 0x20#8

/-- `ATA_FLAG_DRQ`. -/
def flagDrq : BitVec 8 := 0x08#8

/-- `MAX_POLLS` (`include/muse/ata.h`). -/
def maxPolls : Nat := 10000000

namespace Bus

def inb (b : Bus) (r : Reg) : BitVec 8 × Bus :=
  (b.answer b.reads r, { b with reads := b.reads + 1 })

/-- `outb` to a register; one to the command register issues a command. -/
def outb (b : Bus) (r : Reg) (x : BitVec 8) : Bus :=
  match r with
  | .err => b
  | .sectCnt => { b with regs := { b.regs with sectCnt := x } }
  | .lbaLo => { b with regs := { b.regs with lbaLo := x } }
  | .lbaMid => { b with regs := { b.regs with lbaMid := x } }
  | .lbaHi => { b with regs := { b.regs with lbaHi := x } }
  | .drive => { b with regs := { b.regs with drive := x } }
  | .stat => { b with commands := ⟨x, b.regs⟩ :: b.commands }

def inw (b : Bus) : BitVec 16 × Bus := (b.word b.wordReads, { b with wordReads := b.wordReads + 1 })

def outw (b : Bus) (x : BitVec 16) : Bus := { b with sent := x :: b.sent }

end Bus

/-- What the driver does with the ports of a bus. -/
class Ports (β : Type) where
  inb : β → Reg → BitVec 8 × β
  outb : β → Reg → BitVec 8 → β
  inw : β → BitVec 16 × β
  outw : β → BitVec 16 → β

instance : Ports Bus := ⟨Bus.inb, Bus.outb, Bus.inw, Bus.outw⟩

/-- The command for a direction (`ata.c:124-130`). -/
def transferCmd : DataDir → BitVec 8
  | .read => cmdReadSectors
  | .write => cmdWriteSectors

namespace Ports

variable {β : Type} [Ports β]

/-- `n` reads of the status register whose answers are not used. -/
def readStat : Nat → β → β
  | 0, b => b
  | n + 1, b => readStat n (inb b .stat).2

/-- `delay_400ns` (`ata.c:66-70`). -/
def delay400ns (b : β) : β := readStat 15 b

/-- The loops of `select_region` and `flush_cache` that wait while a flag of `mask` is set. The
    first argument is the number of polls until the timeout. -/
def waitWhile (mask : BitVec 8) : Nat → β → DriveRes × β
  | 0, b => (.errTimeout, b)
  | n + 1, b =>
      let (status, b) := inb b .stat
      if status &&& mask ≠ 0#8 then waitWhile mask n b else (.success, b)

/-- The loop of `poll_data` (`ata.c:48-63`), with the number of polls until the timeout. -/
def pollDataLoop : Nat → β → DriveRes × β
  | 0, b => (.errTimeout, b)
  | n + 1, b =>
      let (status, b) := inb b .stat
      if status &&& flagBsy ≠ 0#8 then pollDataLoop n b
      else if status &&& flagErr ≠ 0#8 ∨ status &&& flagDriveFlt ≠ 0#8 then (.errIoFailed, b)
      else if status &&& flagDrq ≠ 0#8 then (.success, b)
      else pollDataLoop n b

/-- `poll_data` (`ata.c:45-64`). It gives up before poll number `MAX_POLLS`. -/
def pollData (b : β) : DriveRes × β := pollDataLoop (maxPolls - 1) b

/-- `select_region` (`ata.c:72-92`). -/
def selectRegion (b : β) (dev : AtaDev) (lba : BitVec 32) (sectorCount : BitVec 8) :
    DriveRes × β :=
  let (res, b) := waitWhile (flagBsy ||| flagDrq) maxPolls b
  if res ≠ .success then (res, b)
  else
    let b := outb b .drive (dev.drive.toByte ||| ((lba >>> 24) &&& 0xF#32).setWidth 8 ||| 0xE0#8)
    let b := delay400ns b
    let (err, b) := inb b .err
    let (status, b) := inb b .stat
    if err ||| (status &&& (flagBsy ||| flagDrq)) ≠ 0#8 then (.errIoFailed, b)
    else
      let b := outb b .sectCnt sectorCount
      let b := outb b .lbaLo (lba.setWidth 8)
      let b := outb b .lbaMid ((lba >>> 8).setWidth 8)
      let b := outb b .lbaHi ((lba >>> 16).setWidth 8)
      (.success, b)

/-- `flush_cache` (`ata.c:94-105`). -/
def flushCache (b : β) : DriveRes × β := waitWhile flagBsy maxPolls (outb b .stat cmdFlush)

/-- The first `n` words of sector `i` (`ata.c:140-148`). -/
def moveWords (dir : DataDir) (i : Nat) : Nat → β × (Nat → BitVec 16) → β × (Nat → BitVec 16)
  | 0, s => s
  | n + 1, s =>
      let (b, data) := moveWords dir i n s
      match dir with
      | .read =>
          let (x, b) := inw b
          (b, Function.update data (n + i * 256) x)
      | .write => (outw b (data (n + i * 256)), data)

/-- The loop over the sectors (`ata.c:135-151`), from sector `i` on. -/
def moveSectors (dir : DataDir) : Nat → Nat → β × (Nat → BitVec 16) →
    DriveRes × β × (Nat → BitVec 16)
  | 0, _, s => (.success, s)
  | n + 1, i, s =>
      let (res, b) := pollData s.1
      if res ≠ .success then (res, b, s.2)
      else
        let moved := moveWords dir i 256 (b, s.2)
        moveSectors dir n (i + 1) (delay400ns moved.1, moved.2)

/-- `ata_transfer` (`ata.c:107-164`) behind `select_region`. -/
def runCommand (b : β) (sectorCount : BitVec 8) (data : Nat → BitVec 16) (dir : DataDir) :
    DriveRes × β × (Nat → BitVec 16) :=
  let b := outb b .stat (transferCmd dir)
  let b := readStat 4 b
  let (res, b, data) := moveSectors dir sectorCount.toNat 0 (b, data)
  if res ≠ .success then (res, b, data)
  else
    let (res, b) := flushCache b
    if res ≠ .success then (res, b, data)
    else
      let (status, b) := inb b .stat
      if status &&& (flagErr ||| flagDriveFlt) ≠ 0#8 then (.errIoFailed, b, data)
      else (.success, b, data)

/-- `ata_transfer` (`ata.c:107-164`). -/
def ataTransfer (b : β) (dev : AtaDev) (part : Partition) (lbaOffset : BitVec 32)
    (sectorCount : BitVec 8) (data : Nat → BitVec 16) (dir : DataDir) :
    DriveRes × β × (Nat → BitVec 16) :=
  let lba := lbaOffset + part.start
  if part.limit ≤ lba then (.errBadArgs, b, data)
  else if !dev.lba28 then (.errNoSupportedMode, b, data)
  else
    let (res, b) := selectRegion b dev lba sectorCount
    if res ≠ .success then (res, b, data)
    else runCommand b sectorCount data dir

end Ports

end Muse.Drive
