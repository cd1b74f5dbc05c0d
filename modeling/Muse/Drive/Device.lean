import Muse.Drive.Proofs.Partition

/-!
# An ATA drive

A drive in LBA28 PIO mode as the driver meets it: the commands that read and write sectors and the
one that flushes the write cache. After a command or the words of a sector, the status register is
not valid for a number of reads and then shows `BSY` for another number of them, both chosen by the
drive (`Timing`). The bits of the status register that the protocol leaves open have any value.

A command for sectors that the drive does not have fails: the drive shows `ERR`, and its error
register is not 0 until it takes another command. A command is ignored while the drive is busy or
has a sector to move.
-/

namespace Muse.Drive

open Muse.Ext2

/-- The reads of the status register until the drive answers. -/
structure Wait where
  stale : Nat
  busy : Nat
  deriving DecidableEq

namespace Wait

def none : Wait := ⟨0, 0⟩

/-- The wait after `n` reads of the status register. -/
def after (w : Wait) (n : Nat) : Wait := ⟨w.stale - n, w.busy - (n - w.stale)⟩

end Wait

/-- What a drive is waited for. -/
inductive Moment where
  | command
  | block
  | last
  | flush

/-- How long the drive takes: `wait m k` when `k` waits were before. -/
structure Timing where
  wait : Moment → Nat → Wait
  noise : Nat → BitVec 8

/-- What is fixed about a drive. `errCode` is its error register after a command that failed. -/
structure DriveSpec where
  timing : Timing
  capacity : Nat
  errCode : BitVec 8

inductive Phase where
  | idle
  | failed
  | data (dir : DataDir) (lba left pos : Nat)
  deriving DecidableEq

/-- The status of a drive that is not busy. -/
def Phase.bits : Phase → BitVec 8
  | .idle => 0#8
  | .failed => flagErr
  | .data .. => flagDrq

/-- A drive. `sectors` is what it shows of its sectors and `medium` what is left of them without the
    write cache. -/
structure Disk where
  spec : DriveSpec
  sectors : Nat → Nat → BitVec 16
  medium : Nat → Nat → BitVec 16
  regs : Regs
  err : BitVec 8
  phase : Phase
  wait : Wait
  waits : Nat
  reads : Nat

namespace Disk

/-- The bits of the status register that the driver looks at. -/
def flags : BitVec 8 := flagBsy ||| flagDriveFlt ||| flagDrq ||| flagErr

def status (d : Disk) : BitVec 8 :=
  let noise := d.spec.timing.noise d.reads
  if 0 < d.wait.stale then noise
  else if 0 < d.wait.busy then noise ||| flagBsy
  else noise &&& ~~~flags ||| d.phase.bits

/-- `n` reads of the status register. -/
def ticks (d : Disk) (n : Nat) : Disk := { d with wait := d.wait.after n, reads := d.reads + n }

def setRegs (d : Disk) (regs : Regs) : Disk := { d with regs }

def inb (d : Disk) : Reg → BitVec 8 × Disk
  | .stat => (d.status, d.ticks 1)
  | .err => (d.err, d)
  | .sectCnt => (d.regs.sectCnt, d)
  | .lbaLo => (d.regs.lbaLo, d)
  | .lbaMid => (d.regs.lbaMid, d)
  | .lbaHi => (d.regs.lbaHi, d)
  | .drive => (d.regs.drive, d)

/-- The drive begins to work. -/
def enter (d : Disk) (m : Moment) (phase : Phase) : Disk :=
  { d with phase, wait := d.spec.timing.wait m d.waits, waits := d.waits + 1 }

/-- The drive takes a command. -/
def Takes (d : Disk) : Prop := d.wait = .none ∧ (d.phase = .idle ∨ d.phase = .failed)

instance (d : Disk) : Decidable d.Takes := inferInstanceAs (Decidable (_ ∧ _))

def accept (d : Disk) (m : Moment) (phase : Phase) : Disk := { d with err := 0#8 }.enter m phase

def reject (d : Disk) : Disk := { d with err := d.spec.errCode }.enter .command .failed

/-- A command for the sectors that the registers name. -/
def transfer (d : Disk) (dir : DataDir) : Disk :=
  let c : Command := ⟨0#8, d.regs⟩
  if c.address.toNat + c.count ≤ d.spec.capacity then
    d.accept .command (.data dir c.address.toNat c.count 0)
  else d.reject

def flush (d : Disk) : Disk := { d with medium := d.sectors }.accept .flush .idle

def command (d : Disk) (code : BitVec 8) : Disk :=
  if ¬ d.Takes then d
  else if code = cmdReadSectors then d.transfer .read
  else if code = cmdWriteSectors then d.transfer .write
  else if code = cmdFlush then d.flush
  else d.reject

def outb (d : Disk) (r : Reg) (x : BitVec 8) : Disk :=
  match r with
  | .err => d
  | .sectCnt => d.setRegs { d.regs with sectCnt := x }
  | .lbaLo => d.setRegs { d.regs with lbaLo := x }
  | .lbaMid => d.setRegs { d.regs with lbaMid := x }
  | .lbaHi => d.setRegs { d.regs with lbaHi := x }
  | .drive => d.setRegs { d.regs with drive := x }
  | .stat => d.command x

/-- The drive behind word `pos` of the sector `lba`, which is the first of `left` ones. -/
def advance (d : Disk) (dir : DataDir) (lba left pos : Nat) : Disk :=
  if pos + 1 < 256 then { d with phase := .data dir lba left (pos + 1) }
  else if 1 < left then d.enter .block (.data dir (lba + 1) (left - 1) 0)
  else d.enter .last .idle

def setWord (d : Disk) (lba pos : Nat) (x : BitVec 16) : Disk :=
  { d with sectors := Function.update d.sectors lba (Function.update (d.sectors lba) pos x) }

def inw (d : Disk) : BitVec 16 × Disk :=
  match d.phase with
  | .data .read lba left pos =>
      if d.wait = .none then (d.sectors lba pos, d.advance .read lba left pos) else (0xFFFF#16, d)
  | _ => (0xFFFF#16, d)

def outw (d : Disk) (x : BitVec 16) : Disk :=
  match d.phase with
  | .data .write lba left pos =>
      if d.wait = .none then (d.setWord lba pos x).advance .write lba left pos else d
  | _ => d

end Disk

instance : Ports Disk := ⟨Disk.inb, Disk.outb, Disk.inw, Disk.outw⟩

/-- The waits that the driver allows for. It reads the status register four times after a command
    and fifteen times after a sector, it sends the flush command without waiting for the last
    sector, and it looks at the status right behind that command. -/
structure Timing.InTime (t : Timing) : Prop where
  command : ∀ k, (t.wait .command k).stale ≤ 4 ∧ (t.wait .command k).busy + 2 ≤ maxPolls
  block : ∀ k, (t.wait .block k).stale ≤ 15 ∧ (t.wait .block k).busy + 2 ≤ maxPolls
  last : ∀ k, (t.wait .last k).stale + (t.wait .last k).busy ≤ 15
  flush : ∀ k, (t.wait .flush k).stale = 0 ∧ (t.wait .flush k).busy < maxPolls

end Muse.Drive
