import Mathlib.Data.List.GetD
import Muse.Drive.Gpt

/-!
# Requests stay inside their partition

A request to a partition is a 32-bit offset and a 32-bit count; the driver programs a 28-bit address
and an 8-bit count. `isolated_iff` says for which requests the sectors that the drive then moves are
the ones that were asked for, and inside of the partition.
-/

namespace Muse.Drive

open Muse.Library Muse.Ext2

/-- The command moves sectors. -/
def Command.isTransfer (c : Command) : Bool :=
  decide (c.code = cmdReadSectors ∨ c.code = cmdWriteSectors)

/-- The first sector, as a drive decodes it in LBA28 mode. -/
def Command.address (c : Command) : BitVec 28 :=
  c.regs.drive.setWidth 4 ++ c.regs.lbaHi ++ c.regs.lbaMid ++ c.regs.lbaLo

/-- The number of sectors, as a drive decodes it. -/
def Command.count (c : Command) : Nat := if c.regs.sectCnt = 0#8 then 256 else c.regs.sectCnt.toNat

/-- The sector is one of those that the command moves. -/
def Command.Moves (c : Command) (sector : Nat) : Prop :=
  c.address.toNat ≤ sector ∧ sector < c.address.toNat + c.count

/-- The commands issued so far that move sectors. -/
def Bus.transfers (b : Bus) : List Command := b.commands.filter Command.isTransfer

/-- The commands of a request move the sectors that it names, all of them inside the partition of
    `entry`; a request without command fails; and a request for one sector of the partition is
    not refused while the drive is ready. -/
structure Isolated (dev : AtaDev) (entry : GptPartition) (part : Partition)
    (offset size : BitVec 32) (dir : DataDir) : Prop where
  exactly : ∀ (b : Bus) data, b.commands = [] →
    ∀ c ∈ (gptTransfer b dev part offset size data dir).2.1.transfers, ∀ sector,
      c.Moves sector ↔ ∃ i < size.toNat, sector = entry.startLba.toNat + offset.toNat + i
  inside : ∀ (b : Bus) data, b.commands = [] →
    ∀ c ∈ (gptTransfer b dev part offset size data dir).2.1.transfers, ∀ sector,
      c.Moves sector → entry.startLba.toNat ≤ sector ∧ sector ≤ entry.endLba.toNat
  refused : ∀ (b : Bus) data, b.commands = [] →
    (gptTransfer b dev part offset size data dir).2.1.transfers = [] →
      (gptTransfer b dev part offset size data dir).1 ≠ .success
  accepted : dev.lba28 → size = 1#32 →
    entry.startLba.toNat + offset.toNat ≤ entry.endLba.toNat → ∀ (b : Bus) data, b.commands = [] →
      (Ports.selectRegion b dev (offset + part.start) 1#8).1 = .success →
        (gptTransfer b dev part offset size data dir).2.1.transfers ≠ []

/-- The requests that are isolated on a drive in LBA28 mode. -/
def GptPartition.Regular (entry : GptPartition) (offset size : BitVec 32) : Prop :=
  let first := entry.startLba.toNat + offset.toNat
  if first % 2 ^ 32 < entry.endLba.toNat % 2 ^ 32 then
    1 ≤ size.toNat ∧ size.toNat ≤ 256 ∧ first < 2 ^ 28 ∧ first + size.toNat ≤ entry.endLba.toNat + 1
  else ¬ (size = 1#32 ∧ first ≤ entry.endLba.toNat)

/-! ## What a transfer leaves in the registers -/

/-- Neither a register nor the commands changed. -/
structure Quiet (b b' : Bus) : Prop where
  regs : b'.regs = b.regs
  commands : b'.commands = b.commands

theorem Quiet.refl (b : Bus) : Quiet b b := ⟨rfl, rfl⟩

theorem Quiet.trans {a b c : Bus} (h : Quiet a b) (h' : Quiet b c) : Quiet a c :=
  ⟨h'.regs.trans h.regs, h'.commands.trans h.commands⟩

namespace Bus

open Ports

theorem inb_quiet (b : Bus) (r : Reg) : Quiet b (Ports.inb b r).2 := ⟨rfl, rfl⟩

theorem readStat_quiet (n : Nat) (b : Bus) : Quiet b (readStat n b) := by
  induction n generalizing b with
  | zero => exact .refl b
  | succ n ih => exact (inb_quiet b .stat).trans (ih _)

theorem delay400ns_quiet (b : Bus) : Quiet b (delay400ns b) := by
  rw [delay400ns]
  exact readStat_quiet 15 b

theorem waitWhile_quiet (mask : BitVec 8) (n : Nat) (b : Bus) :
    Quiet b (waitWhile mask n b).2 := by
  induction n generalizing b with
  | zero => exact .refl b
  | succ n ih =>
      rw [waitWhile]
      simp only
      split
      · exact (inb_quiet b .stat).trans (ih _)
      · exact inb_quiet b .stat

theorem pollDataLoop_quiet (n : Nat) (b : Bus) : Quiet b (pollDataLoop n b).2 := by
  induction n generalizing b with
  | zero => exact .refl b
  | succ n ih =>
      have hread := inb_quiet b .stat
      rw [pollDataLoop]
      simp only
      split
      · exact hread.trans (ih _)
      split
      · exact hread
      split
      · exact hread
      · exact hread.trans (ih _)

theorem pollData_quiet (b : Bus) : Quiet b (pollData b).2 := by
  rw [pollData]
  exact pollDataLoop_quiet _ b

theorem moveWords_quiet (dir : DataDir) (i n : Nat) (s : Bus × (Nat → BitVec 16)) :
    Quiet s.1 (moveWords dir i n s).1 := by
  induction n with
  | zero => exact .refl s.1
  | succ n ih =>
      cases dir with
      | read => exact ih.trans ⟨rfl, rfl⟩
      | write => exact ih.trans ⟨rfl, rfl⟩

theorem moveSectors_quiet (dir : DataDir) (n i : Nat) (s : Bus × (Nat → BitVec 16)) :
    Quiet s.1 (moveSectors dir n i s).2.1 := by
  induction n generalizing i s with
  | zero => exact .refl s.1
  | succ n ih =>
      have hpoll := pollData_quiet s.1
      have hwords := moveWords_quiet dir i 256 ((pollData s.1).2, s.2)
      have hdelay := delay400ns_quiet (moveWords dir i 256 ((pollData s.1).2, s.2)).1
      have hrest := ih (i + 1) (delay400ns (moveWords dir i 256 ((pollData s.1).2, s.2)).1,
        (moveWords dir i 256 ((pollData s.1).2, s.2)).2)
      unfold moveSectors
      simp only
      split
      · exact hpoll
      · exact ((hpoll.trans hwords).trans hdelay).trans hrest

/-- The registers behind `select_region`. -/
def programmed (dev : AtaDev) (lba : BitVec 32) (sectorCount : BitVec 8) : Regs where
  sectCnt := sectorCount
  lbaLo := lba.setWidth 8
  lbaMid := (lba >>> 8).setWidth 8
  lbaHi := (lba >>> 16).setWidth 8
  drive := dev.drive.toByte ||| ((lba >>> 24) &&& 0xF#32).setWidth 8 ||| 0xE0#8

/-- `select_region` issues no command, and programs the registers if it succeeds. -/
theorem selectRegion_spec (b : Bus) (dev : AtaDev) (lba : BitVec 32) (sectorCount : BitVec 8) :
    (selectRegion b dev lba sectorCount).2.commands = b.commands ∧
      ((selectRegion b dev lba sectorCount).1 = .success →
        (selectRegion b dev lba sectorCount).2.regs = programmed dev lba sectorCount) := by
  have hwait := waitWhile_quiet (flagBsy ||| flagDrq) maxPolls b
  unfold selectRegion
  generalize waitWhile (flagBsy ||| flagDrq) maxPolls b = waited at hwait
  obtain ⟨res, b'⟩ := waited
  simp only
  split
  · next hfail => exact ⟨hwait.commands, fun hsuccess => absurd hsuccess hfail⟩
  have hdelay := delay400ns_quiet (Ports.outb b' .drive
    (dev.drive.toByte ||| ((lba >>> 24) &&& 0xF#32).setWidth 8 ||| 0xE0#8))
  split
  · refine ⟨?_, fun hsuccess => by cases hsuccess⟩
    exact hdelay.commands.trans hwait.commands
  · refine ⟨?_, fun _ => ?_⟩
    · exact hdelay.commands.trans hwait.commands
    · have hregs := hdelay.regs
      simp only [Ports.outb, outb, Ports.inb, inb, programmed] at hregs ⊢
      rw [hregs]

theorem flushCache_transfers (b : Bus) : (flushCache b).2.transfers = b.transfers := by
  have hwait := waitWhile_quiet flagBsy maxPolls (Ports.outb b .stat cmdFlush)
  rw [flushCache, transfers, hwait.commands]
  refine List.filter_cons_of_neg ?_
  simp [Command.isTransfer, cmdFlush, cmdReadSectors, cmdWriteSectors]

/-- A command of a transfer has the registers as they were before it. -/
theorem runCommand_transfers (b : Bus) (sectorCount : BitVec 8) (data : Nat → BitVec 16)
    (dir : DataDir) : ∃ c : Command, c.regs = b.regs ∧
      (runCommand b sectorCount data dir).2.1.transfers = c :: b.transfers := by
  have htransfer : (Command.mk (transferCmd dir) b.regs).isTransfer = true := by
    cases dir <;> simp [Command.isTransfer, transferCmd]
  refine ⟨⟨transferCmd dir, b.regs⟩, rfl, ?_⟩
  have hstat := readStat_quiet 4 (Ports.outb b .stat (transferCmd dir))
  have hmove := hstat.trans (moveSectors_quiet dir sectorCount.toNat 0
    (readStat 4 (Ports.outb b .stat (transferCmd dir)), data))
  have hissued : (Ports.outb b .stat (transferCmd dir)).transfers =
      ⟨transferCmd dir, b.regs⟩ :: b.transfers := List.filter_cons_of_pos htransfer
  unfold runCommand
  simp only
  generalize moveSectors dir sectorCount.toNat 0
    (readStat 4 (Ports.outb b .stat (transferCmd dir)), data) = moved at hmove
  obtain ⟨res, b', data'⟩ := moved
  have hmoved : b'.transfers = ⟨transferCmd dir, b.regs⟩ :: b.transfers := by
    rw [← hissued, transfers, hmove.commands, transfers]
  have hflush := flushCache_transfers b'
  simp only
  split
  · exact hmoved
  generalize flushCache b' = flushed at hflush
  split
  · exact hflush.trans hmoved
  split
  · exact hflush.trans hmoved
  · exact hflush.trans hmoved

end Bus

variable {dev : AtaDev} {part : Partition} {entry : GptPartition} {offset size : BitVec 32}
  {dir : DataDir}

/-- A request that is refused issues no command that moves sectors. -/
theorem gptTransfer_refused (b : Bus) (dev : AtaDev) (size : BitVec 32)
    (data : Nat → BitVec 16) (dir : DataDir)
    (h : part.limit ≤ offset + part.start ∨ dev.lba28 = false ∨
      (Ports.selectRegion b dev (offset + part.start) (size.setWidth 8)).1 ≠ .success) :
    (gptTransfer b dev part offset size data dir).2.1.transfers = b.transfers ∧
      (gptTransfer b dev part offset size data dir).1 ≠ .success := by
  rw [gptTransfer, Ports.ataTransfer]
  by_cases hlimit : part.limit ≤ offset + part.start
  · simp [hlimit]
  by_cases hlba28 : dev.lba28 = false
  · simp [hlimit, hlba28]
  have hselect := (h.resolve_left hlimit).resolve_left hlba28
  have hspec := (Bus.selectRegion_spec b dev (offset + part.start) (size.setWidth 8)).1
  rw [Bool.not_eq_false] at hlba28
  simp only [if_neg hlimit, hlba28, Bool.not_true, Bool.false_eq_true, if_false, if_pos hselect]
  exact ⟨by rw [Bus.transfers, hspec, Bus.transfers], hselect⟩

/-- A request that is not refused issues one command that moves sectors. -/
theorem gptTransfer_issued (b : Bus) (data : Nat → BitVec 16) (dir : DataDir)
    (hlimit : offset + part.start < part.limit)
    (hlba28 : dev.lba28 = true)
    (hselect : (Ports.selectRegion b dev (offset + part.start) (size.setWidth 8)).1 = .success) :
    ∃ c : Command, c.regs = Bus.programmed dev (offset + part.start) (size.setWidth 8) ∧
      (gptTransfer b dev part offset size data dir).2.1.transfers = c :: b.transfers := by
  obtain ⟨hcommands, hregs⟩ := Bus.selectRegion_spec b dev (offset + part.start) (size.setWidth 8)
  have hstart : ¬ part.limit ≤ offset + part.start := by
    rw [BitVec.not_le]
    exact hlimit
  rw [gptTransfer, Ports.ataTransfer]
  simp only [if_neg hstart, hlba28, Bool.not_true, Bool.false_eq_true, if_false, hselect, ne_eq,
    not_true_eq_false]
  obtain ⟨c, hc, htransfers⟩ := Bus.runCommand_transfers
    (Ports.selectRegion b dev (offset + part.start) (size.setWidth 8)).2 (size.setWidth 8) data dir
  refine ⟨c, hc.trans (hregs hselect), ?_⟩
  rw [htransfers, Bus.transfers, hcommands, Bus.transfers]

/-! ## The address -/

theorem setWidth_driveByte (sel : DriveSelect) (lba : BitVec 32) :
    (sel.toByte ||| ((lba >>> 24) &&& 0xF#32).setWidth 8 ||| 0xE0#8).setWidth 4 =
      (lba >>> 24).setWidth 4 := by
  have hlow : (((lba >>> 24) &&& 0xF#32).setWidth 8).setWidth 4 = (lba >>> 24).setWidth 4 := by
    apply BitVec.eq_of_toNat_eq
    have hmask := Nat.and_two_pow_sub_one_eq_mod (lba >>> 24).toNat 4
    simp only [BitVec.toNat_setWidth, BitVec.toNat_and, BitVec.toNat_ofNat] at hmask ⊢
    simp only [Nat.reducePow, Nat.reduceMod, Nat.reduceSub] at hmask ⊢
    omega
  rw [BitVec.setWidth_or, BitVec.setWidth_or, hlow]
  cases sel <;> simp [DriveSelect.toByte]

theorem append_lbaBytes (lba : BitVec 32) :
    ((lba >>> 24).setWidth 4 ++ (lba >>> 16).setWidth 8 ++ (lba >>> 8).setWidth 8 ++
      lba.setWidth 8 : BitVec 28) = lba.setWidth 28 := by
  apply BitVec.eq_of_getLsbD_eq
  intro i hi
  simp only [BitVec.getLsbD_append, BitVec.getLsbD_setWidth, BitVec.getLsbD_ushiftRight]
  grind

/-- The drive decodes the low 28 bits of the sector number. -/
theorem address_programmed {c : Command} {lba : BitVec 32} {count : BitVec 8}
    (h : c.regs = Bus.programmed dev lba count) : c.address.toNat = lba.toNat % 2 ^ 28 := by
  rw [Command.address, h, Bus.programmed]
  simp only [setWidth_driveByte, append_lbaBytes, BitVec.toNat_setWidth]

theorem count_programmed {c : Command} {lba : BitVec 32}
    (h : c.regs = Bus.programmed dev lba (size.setWidth 8)) :
    1 ≤ c.count ∧ c.count ≤ 256 ∧ (1 ≤ size.toNat → size.toNat ≤ 256 → c.count = size.toNat) := by
  have hsize : (size.setWidth 8).toNat = size.toNat % 256 := by
    rw [BitVec.toNat_setWidth]
  rw [Command.count, h, Bus.programmed]
  simp only [← BitVec.toNat_inj, hsize, BitVec.toNat_ofNat, Nat.zero_mod]
  split <;> omega

/-! ## A drive that is always ready -/

def idle : Bus :=
  ⟨fun _ _ => 0#8, fun _ => 0#16, 0, 0, ⟨0#8, 0#8, 0#8, 0#8, 0#8⟩, [], []⟩

theorem idle_selectRegion (dev : AtaDev) (lba : BitVec 32) (count : BitVec 8) :
    (Ports.selectRegion idle dev lba count).1 = .success := by
  obtain ⟨k, hk⟩ : ∃ k, maxPolls = k + 1 := ⟨9999999, rfl⟩
  rw [Ports.selectRegion, hk, Ports.waitWhile]
  simp [idle, Ports.inb, Bus.inb, Ports.outb, Bus.outb, Ports.delay400ns, Ports.readStat]

/-! ## Isolation -/

variable {first : Nat}

/-- The sector number that `ata_transfer` computes. -/
theorem lba_toNat (entry : GptPartition) (offset : BitVec 32) :
    (offset + entry.partition.start).toNat =
      (entry.startLba.toNat + offset.toNat) % 2 ^ 32 := by
  rw [GptPartition.partition, BitVec.toNat_add, BitVec.toNat_setWidth]
  omega

theorem lba_lt_limit_iff (entry : GptPartition) (offset : BitVec 32) :
    offset + entry.partition.start < entry.partition.limit ↔
      (entry.startLba.toNat + offset.toNat) % 2 ^ 32 < entry.endLba.toNat % 2 ^ 32 := by
  rw [BitVec.lt_def, lba_toNat, GptPartition.partition, BitVec.toNat_setWidth]

/-- A refused request is isolated unless it asks for one sector of the partition. -/
theorem isolated_of_refused
    (h : entry.partition.limit ≤ offset + entry.partition.start ∨ dev.lba28 = false)
    (hsingle : dev.lba28 = true →
      ¬ (size = 1#32 ∧ entry.startLba.toNat + offset.toNat ≤ entry.endLba.toNat)) :
    Isolated dev entry entry.partition offset size dir := by
  have hnone : ∀ (b : Bus) data, b.commands = [] →
      (gptTransfer b dev entry.partition offset size data dir).2.1.transfers = [] ∧
        (gptTransfer b dev entry.partition offset size data dir).1 ≠ .success := by
    intro b data hb
    obtain ⟨htransfers, hres⟩ := gptTransfer_refused b dev size data dir
      (h.imp_right .inl)
    refine ⟨?_, hres⟩
    rw [htransfers, Bus.transfers, hb, List.filter_nil]
  refine ⟨?_, ?_, ?_, ?_⟩
  · intro b data hb c hc
    rw [(hnone b data hb).1] at hc
    cases hc
  · intro b data hb c hc
    rw [(hnone b data hb).1] at hc
    cases hc
  · intro b data hb _
    exact (hnone b data hb).2
  · intro hlba28 hsize hlast
    exact absurd ⟨hsize, hlast⟩ (hsingle hlba28)

/-- The sectors that a command moves are those of the request. -/
theorem moves_iff {c : Command} {count first : Nat} (haddress : c.address.toNat = first)
    (hcount : c.count = count) (sector : Nat) :
    c.Moves sector ↔ ∃ i < count, sector = first + i := by
  rw [Command.Moves, haddress, hcount]
  constructor
  · rintro ⟨hfrom, hto⟩
    exact ⟨sector - first, by omega, by omega⟩
  · rintro ⟨i, hi, rfl⟩
    exact ⟨by omega, by omega⟩

/-- A regular request below the limit is isolated. -/
theorem isolated_of_regular (hlba28 : dev.lba28 = true)
    (hlimit : offset + entry.partition.start < entry.partition.limit) (hpos : 1 ≤ size.toNat)
    (hcount : size.toNat ≤ 256) (haddress : entry.startLba.toNat + offset.toNat < 2 ^ 28)
    (hlast : entry.startLba.toNat + offset.toNat + size.toNat ≤ entry.endLba.toNat + 1) :
    Isolated dev entry entry.partition offset size dir := by
  have hissued : ∀ (b : Bus) data, b.commands = [] →
      ∀ c ∈ (gptTransfer b dev entry.partition offset size data dir).2.1.transfers,
      c.address.toNat = entry.startLba.toNat + offset.toNat ∧ c.count = size.toNat := by
    intro b data hb c hc
    have hnil : b.transfers = [] := by rw [Bus.transfers, hb, List.filter_nil]
    by_cases hselect :
        (Ports.selectRegion b dev (offset + entry.partition.start) (size.setWidth 8)).1 = .success
    · obtain ⟨issued, hregs, htransfers⟩ := gptTransfer_issued b data dir hlimit hlba28 hselect
      rw [htransfers, hnil, List.mem_singleton] at hc
      subst hc
      refine ⟨?_, (count_programmed hregs).2.2 hpos hcount⟩
      rw [address_programmed hregs, lba_toNat]
      omega
    · obtain ⟨htransfers, -⟩ := gptTransfer_refused b dev size data dir (.inr (.inr hselect))
      rw [htransfers, hnil] at hc
      cases hc
  refine ⟨?_, ?_, ?_, ?_⟩
  · intro b data hb c hc
    obtain ⟨hfirst, hall⟩ := hissued b data hb c hc
    exact moves_iff hfirst hall
  · intro b data hb c hc sector hmoves
    obtain ⟨hfirst, hall⟩ := hissued b data hb c hc
    obtain ⟨i, hi, rfl⟩ := (moves_iff hfirst hall sector).mp hmoves
    omega
  · intro b data hb hnone
    by_cases hselect :
        (Ports.selectRegion b dev (offset + entry.partition.start) (size.setWidth 8)).1 = .success
    · obtain ⟨c, -, htransfers⟩ := gptTransfer_issued b data dir hlimit hlba28 hselect
      rw [htransfers] at hnone
      cases hnone
    · exact (gptTransfer_refused b dev size data dir (.inr (.inr hselect))).2
  · intro _ hsize _ b data hb hselect
    have hone : size.setWidth 8 = 1#8 := by
      rw [hsize]
      decide
    rw [← hone] at hselect
    obtain ⟨c, -, htransfers⟩ := gptTransfer_issued b data dir hlimit hlba28 hselect
    rw [htransfers]
    exact List.cons_ne_nil _ _

/-- What an isolated request on a ready drive asks for. -/
theorem regular_of_isolated (hlba28 : dev.lba28 = true)
    (h : Isolated dev entry entry.partition offset size dir) : entry.Regular offset size := by
  have hready := idle_selectRegion dev (offset + entry.partition.start) (size.setWidth 8)
  rw [GptPartition.Regular]
  split
  · next hbelow =>
      have hlimit := (lba_lt_limit_iff entry offset).mpr hbelow
      obtain ⟨c, hregs, htransfers⟩ :=
        gptTransfer_issued idle (fun _ => 0#16) dir hlimit hlba28 hready
      have hmem : c ∈ (gptTransfer idle dev entry.partition offset size (fun _ => 0#16)
          dir).2.1.transfers := by
        rw [htransfers]
        exact List.mem_cons_self
      have hmoves := h.exactly idle _ rfl c hmem
      have hinside := h.inside idle _ rfl c hmem
      obtain ⟨hone, hcount, -⟩ := count_programmed hregs
      have haddress : c.address.toNat < 2 ^ 28 := c.address.isLt
      -- the first sector that is moved and the first that was asked for are the same
      obtain ⟨i, hi, hfirst⟩ := (hmoves c.address.toNat).mp ⟨Nat.le_refl _, by omega⟩
      have hstart := (hmoves _).mpr ⟨0, by omega, rfl⟩
      rw [Command.Moves] at hstart
      -- and so are the last ones
      obtain ⟨j, hj, hlast⟩ := (hmoves (c.address.toNat + c.count - 1)).mp ⟨by omega, by omega⟩
      have hend := (hmoves _).mpr ⟨size.toNat - 1, by omega, rfl⟩
      have hendInside := hinside _ hend
      rw [Command.Moves] at hend
      refine ⟨?_, ?_, ?_, ?_⟩ <;> omega
  · next habove =>
      rintro ⟨hsize, hlast⟩
      have hrefused : entry.partition.limit ≤ offset + entry.partition.start := by
        rw [← BitVec.not_lt, lba_lt_limit_iff]
        exact habove
      have hnone := (gptTransfer_refused idle dev size (fun _ => 0#16) dir (.inl hrefused)).1
      exact h.accepted hlba28 hsize hlast idle _ rfl (idle_selectRegion dev _ 1#8) hnone

/-- The isolated requests. -/
theorem isolated_iff (dev : AtaDev) (entry : GptPartition) (offset size : BitVec 32)
    (dir : DataDir) : Isolated dev entry entry.partition offset size dir ↔
      dev.lba28 = false ∨ entry.Regular offset size := by
  cases hlba28 : dev.lba28 with
  | false =>
      refine iff_of_true (isolated_of_refused (.inr hlba28) ?_) (.inl rfl)
      intro htrue
      rw [hlba28] at htrue
      cases htrue
  | true =>
      constructor
      · intro h
        exact .inr (regular_of_isolated hlba28 h)
      · intro h
        replace h := h.resolve_left (by simp)
        rw [GptPartition.Regular] at h
        split at h
        · next hbelow =>
            obtain ⟨hpos, hcount, haddress, hlast⟩ := h
            exact isolated_of_regular hlba28 ((lba_lt_limit_iff entry offset).mpr hbelow) hpos
              hcount haddress hlast
        · next habove =>
            refine isolated_of_refused (.inl ?_) fun _ => h
            rw [← BitVec.not_lt, lba_lt_limit_iff]
            exact habove

/-! ## Registered partitions -/

/-- The entry is in use, and stands in a sector that can be read. -/
def GptPartition.OnDisk (readSector : BitVec 32 → Option Bytes) (entry : GptPartition) : Prop :=
  ∃ lba sector j, readSector lba = some sector ∧ entry = entryAt sector j ∧ entry.guidNonzero = true

theorem mem_sectorPartitions {sector : Bytes} (h : part ∈ sectorPartitions sector) :
    ∃ j, (entryAt sector j).guidNonzero = true ∧ part = (entryAt sector j).partition := by
  rw [sectorPartitions, List.mem_filterMap] at h
  obtain ⟨j, -, hj⟩ := h
  simp only [Option.ite_none_right_eq_some, Option.some_inj] at hj
  exact ⟨j, hj.1, hj.2.symm⟩

theorem mem_initGptLoop {readSector : BitVec 32 → Option Bytes} {n : Nat} {i : BitVec 32}
    (h : part ∈ (initGptLoop readSector n i).1) :
    ∃ entry : GptPartition, entry.OnDisk readSector ∧ part = entry.partition := by
  induction n generalizing i with
  | zero => cases h
  | succ n ih =>
      rw [initGptLoop] at h
      cases hsector : readSector (2#32 + i) with
      | none =>
          rw [hsector] at h
          cases h
      | some sector =>
          rw [hsector] at h
          rcases List.mem_append.mp h with hhere | hlater
          · obtain ⟨j, hused, hpart⟩ := mem_sectorPartitions hhere
            exact ⟨entryAt sector j, ⟨_, sector, j, hsector, rfl, hused⟩, hpart⟩
          · exact ih hlater

/-- Every registered partition comes from an entry of the table. -/
theorem mem_initGpt {readSector : BitVec 32 → Option Bytes} (h : part ∈ (initGpt readSector).1) :
    ∃ entry : GptPartition, entry.OnDisk readSector ∧ part = entry.partition := by
  rw [initGpt] at h
  cases hheader : readSector 1#32 with
  | none =>
      rw [hheader] at h
      cases h
  | some header =>
      rw [hheader] at h
      simp only at h
      split at h
      · cases h
      · exact mem_initGptLoop h

/-- The requests to a registered partition that are isolated. -/
theorem registered_isolated_iff (readSector : BitVec 32 → Option Bytes) (dev : AtaDev)
    (part : Partition) (h : part ∈ (initGpt readSector).1) :
    ∃ entry : GptPartition, entry.OnDisk readSector ∧ part = entry.partition ∧
      ∀ offset size dir, Isolated dev entry part offset size dir ↔
        dev.lba28 = false ∨ entry.Regular offset size := by
  obtain ⟨entry, hentry, rfl⟩ := mem_initGpt h
  exact ⟨entry, hentry, rfl, isolated_iff dev entry⟩

/-- A drive whose only partition has the sectors 0x800 to 0xFFF. -/
def onePartition (lba : BitVec 32) : Option Bytes :=
  if lba = 1#32 then some fun a => if a = 80 then 1#8 else signature.getD a 0#8
  else if lba = 2#32 then some fun a =>
    match a with
    | 16 => 1#8
    | 33 => 0x08#8
    | 40 => 0xFF#8
    | 41 => 0x0F#8
    | _ => 0#8
  else none

theorem mem_onePartition : (⟨0x800#32, 0xFFF#32⟩ : Partition) ∈ (initGpt onePartition).1 := by
  decide +kernel

/-- Its entry is the only one in use. -/
theorem onePartition_entry {entry : GptPartition} (h : entry.OnDisk onePartition) :
    entry.startLba = 0x800#64 ∧ entry.endLba = 0xFFF#64 := by
  obtain ⟨lba, sector, j, hsector, rfl, hguid⟩ := h
  obtain ⟨⟨k, hk⟩, hne⟩ := of_decide_eq_true hguid
  replace hne : sector (128 * j + 16 + k) ≠ 0#8 := hne
  rw [onePartition] at hsector
  split at hsector
  · -- nothing of the header stands where an entry has its GUID
    obtain rfl := Option.some.inj hsector
    have hlen : signature.length ≤ 128 * j + 16 + k := by
      rw [show signature.length = 8 from rfl]
      omega
    dsimp only at hne
    rw [if_neg (by omega), List.getD_eq_default _ _ hlen] at hne
    exact absurd rfl hne
  · split at hsector
    · obtain rfl := Option.some.inj hsector
      obtain rfl : j = 0 := by
        by_contra hj
        apply hne
        dsimp only
        split <;> first | omega | rfl
      exact ⟨by decide, by decide⟩
    · cases hsector

/-- Eight sectors from its sector 16 on, and all of its sectors at once. -/
theorem registered_isolated_iff_one : ∃ entry : GptPartition, entry.OnDisk onePartition ∧
    (∀ dir, Isolated ⟨.master, true⟩ entry ⟨0x800#32, 0xFFF#32⟩ 16#32 8#32 dir) ∧
      ∀ dir, ¬ Isolated ⟨.master, true⟩ entry ⟨0x800#32, 0xFFF#32⟩ 0#32 2048#32 dir := by
  obtain ⟨entry, hentry, -, hiff⟩ :=
    registered_isolated_iff onePartition ⟨.master, true⟩ _ mem_onePartition
  obtain ⟨hstart, hend⟩ := onePartition_entry hentry
  refine ⟨entry, hentry, fun dir => ?_, fun dir => ?_⟩
  · rw [hiff, GptPartition.Regular, hstart, hend]
    decide
  · rw [hiff, GptPartition.Regular, hstart, hend]
    decide

/-- For 4096 sectors the count register is 0, and the drive moves 256. -/
theorem count_truncated : ¬ ∀ (readSector : BitVec 32 → Option Bytes) (dev : AtaDev)
    (part : Partition), part ∈ (initGpt readSector).1 → ∃ entry : GptPartition,
      entry.OnDisk readSector ∧ part = entry.partition ∧
        ∀ offset size dir, Isolated dev entry part offset size dir := by
  intro h
  obtain ⟨entry, -, hpart, hall⟩ := h onePartition ⟨.master, true⟩ _ mem_onePartition
  have hisolated := hall 0#32 4096#32 .read
  rw [hpart] at hisolated
  have hregular := regular_of_isolated rfl hisolated
  have hbelow : 0#32 + entry.partition.start < entry.partition.limit := by
    rw [← hpart]
    decide
  rw [GptPartition.Regular, if_pos ((lba_lt_limit_iff entry 0#32).mp hbelow)] at hregular
  exact absurd hregular.2.1 (by decide)

end Muse.Drive
