import Muse.Drive.Device
import Muse.Library.Bytes

/-!
# The driver on a drive

What each function of the driver does on a drive that is in time: it reads the status register past
the stale answers, waits until the drive is not busy, and moves the sectors that the registers name.
-/

namespace Muse.Drive

open Muse.Library Muse.Ext2

namespace Wait

theorem after_after (w : Wait) (m n : Nat) : (w.after m).after n = w.after (m + n) := by
  simp only [after, mk.injEq]
  omega

theorem after_zero (w : Wait) : w.after 0 = w := by
  simp [after]

theorem after_eq_none {w : Wait} {n : Nat} (h : w.stale + w.busy ≤ n) : w.after n = none := by
  simp only [after, none, mk.injEq]
  omega

@[simp] theorem none_after (n : Nat) : none.after n = none := by
  simp [after, none]

end Wait

namespace Disk

variable {d : Disk}

theorem ticks_ticks (d : Disk) (m n : Nat) : (d.ticks m).ticks n = d.ticks (m + n) := by
  rw [ticks, ticks, ticks, Wait.after_after, Nat.add_assoc]

theorem ticks_zero (d : Disk) : d.ticks 0 = d := by
  rw [ticks, Wait.after_zero, Nat.add_zero]

@[simp] theorem ticks_phase (d : Disk) (n : Nat) : (d.ticks n).phase = d.phase := rfl

@[simp] theorem ticks_spec (d : Disk) (n : Nat) : (d.ticks n).spec = d.spec := rfl

@[simp] theorem ticks_regs (d : Disk) (n : Nat) : (d.ticks n).regs = d.regs := rfl

@[simp] theorem ticks_wait (d : Disk) (n : Nat) : (d.ticks n).wait = d.wait.after n := rfl

/-! ## The status register -/

theorem busy_and_mask (x : BitVec 8) :
    (x ||| flagBsy) &&& flagBsy ≠ 0#8 ∧ (x ||| flagBsy) &&& (flagBsy ||| flagDrq) ≠ 0#8 := by
  revert x
  decide

/-- What the driver sees of the status register of a drive that is not busy. -/
theorem status_and {mask : BitVec 8} (hmask : mask &&& ~~~flags = 0#8) (h : d.wait = .none) :
    d.status &&& mask = d.phase.bits &&& mask := by
  rw [status, h]
  simp only [Wait.none, Nat.lt_irrefl, if_false]
  rw [BitVec.and_comm, BitVec.and_or_distrib_left, BitVec.and_comm (d.spec.timing.noise d.reads),
    ← BitVec.and_assoc, hmask, BitVec.zero_and, BitVec.zero_or, BitVec.and_comm]

theorem status_busy {b : Nat} (h : d.wait = ⟨0, b + 1⟩) :
    d.status = d.spec.timing.noise d.reads ||| flagBsy := by
  rw [status, h]
  simp

theorem ticks_busy {b : Nat} (h : d.wait = ⟨0, b + 1⟩) : (d.ticks 1).wait = ⟨0, b⟩ := by
  rw [ticks_wait, h]
  simp [Wait.after]

theorem readStat_eq (n : Nat) (d : Disk) : Ports.readStat n d = d.ticks n := by
  induction n generalizing d with
  | zero => exact (ticks_zero d).symm
  | succ n ih =>
      show Ports.readStat n (d.ticks 1) = _
      rw [ih, ticks_ticks, Nat.add_comm]

/-- A wait for the drive ends with the first status that is not busy. -/
theorem waitWhile_success {mask : BitVec 8} (hbusy : ∀ x, (x ||| flagBsy) &&& mask ≠ 0#8)
    (hmask : mask &&& ~~~flags = 0#8) {b n : Nat} (hw : d.wait = ⟨0, b⟩) (hb : b < n)
    (hclear : d.phase.bits &&& mask = 0#8) :
    Ports.waitWhile mask n d = (.success, d.ticks (b + 1)) := by
  induction n generalizing d b with
  | zero => exact absurd hb (Nat.not_lt_zero b)
  | succ n ih =>
      show (if d.status &&& mask ≠ 0#8 then Ports.waitWhile mask n (d.ticks 1)
        else (.success, d.ticks 1)) = _
      cases b with
      | zero =>
          rw [status_and hmask hw, hclear, if_neg (not_not.mpr rfl)]
      | succ b =>
          rw [status_busy hw, if_pos (hbusy _), @ih (d.ticks 1) b (ticks_busy hw)
            (Nat.lt_of_succ_lt_succ hb) hclear, ticks_ticks, Nat.add_comm 1]

/-- A wait for a drive that has a sector to move does not end. -/
theorem waitWhile_timeout {b : Nat} (hw : d.wait = ⟨0, b⟩) {dir : DataDir} {lba left pos : Nat}
    (hp : d.phase = .data dir lba left pos) (n : Nat) :
    Ports.waitWhile (flagBsy ||| flagDrq) n d = (.errTimeout, d.ticks n) := by
  induction n generalizing d b with
  | zero => rw [ticks_zero, Ports.waitWhile]
  | succ n ih =>
      have hset : d.status &&& (flagBsy ||| flagDrq) ≠ 0#8 := by
        cases b with
        | zero =>
            rw [status_and (by decide) hw, hp]
            exact (by decide : flagDrq &&& (flagBsy ||| flagDrq) ≠ 0#8)
        | succ b =>
            rw [status_busy hw]
            exact (busy_and_mask _).2
      show (if d.status &&& (flagBsy ||| flagDrq) ≠ 0#8
        then Ports.waitWhile (flagBsy ||| flagDrq) n (d.ticks 1) else (.success, d.ticks 1)) = _
      rw [if_pos hset, @ih (d.ticks 1) (b - 1) (by rw [ticks_wait, hw]; simp [Wait.after]) hp,
        ticks_ticks, Nat.add_comm]

/-- `poll_data` tells whether the command failed. -/
theorem pollDataLoop_eq {b n : Nat} (hw : d.wait = ⟨0, b⟩) (hb : b < n) (hp : d.phase ≠ .idle) :
    Ports.pollDataLoop n d =
      (if d.phase = .failed then .errIoFailed else .success, d.ticks (b + 1)) := by
  induction n generalizing d b with
  | zero => exact absurd hb (Nat.not_lt_zero b)
  | succ n ih =>
      show (if d.status &&& flagBsy ≠ 0#8 then Ports.pollDataLoop n (d.ticks 1)
        else if d.status &&& flagErr ≠ 0#8 ∨ d.status &&& flagDriveFlt ≠ 0#8
          then (.errIoFailed, d.ticks 1)
        else if d.status &&& flagDrq ≠ 0#8 then (.success, d.ticks 1)
        else Ports.pollDataLoop n (d.ticks 1)) = _
      cases b with
      | zero =>
          rw [status_and (by decide) hw, status_and (by decide) hw, status_and (by decide) hw,
            status_and (by decide) hw]
          cases hphase : d.phase with
          | idle => exact absurd hphase hp
          | failed => rfl
          | data dir lba left pos => simp [Phase.bits, flagBsy, flagErr, flagDriveFlt, flagDrq]
      | succ b =>
          have hset : d.status &&& flagBsy ≠ 0#8 := by
            rw [status_busy hw]
            exact (busy_and_mask _).1
          rw [if_pos hset, @ih (d.ticks 1) b (ticks_busy hw) (Nat.lt_of_succ_lt_succ hb) hp,
            ticks_ticks, Nat.add_comm 1]
          rfl

/-! ## The words of a sector -/

def setSectors (d : Disk) (sectors : Nat → Nat → BitVec 16) : Disk := { d with sectors }

def setPhase (d : Disk) (phase : Phase) : Disk := { d with phase }

end Disk

/-- What the sectors and the data are behind `n` words of the sector `lba`, which is number `i` of
    the data. -/
def moved (dir : DataDir) (lba i n : Nat) (s : (Nat → Nat → BitVec 16) × (Nat → BitVec 16)) :
    (Nat → Nat → BitVec 16) × (Nat → BitVec 16) :=
  match dir with
  | .read => (s.1, fun j => if i * 256 ≤ j ∧ j < i * 256 + n then s.1 lba (j - i * 256) else s.2 j)
  | .write => (fun l w => if l = lba ∧ w < n then s.2 (w + i * 256) else s.1 l w, s.2)

theorem moved_zero (dir : DataDir) (lba i : Nat)
    (s : (Nat → Nat → BitVec 16) × (Nat → BitVec 16)) : moved dir lba i 0 s = s := by
  cases dir with
  | read =>
      refine Prod.ext rfl (funext fun j => ?_)
      exact if_neg (by omega)
  | write => simp [moved]

/-- One word more. -/
theorem moved_read_succ (lba i n : Nat) (s : (Nat → Nat → BitVec 16) × (Nat → BitVec 16)) :
    moved .read lba i (n + 1) s =
      (s.1, Function.update (moved .read lba i n s).2 (n + i * 256) (s.1 lba n)) := by
  refine Prod.ext rfl (funext fun j => ?_)
  simp only [moved, Function.update_apply]
  by_cases hj : j = n + i * 256
  · have hsub : j - i * 256 = n := by omega
    rw [if_pos (by omega), if_pos hj, hsub]
  · rw [if_neg hj]
    exact if_congr (by omega) rfl rfl

theorem moved_write_succ (lba i n : Nat) (s : (Nat → Nat → BitVec 16) × (Nat → BitVec 16)) :
    moved .write lba i (n + 1) s = (Function.update (moved .write lba i n s).1 lba
      (Function.update ((moved .write lba i n s).1 lba) n (s.2 (n + i * 256))), s.2) := by
  refine Prod.ext (funext fun l => funext fun w => ?_) rfl
  simp only [moved]
  by_cases hl : l = lba
  · rw [hl, Function.update_self, Function.update_apply]
    by_cases hw : w = n
    · have hlt : lba = lba ∧ w < n + 1 := ⟨rfl, by omega⟩
      rw [if_pos hlt, if_pos hw, hw]
    · rw [if_neg hw]
      exact if_congr (by simp only [true_and]; omega) rfl rfl
  · rw [Function.update_of_ne hl]
    exact if_congr (by simp [hl]) rfl rfl

namespace Disk

variable {d : Disk}

/-- The words before the last one. -/
theorem moveWords_partial {dir : DataDir} {lba left : Nat} (hp : d.phase = .data dir lba left 0)
    (hw : d.wait = .none) (i : Nat) (data : Nat → BitVec 16) {n : Nat} (hn : n < 256) :
    Ports.moveWords dir i n (d, data) =
      ((d.setSectors (moved dir lba i n (d.sectors, data)).1).setPhase (.data dir lba left n),
        (moved dir lba i n (d.sectors, data)).2) := by
  induction n with
  | zero =>
      rw [moved_zero, Ports.moveWords, ← hp]
      rfl
  | succ n ih =>
      rw [Ports.moveWords, ih (by omega)]
      cases dir with
      | read =>
          rw [moved_read_succ]
          simp only [Ports.inw, inw, setPhase, setSectors, hw, if_true, advance, if_pos hn]
          rfl
      | write =>
          rw [moved_write_succ]
          simp only [Ports.outw, outw, setPhase, setSectors, hw, if_true, advance, if_pos hn,
            setWord]
          rfl

/-- The words of a sector. -/
theorem moveWords_eq {dir : DataDir} {lba left : Nat} (hp : d.phase = .data dir lba left 0)
    (hw : d.wait = .none) (i : Nat) (data : Nat → BitVec 16) :
    Ports.moveWords dir i 256 (d, data) =
      ((d.setSectors (moved dir lba i 256 (d.sectors, data)).1).advance dir lba left 255,
        (moved dir lba i 256 (d.sectors, data)).2) := by
  rw [Ports.moveWords, moveWords_partial hp hw i data (by decide : 255 < 256)]
  cases dir with
  | read =>
      rw [(moved_read_succ lba i 255 (d.sectors, data) : moved .read lba i 256 _ = _)]
      simp only [Ports.inw, inw, setPhase, setSectors, hw, if_true]
      rfl
  | write =>
      rw [(moved_write_succ lba i 255 (d.sectors, data) : moved .write lba i 256 _ = _)]
      simp only [Ports.outw, outw, setPhase, setSectors, hw, if_true, setWord]
      rfl

/-! ## The sectors of a command -/

end Disk

/-- The same for `n` sectors from `lba` on. -/
def movedSectors (dir : DataDir) (lba i : Nat) :
    Nat → (Nat → Nat → BitVec 16) × (Nat → BitVec 16) → (Nat → Nat → BitVec 16) × (Nat → BitVec 16)
  | 0, s => s
  | n + 1, s => movedSectors dir (lba + 1) (i + 1) n (moved dir lba i 256 s)

namespace Disk

variable {d d' d'' : Disk}

/-- What a transfer keeps besides the sectors. -/
structure Keeps (d d' : Disk) : Prop where
  spec : d'.spec = d.spec
  medium : d'.medium = d.medium
  regs : d'.regs = d.regs
  err : d'.err = d.err

theorem Keeps.trans (h : Keeps d d') (h' : Keeps d' d'') : Keeps d d'' :=
  ⟨h'.spec.trans h.spec, h'.medium.trans h.medium, h'.regs.trans h.regs, h'.err.trans h.err⟩

/-- A drive whose next sector is waited for. -/
structure AtSector (d : Disk) (dir : DataDir) (lba left : Nat) : Prop where
  phase : d.phase = .data dir lba left 0
  stale : d.wait.stale = 0
  busy : d.wait.busy + 2 ≤ maxPolls

theorem pollData_success {dir : DataDir} {lba left : Nat} (h : d.AtSector dir lba left) :
    ∃ n, Ports.pollData d = (.success, d.ticks n) ∧ (d.ticks n).wait = .none := by
  have hb := h.busy
  have hw : d.wait = ⟨0, d.wait.busy⟩ := by rw [← h.stale]
  refine ⟨d.wait.busy + 1, ?_, ?_⟩
  · rw [Ports.pollData, pollDataLoop_eq hw (by omega) (by simp [h.phase]), h.phase]
    simp
  · rw [ticks_wait]
    apply Wait.after_eq_none
    have hs := h.stale
    omega

theorem moveSectors_spec (ht : d.spec.timing.InTime) {dir : DataDir} {lba n : Nat} (i : Nat)
    (data : Nat → BitVec 16) (h : d.AtSector dir lba (n + 1)) :
    ∃ d', Ports.moveSectors dir (n + 1) i (d, data) =
        (.success, d', (movedSectors dir lba i (n + 1) (d.sectors, data)).2) ∧
      d'.sectors = (movedSectors dir lba i (n + 1) (d.sectors, data)).1 ∧ d'.phase = .idle ∧
      d'.wait = .none ∧ Keeps d d' := by
  induction n generalizing d lba i data with
  | zero =>
      obtain ⟨k, hpoll, hwait⟩ := pollData_success h
      rw [Ports.moveSectors]
      simp only [hpoll, ne_eq, not_true, if_false, moveWords_eq (d := d.ticks k) h.phase hwait,
        Ports.delay400ns, readStat_eq, Ports.moveSectors]
      refine ⟨_, rfl, rfl, rfl, ?_, rfl, rfl, rfl, rfl⟩
      exact Wait.after_eq_none (ht.last _)
  | succ n ih =>
      obtain ⟨k, hpoll, hwait⟩ := pollData_success h
      rw [Ports.moveSectors]
      simp only [hpoll, ne_eq, not_true, if_false, moveWords_eq (d := d.ticks k) h.phase hwait,
        Ports.delay400ns, readStat_eq]
      obtain ⟨e, he⟩ : ∃ e, e = (((d.ticks k).setSectors
        (moved dir lba i 256 (d.sectors, data)).1).advance dir lba (n + 1 + 1) 255).ticks 15 :=
        ⟨_, rfl⟩
      have hstart : e = ((((d.ticks k).setSectors (moved dir lba i 256 (d.sectors, data)).1).enter
          .block (.data dir (lba + 1) (n + 1) 0))).ticks 15 := by
        rw [he, advance, if_neg (by decide), if_pos (by omega)]
        rfl
      have hat : e.AtSector dir (lba + 1) (n + 1) := by
        have hb := ht.block (d.ticks k).waits
        rw [hstart]
        refine ⟨rfl, ?_, ?_⟩
        · exact Nat.sub_eq_zero_of_le hb.1
        · exact Nat.le_trans (Nat.add_le_add_right (Nat.sub_le ..) 2) hb.2
      have hsectors : e.sectors = (moved dir lba i 256 (d.sectors, data)).1 := by
        rw [hstart]
        rfl
      have hkeeps : Keeps d e := by
        rw [hstart]
        exact ⟨rfl, rfl, rfl, rfl⟩
      obtain ⟨d', hd', hs, hphase, hw, hk⟩ := ih (by rw [hkeeps.spec]; exact ht) (i + 1)
        (moved dir lba i 256 (d.sectors, data)).2 hat
      rw [hsectors] at hd' hs
      refine ⟨d', ?_, hs, hphase, hw, hkeeps.trans hk⟩
      rw [he] at hd'
      exact hd'

/-! ## The functions of the driver -/

theorem setRegs_ticks (d : Disk) (regs : Regs) (n : Nat) :
    (d.setRegs regs).ticks n = (d.ticks n).setRegs regs := rfl

/-- `select_region` on a drive that has no sector to move. -/
theorem selectRegion_eq (hw : d.wait = .none) (hp : d.phase.bits &&& (flagBsy ||| flagDrq) = 0#8)
    (dev : AtaDev) (lba : BitVec 32) (count : BitVec 8) :
    ∃ n regs, Ports.selectRegion d dev lba count =
        (if d.err = 0#8 then .success else .errIoFailed, (d.ticks n).setRegs regs) ∧
      (d.err = 0#8 → regs = Bus.programmed dev lba count) := by
  have hwait := waitWhile_success (fun x => (busy_and_mask x).2) (by decide) hw
    (by decide : 0 < maxPolls) hp
  obtain ⟨regs, hregs⟩ : ∃ regs : Regs, regs = { d.regs with
    drive := dev.drive.toByte ||| ((lba >>> 24) &&& 0xF#32).setWidth 8 ||| 0xE0#8 } := ⟨_, rfl⟩
  obtain ⟨e, he⟩ : ∃ e : Disk, e = (d.ticks 16).setRegs regs := ⟨_, rfl⟩
  have hdelay : Ports.delay400ns ((d.ticks (0 + 1)).setRegs regs) = e := by
    rw [Ports.delay400ns, readStat_eq, setRegs_ticks, ticks_ticks, he]
  have hew : e.wait = .none := by
    rw [he]
    exact (ticks_wait d 16).trans (by rw [hw, Wait.none_after])
  have hstatus : e.status &&& (flagBsy ||| flagDrq) = 0#8 := by
    rw [status_and (by decide) hew, he]
    exact hp
  have herr : e.err = d.err := by rw [he]; rfl
  rw [Ports.selectRegion]
  simp only [hwait, Ports.outb, outb, ← hregs, ticks_regs, hdelay, Ports.inb, inb, hstatus, herr,
    BitVec.or_zero, ne_eq, not_true, if_false]
  by_cases hzero : d.err = 0#8
  · refine ⟨17, Bus.programmed dev lba count, ?_, fun _ => rfl⟩
    simp only [hzero, not_true, if_false, if_true, he, setRegs_ticks, ticks_ticks]
    rw [Bus.programmed, hregs]
    rfl
  · refine ⟨17, regs, ?_, fun h => absurd h hzero⟩
    simp only [hzero, not_false_eq_true, if_true, if_false, he, setRegs_ticks, ticks_ticks]

/-- A drive between two requests. -/
structure Ready (d : Disk) : Prop where
  phase : d.phase = .idle
  wait : d.wait = .none
  err : d.err = 0#8
  medium : d.medium = d.sectors

/-- A drive that the driver does not get to take a command any more. -/
structure Wedged (d : Disk) : Prop where
  wait : d.wait = .none
  stuck : d.phase = .failed ∧ d.err ≠ 0#8 ∨ ∃ dir lba left pos, d.phase = .data dir lba left pos

theorem outb_transferCmd (h : d.Takes) (dir : DataDir) :
    Ports.outb d .stat (transferCmd dir) = d.transfer dir := by
  show d.command (transferCmd dir) = d.transfer dir
  rw [command, if_neg (not_not.mpr h)]
  cases dir <;> rfl

/-- A drive that has been given a command for sectors and has shown its status four times. -/
structure Issued (d e : Disk) (dir : DataDir) (c : Command) : Prop where
  sectors : e.sectors = d.sectors
  medium : e.medium = d.medium
  spec : e.spec = d.spec
  stale : e.wait.stale = 0
  busy : e.wait.busy + 2 ≤ maxPolls
  taken : c.address.toNat + c.count ≤ d.spec.capacity →
    e.phase = .data dir c.address.toNat c.count 0 ∧ e.err = 0#8
  rejected : d.spec.capacity < c.address.toNat + c.count →
    e.phase = .failed ∧ e.err = d.spec.errCode

theorem issued (ht : d.spec.timing.InTime) (h : d.Takes) {c : Command} (hc : c.regs = d.regs)
    (dir : DataDir) :
    ∃ e, Ports.readStat 4 (Ports.outb d .stat (transferCmd dir)) = e ∧ Issued d e dir c := by
  have hregs : (⟨0#8, d.regs⟩ : Command).address = c.address ∧
      (⟨0#8, d.regs⟩ : Command).count = c.count := by
    rw [Command.address, Command.address, Command.count, Command.count, hc]
    exact ⟨rfl, rfl⟩
  have hcmd := ht.command d.waits
  have hstale : (d.spec.timing.wait .command d.waits).stale - 4 = 0 :=
    Nat.sub_eq_zero_of_le hcmd.1
  have hbusy : ((d.spec.timing.wait .command d.waits).after 4).busy + 2 ≤ maxPolls :=
    Nat.le_trans (Nat.add_le_add_right (Nat.sub_le ..) 2) hcmd.2
  rw [outb_transferCmd h, transfer, hregs.1, hregs.2, readStat_eq]
  split
  · next hcap => exact ⟨_, rfl, rfl, rfl, rfl, hstale, hbusy, fun _ => ⟨rfl, rfl⟩,
      fun hlt => absurd hcap (Nat.not_le.mpr hlt)⟩
  · next hcap => exact ⟨_, rfl, rfl, rfl, rfl, hstale, hbusy, fun hle => absurd hle hcap,
      fun _ => ⟨rfl, rfl⟩⟩

theorem wait_eq (h : d.wait.stale = 0) : d.wait = ⟨0, d.wait.busy⟩ := by rw [← h]

/-- A command that the drive takes moves all of its sectors, and they are on the medium. -/
theorem runCommand_accepted (ht : d.spec.timing.InTime) (h : d.Takes) {c : Command}
    (hc : c.regs = d.regs) {count : BitVec 8} (hcount : c.count = count.toNat)
    (hcap : c.address.toNat + c.count ≤ d.spec.capacity) (data : Nat → BitVec 16) (dir : DataDir) :
    ∃ d', Ports.runCommand d count data dir = (.success, d',
        (movedSectors dir c.address.toNat 0 c.count (d.sectors, data)).2) ∧
      d'.sectors = (movedSectors dir c.address.toNat 0 c.count (d.sectors, data)).1 ∧ d'.Ready ∧
      d'.spec = d.spec := by
  obtain ⟨n, hn⟩ : ∃ n, c.count = n + 1 := by
    refine Nat.exists_eq_succ_of_ne_zero ?_
    rw [Command.count]
    split
    · decide
    · next hne => exact fun h0 => hne (BitVec.eq_of_toNat_eq h0)
  obtain ⟨e, hstart, he⟩ := issued ht h hc dir
  -- the sectors
  obtain ⟨f, hf, hfs, hphase, hwait, hkeeps⟩ := moveSectors_spec (he.spec ▸ ht) (n := n) 0 data
    ⟨hn ▸ (he.taken hcap).1, he.stale, he.busy⟩
  rw [← hn, hcount, he.sectors] at hf hfs
  -- the cache
  have hflush : Ports.outb f .stat cmdFlush = f.flush := by
    show f.command cmdFlush = f.flush
    rw [command, if_neg (not_not.mpr ⟨hwait, .inl hphase⟩)]
    rfl
  have hspec : f.spec = d.spec := hkeeps.spec.trans he.spec
  have hfw := ht.flush f.waits
  rw [← hspec] at hfw
  have hgw : f.flush.wait = ⟨0, (f.spec.timing.wait .flush f.waits).busy⟩ := wait_eq hfw.1
  have hcache := waitWhile_success (fun x => (busy_and_mask x).1) (by decide) hgw hfw.2
    (by decide : Phase.idle.bits &&& flagBsy = 0#8)
  obtain ⟨g, hg⟩ : ∃ g, g = f.flush.ticks ((f.spec.timing.wait .flush f.waits).busy + 1) := ⟨_, rfl⟩
  have hend : g.wait = .none := by
    rw [hg, ticks_wait, hgw]
    exact Wait.after_eq_none (by simp)
  have hstatus : g.status &&& (flagErr ||| flagDriveFlt) = 0#8 := by
    rw [status_and (by decide) hend, hg]
    exact (by decide : Phase.idle.bits &&& (flagErr ||| flagDriveFlt) = 0#8)
  rw [← hg] at hcache
  refine ⟨g.ticks 1, ?_, ?_, ⟨?_, ?_, ?_, ?_⟩, ?_⟩
  · rw [hcount]
    simp only [Ports.runCommand, hstart, hf, Ports.flushCache, hflush, hcache, Ports.inb, inb,
      hstatus, ne_eq, not_true, if_false]
  · rw [hcount, ← hfs, hg]
    rfl
  · rw [hg]
    rfl
  · rw [ticks_wait, hend, Wait.none_after]
  · rw [hg]
    rfl
  · rw [hg]
    rfl
  · rw [← hspec, hg]
    rfl

/-- A command for sectors that the drive does not have. -/
theorem runCommand_rejected (ht : d.spec.timing.InTime) (h : d.Takes) {c : Command}
    (hc : c.regs = d.regs) {count : BitVec 8} (hcount : count ≠ 0#8)
    (hcap : d.spec.capacity < c.address.toNat + c.count) (hcode : d.spec.errCode ≠ 0#8)
    (data : Nat → BitVec 16) (dir : DataDir) :
    ∃ d', Ports.runCommand d count data dir = (.errIoFailed, d', data) ∧ d'.sectors = d.sectors ∧
      d'.medium = d.medium ∧ d'.Wedged := by
  obtain ⟨n, hn⟩ : ∃ n, count.toNat = n + 1 :=
    Nat.exists_eq_succ_of_ne_zero fun h0 => hcount (BitVec.eq_of_toNat_eq h0)
  obtain ⟨e, hstart, he⟩ := issued ht h hc dir
  obtain ⟨hphase, herr⟩ := he.rejected hcap
  have hbusy := he.busy
  have hpoll := pollDataLoop_eq (wait_eq he.stale) (by omega : e.wait.busy < maxPolls - 1)
    (by simp [hphase])
  rw [if_pos hphase] at hpoll
  have hmove : Ports.moveSectors dir count.toNat 0 (e, data) =
      (.errIoFailed, e.ticks (e.wait.busy + 1), data) := by
    rw [hn, Ports.moveSectors]
    simp only [Ports.pollData, hpoll]
    rfl
  refine ⟨e.ticks (e.wait.busy + 1), ?_, he.sectors, he.medium, ?_, .inl ⟨hphase, ?_⟩⟩
  · simp only [Ports.runCommand, hstart, hmove]
    rfl
  · rw [ticks_wait, wait_eq he.stale]
    exact Wait.after_eq_none (by simp)
  · rw [← herr] at hcode
    exact hcode

/-- A command for 256 sectors, with a count of 0. The driver moves none of them, and the drive is
    left with all of them to move. -/
theorem runCommand_zero (ht : d.spec.timing.InTime) (h : d.Takes) {c : Command}
    (hc : c.regs = d.regs) (hcap : c.address.toNat + c.count ≤ d.spec.capacity)
    (data : Nat → BitVec 16) (dir : DataDir) :
    ∃ d', Ports.runCommand d 0#8 data dir = (.success, d', data) ∧ d'.sectors = d.sectors ∧
      d'.medium = d.medium ∧ d'.Wedged := by
  obtain ⟨e, hstart, he⟩ := issued ht h hc dir
  obtain ⟨hphase, -⟩ := he.taken hcap
  have hbusy := he.busy
  -- the flush command is ignored
  have hflush : Ports.outb e .stat cmdFlush = e := by
    show e.command cmdFlush = e
    rw [command, if_pos]
    rintro ⟨-, hp | hp⟩
    · rw [hphase] at hp
      cases hp
    · rw [hphase] at hp
      cases hp
  have hcache := waitWhile_success (fun x => (busy_and_mask x).1) (by decide) (wait_eq he.stale)
    (by omega : e.wait.busy < maxPolls)
    (by rw [hphase]; exact (by decide : flagDrq &&& flagBsy = 0#8))
  obtain ⟨g, hg⟩ : ∃ g, g = e.ticks (e.wait.busy + 1) := ⟨_, rfl⟩
  have hend : g.wait = .none := by
    rw [hg, ticks_wait, wait_eq he.stale]
    exact Wait.after_eq_none (by simp)
  have hgp : g.phase = .data dir c.address.toNat c.count 0 := by
    rw [hg]
    exact hphase
  have hstatus : g.status &&& (flagErr ||| flagDriveFlt) = 0#8 := by
    rw [status_and (by decide) hend, hgp]
    exact (by decide : flagDrq &&& (flagErr ||| flagDriveFlt) = 0#8)
  rw [← hg] at hcache
  have hmove : Ports.moveSectors dir (0#8).toNat 0 (e, data) = (.success, e, data) := rfl
  refine ⟨g.ticks 1, ?_, ?_, ?_, ?_, .inr ⟨_, _, _, _, hgp⟩⟩
  · simp only [Ports.runCommand, hstart, hmove, Ports.flushCache, hflush, hcache, Ports.inb, inb,
      hstatus, ne_eq, not_true, if_false]
  · rw [hg]
    exact he.sectors
  · rw [hg]
    exact he.medium
  · rw [ticks_wait, hend, Wait.none_after]

/-- A request to a wedged drive. -/
theorem gptTransfer_wedged (h : d.Wedged) (dev : AtaDev) (part : Partition)
    (offset size : BitVec 32) (data : Nat → BitVec 16) (dir : DataDir) :
    ∃ res d', gptTransfer d dev part offset size data dir = (res, d', data) ∧
      res ≠ .success ∧ d'.sectors = d.sectors ∧ d'.medium = d.medium ∧ d'.Wedged := by
  rw [gptTransfer, Ports.ataTransfer]
  simp only
  split
  · exact ⟨_, d, rfl, by decide, rfl, rfl, h⟩
  split
  · exact ⟨_, d, rfl, by decide, rfl, rfl, h⟩
  obtain ⟨hphase, herr⟩ | ⟨dir', lba, left, pos, hphase⟩ := h.stuck
  · obtain ⟨n, regs, hsel, -⟩ := selectRegion_eq h.wait (by rw [hphase]; decide) dev
      (offset + part.start) (size.setWidth 8)
    rw [if_neg herr] at hsel
    rw [hsel]
    refine ⟨_, _, rfl, (by decide : DriveRes.errIoFailed ≠ .success), rfl, rfl, ?_,
      .inl ⟨hphase, herr⟩⟩
    exact (ticks_wait d n).trans (by rw [h.wait, Wait.none_after])
  · have hsel : ∃ n, Ports.selectRegion d dev (offset + part.start) (size.setWidth 8) =
        (.errTimeout, d.ticks n) := by
      refine ⟨maxPolls, ?_⟩
      rw [Ports.selectRegion, waitWhile_timeout h.wait hphase]
      rfl
    obtain ⟨n, hsel⟩ := hsel
    rw [hsel]
    refine ⟨_, d.ticks n, rfl, (by decide : DriveRes.errTimeout ≠ .success), rfl, rfl, ?_,
      .inr ⟨_, _, _, _, hphase⟩⟩
    rw [ticks_wait, h.wait, Wait.none_after]

end Disk

end Muse.Drive
