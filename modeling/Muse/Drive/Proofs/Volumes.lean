import Muse.Drive.Proofs.Device
import Muse.Drive.Volumes

/-!
# The driver refines the block devices

On a drive that is in time, every run of proper requests to the partitions has the replies of one
block device for each partition. A request for sectors that the drive does not have, and one for a
multiple of 256 sectors, put an end to that: no later request is answered.
-/

namespace Muse.Drive

open Muse.Library Muse.Ext2

/-! ## The sectors of a command as bytes -/

theorem movedSectors_read (lba i n : Nat) (s : (Nat → Nat → BitVec 16) × (Nat → BitVec 16)) :
    movedSectors .read lba i n s = (s.1, fun j => if 256 * i ≤ j ∧ j < 256 * i + 256 * n then
      s.1 (lba + (j - 256 * i) / 256) ((j - 256 * i) % 256) else s.2 j) := by
  induction n generalizing lba i s with
  | zero =>
      refine Prod.ext rfl (funext fun j => ?_)
      exact (if_neg (by omega)).symm
  | succ n ih =>
      rw [movedSectors, ih]
      refine Prod.ext rfl (funext fun j => ?_)
      simp only [moved]
      by_cases hlo : i * 256 ≤ j ∧ j < i * 256 + 256
      · have hdiv : (j - 256 * i) / 256 = 0 := by omega
        have hmod : (j - 256 * i) % 256 = j - i * 256 := by omega
        rw [if_neg (by omega), if_pos hlo, if_pos (by omega), hdiv, hmod, Nat.add_zero]
      · rw [if_neg hlo]
        by_cases hhi : 256 * (i + 1) ≤ j ∧ j < 256 * (i + 1) + 256 * n
        · have hin : 256 * i ≤ j ∧ j < 256 * i + 256 * (n + 1) := by omega
          have hdiv : lba + 1 + (j - 256 * (i + 1)) / 256 = lba + (j - 256 * i) / 256 := by omega
          have hmod : (j - 256 * (i + 1)) % 256 = (j - 256 * i) % 256 := by omega
          rw [if_pos hhi, if_pos hin, hdiv, hmod]
        · have hout : ¬ (256 * i ≤ j ∧ j < 256 * i + 256 * (n + 1)) := by omega
          rw [if_neg hhi, if_neg hout]

theorem movedSectors_write (lba i n : Nat) (s : (Nat → Nat → BitVec 16) × (Nat → BitVec 16)) :
    movedSectors .write lba i n s = (fun l w => if lba ≤ l ∧ l < lba + n ∧ w < 256 then
      s.2 (w + (i + (l - lba)) * 256) else s.1 l w, s.2) := by
  induction n generalizing lba i s with
  | zero =>
      refine Prod.ext (funext fun l => funext fun w => ?_) rfl
      exact (if_neg (by omega)).symm
  | succ n ih =>
      rw [movedSectors, ih]
      refine Prod.ext (funext fun l => funext fun w => ?_) rfl
      simp only [moved]
      by_cases hhi : lba + 1 ≤ l ∧ l < lba + 1 + n ∧ w < 256
      · have hidx : w + (i + 1 + (l - (lba + 1))) * 256 = w + (i + (l - lba)) * 256 := by omega
        rw [if_pos hhi, if_pos (by omega), hidx]
      · rw [if_neg hhi]
        by_cases hlo : l = lba ∧ w < 256
        · have hidx : w + i * 256 = w + (i + (l - lba)) * 256 := by omega
          rw [if_pos hlo, if_pos (by omega), hidx]
        · rw [if_neg hlo, if_neg (by omega)]

/-- The buffer behind a read. -/
theorem dataBytes_read (lba n : Nat) (s : (Nat → Nat → BitVec 16) × (Nat → BitVec 16)) (k : Nat) :
    dataBytes (movedSectors .read lba 0 n s).2 k =
      if k < 512 * n then sectorBytes s.1 (512 * lba + k) else dataBytes s.2 k := by
  rw [movedSectors_read, dataBytes]
  simp only [Nat.mul_zero, Nat.zero_le, true_and, Nat.sub_zero, Nat.zero_add]
  by_cases hk : k < 512 * n
  · have hsector : (512 * lba + k) / 512 = lba + k / 2 / 256 := by omega
    have hword : (512 * lba + k) % 512 / 2 = k / 2 % 256 := by omega
    have hbyte : (512 * lba + k) % 2 = k % 2 := by omega
    rw [if_pos (by omega), if_pos hk, sectorBytes, hsector, hword, hbyte]
  · rw [if_neg (by omega), if_neg hk, dataBytes]

/-- The drive behind a write. -/
theorem sectorBytes_write (lba n : Nat) (s : (Nat → Nat → BitVec 16) × (Nat → BitVec 16))
    (k : Nat) :
    sectorBytes (movedSectors .write lba 0 n s).1 k =
      if 512 * lba ≤ k ∧ k < 512 * lba + 512 * n then dataBytes s.2 (k - 512 * lba)
      else sectorBytes s.1 k := by
  rw [movedSectors_write, sectorBytes]
  by_cases hk : 512 * lba ≤ k ∧ k < 512 * lba + 512 * n
  · have hword : k % 512 / 2 + (0 + (k / 512 - lba)) * 256 = (k - 512 * lba) / 2 := by omega
    have hbyte : k % 2 = (k - 512 * lba) % 2 := by omega
    rw [if_pos hk, dataBytes]
    simp only [hword, hbyte]
    rw [if_pos (by omega)]
  · simp only
    rw [if_neg hk, if_neg (by omega), sectorBytes]

/-! ## One request -/

variable {ι : Type} {parts : ι → Partition} {dev : AtaDev} {d : Disk} {r : Request ι}

/-- The sector of a proper request. -/
theorem Request.Proper.lba (hp : Placed parts d.spec) (hr : r.Proper parts) :
    (r.offset + (parts r.part).start).toNat = (parts r.part).start.toNat + r.offset.toNat := by
  have hlim := hp.lba28 r.part
  have hin := hr.inside
  have hpos := hr.pos
  bv_omega

/-- A request below the limit that a ready drive is given as a command. -/
theorem gptTransfer_ready (h : d.Ready) (hdev : dev.lba28 = true) {part : Partition}
    {offset : BitVec 32} (hlim : ¬ part.limit ≤ offset + part.start) (size : BitVec 32)
    (data : Nat → BitVec 16) (dir : DataDir) :
    ∃ n, gptTransfer d dev part offset size data dir =
      Ports.runCommand
        ((d.ticks n).setRegs (Bus.programmed dev (offset + part.start) (size.setWidth 8)))
        (size.setWidth 8) data dir ∧
      ((d.ticks n).setRegs
        (Bus.programmed dev (offset + part.start) (size.setWidth 8))).Takes := by
  obtain ⟨n, regs, hsel, hregs⟩ := Disk.selectRegion_eq h.wait (by rw [h.phase]; decide) dev
    (offset + part.start) (size.setWidth 8)
  rw [hregs h.err, if_pos h.err] at hsel
  refine ⟨n, ?_, ?_, .inl h.phase⟩
  · rw [gptTransfer, Ports.ataTransfer]
    simp only [hlim, if_false, hdev, Bool.not_true, Bool.false_eq_true, hsel]
    rfl
  · exact (Disk.ticks_wait d n).trans (by rw [h.wait, Wait.none_after])

/-- A proper request moves its sectors. -/
theorem gptTransfer_proper (h : d.Ready) (ht : d.spec.timing.InTime) (hp : Placed parts d.spec)
    (hdev : dev.lba28 = true) (hr : r.Proper parts) :
    ∃ d', gptTransfer d dev (parts r.part) r.offset r.size r.data r.dir = (.success, d',
        (movedSectors r.dir ((parts r.part).start.toNat + r.offset.toNat) 0 r.size.toNat
          (d.sectors, r.data)).2) ∧
      d'.sectors = (movedSectors r.dir ((parts r.part).start.toNat + r.offset.toNat) 0 r.size.toNat
        (d.sectors, r.data)).1 ∧ d'.Ready ∧ d'.spec = d.spec := by
  have hlba := hr.lba hp
  have hin := hr.inside
  have hpos := hr.pos
  have hsmall := hr.small
  have hcap := hp.capacity r.part
  have hlba28 := hp.lba28 r.part
  have hlimit : ¬ (parts r.part).limit ≤ r.offset + (parts r.part).start := by
    rw [BitVec.le_def]
    omega
  obtain ⟨n, heq, htakes⟩ := gptTransfer_ready h hdev hlimit r.size r.data r.dir
  have hregs : (⟨0#8, Bus.programmed dev (r.offset + (parts r.part).start)
      (r.size.setWidth 8)⟩ : Command).regs =
      Bus.programmed dev (r.offset + (parts r.part).start) (r.size.setWidth 8) := rfl
  have haddr := address_programmed hregs
  have hcount := (count_programmed hregs).2.2 hpos (by omega)
  rw [hlba, Nat.mod_eq_of_lt (by omega)] at haddr
  have hsize : r.size.toNat = (r.size.setWidth 8).toNat := by
    rw [BitVec.toNat_setWidth]
    omega
  obtain ⟨d', hd', hs, hready, hspec⟩ := Disk.runCommand_accepted (d := (d.ticks n).setRegs
    (Bus.programmed dev (r.offset + (parts r.part).start) (r.size.setWidth 8))) ht htakes rfl
    (hcount.trans hsize) (by
      rw [haddr, hcount]
      exact Nat.le_trans hin hcap) r.data r.dir
  rw [haddr, hcount] at hd' hs
  exact ⟨d', heq.trans hd', hs, hready, hspec⟩

/-! ## All requests -/

/-- The block devices show the partitions of a ready drive. -/
structure Shown (parts : ι → Partition) (d : Disk) (bdevs : ι → Bdev) : Prop where
  ready : d.Ready
  inTime : d.spec.timing.InTime
  placed : Placed parts d.spec
  result : ∀ i k, (bdevs i).result k = .success
  disk : ∀ i k, 512 * (parts i).start.toNat + k < 512 * (parts i).limit.toNat →
    (bdevs i).disk k = sectorBytes d.sectors (512 * (parts i).start.toNat + k)

variable [DecidableEq ι] {bdevs : ι → Bdev}

theorem Shown.result_update (h : Shown parts d bdevs) {i : ι} {bdev : Bdev}
    (hb : bdev.result = (bdevs i).result) (j : ι) (k : Nat) :
    (Function.update bdevs i bdev j).result k = .success := by
  by_cases hj : j = i
  · rw [hj, Function.update_self, hb]
    exact h.result i k
  · rw [Function.update_of_ne hj]
    exact h.result j k

/-- A read. -/
theorem serve_read (h : Shown parts d bdevs) (hdev : dev.lba28 = true) (hr : r.Proper parts)
    (hdir : r.dir = .read) : (d.serve dev parts r).1 = (serveBdevs bdevs r).1 ∧
      Shown parts (d.serve dev parts r).2 (serveBdevs bdevs r).2 := by
  have hin := hr.inside
  obtain ⟨d', hd', hs, hready, hspec⟩ := gptTransfer_proper h.ready h.inTime h.placed hdev hr
  have hnext : (bdevs r.part).next = .success := h.result r.part _
  rw [hdir] at hd' hs
  have hserve : d.serve dev parts r = ((.success, dataBytes (movedSectors .read
      ((parts r.part).start.toNat + r.offset.toNat) 0 r.size.toNat (d.sectors, r.data)).2),
      d') := by
    rw [Disk.serve, hdir, hd']
  have hbdev : serveBdevs bdevs r = ((.success, (dataBytes r.data).splice 0 (512 * r.size.toNat)
      ((bdevs r.part).disk.slice (512 * r.offset.toNat) (512 * r.size.toNat))),
      Function.update bdevs r.part (bdevs r.part).tick) := by
    rw [serveBdevs, serveBdev, hdir]
    simp only [Bdev.read, hnext, if_true, sectorSize]
  rw [hserve, hbdev]
  refine ⟨Prod.ext rfl (funext fun k => ?_), hready, hspec ▸ h.inTime, hspec ▸ h.placed, ?_, ?_⟩
  · show dataBytes _ k = ((dataBytes r.data).splice 0 _ _) k
    rw [dataBytes_read]
    by_cases hk : k < 512 * r.size.toNat
    · have hbyte : 512 * ((parts r.part).start.toNat + r.offset.toNat) + k =
          512 * (parts r.part).start.toNat + (512 * r.offset.toNat + k) := by omega
      rw [if_pos hk, Bytes.splice_of_mem (Nat.zero_le k) (by omega), Nat.sub_zero,
        Bytes.slice_of_lt hk, h.disk r.part _ (by omega), hbyte]
    · rw [if_neg hk, Bytes.splice_of_not_mem (by omega)]
  · exact h.result_update rfl
  · intro i k hk
    have hsectors : d'.sectors = d.sectors := by rw [hs, movedSectors_read]
    rw [hsectors, ← h.disk i k hk]
    show (Function.update bdevs r.part _ i).disk k = _
    by_cases hi : i = r.part
    · rw [hi, Function.update_self, Bdev.tick_disk]
    · rw [Function.update_of_ne hi]

/-- A write. -/
theorem serve_write (h : Shown parts d bdevs) (hdev : dev.lba28 = true) (hr : r.Proper parts)
    (hdir : r.dir = .write) : (d.serve dev parts r).1 = (serveBdevs bdevs r).1 ∧
      Shown parts (d.serve dev parts r).2 (serveBdevs bdevs r).2 := by
  have hin := hr.inside
  obtain ⟨d', hd', hs, hready, hspec⟩ := gptTransfer_proper h.ready h.inTime h.placed hdev hr
  have hnext : (bdevs r.part).next = .success := h.result r.part _
  rw [hdir] at hd' hs
  have hserve : d.serve dev parts r = ((.success, dataBytes r.data), d') := by
    rw [Disk.serve, hdir, hd', movedSectors_write]
  have hbdev : serveBdevs bdevs r = ((.success, dataBytes r.data), Function.update bdevs r.part
      ((bdevs r.part).wrote r.source r.offset r.size (dataBytes r.data))) := by
    rw [serveBdevs, serveBdev, hdir]
    simp only [Bdev.write_ok hnext]
  rw [hserve, hbdev]
  refine ⟨rfl, hready, hspec ▸ h.inTime, hspec ▸ h.placed, ?_, ?_⟩
  · exact h.result_update rfl
  · intro i k hk
    rw [hs, sectorBytes_write]
    show (Function.update bdevs r.part _ i).disk k = _
    by_cases hi : i = r.part
    · subst hi
      rw [Function.update_self, Bdev.wrote, sectorSize]
      simp only
      by_cases hmem : 512 * r.offset.toNat ≤ k ∧ k < 512 * r.offset.toNat + 512 * r.size.toNat
      · have hbyte : 512 * (parts r.part).start.toNat + k -
            512 * ((parts r.part).start.toNat + r.offset.toNat) = k - 512 * r.offset.toNat := by
          omega
        rw [Bytes.splice_of_mem hmem.1 hmem.2, if_pos (by omega), hbyte]
      · rw [Bytes.splice_of_not_mem (by omega), if_neg (by omega), h.disk _ k hk]
    · -- another partition has none of the sectors
      have hapart := h.placed.apart i r.part hi
      rw [Function.update_of_ne hi, if_neg (by omega), h.disk i k hk]

/-- The replies to all requests are those of the block devices, and every sector that was written is
    on the medium. -/
theorem transfers_refine (dev : AtaDev) (parts : ι → Partition) (d : Disk) (bdevs : ι → Bdev)
    (h : Shown parts d bdevs) (hdev : dev.lba28 = true) (rs : List (Request ι))
    (hrs : ∀ r ∈ rs, r.Proper parts) :
    (replies (Disk.serve dev parts) d rs).1 = (replies serveBdevs bdevs rs).1 ∧
      Shown parts (replies (Disk.serve dev parts) d rs).2 (replies serveBdevs bdevs rs).2 := by
  apply replies_refine (fun _ r => r.Proper parts) (Shown parts) _ h (.of_forall hrs)
  intro s t r hst hr
  cases hdir : r.dir with
  | read => exact serve_read hst hdev hr hdir
  | write => exact serve_write hst hdev hr hdir

/-! ## A drive with two partitions -/

/-- The timing of a drive that is at once ready. -/
def prompt : Timing := ⟨fun _ _ => .none, fun _ => 0#8⟩

theorem prompt_inTime : prompt.InTime :=
  ⟨fun _ => (by decide : 0 ≤ 4 ∧ 0 + 2 ≤ maxPolls),
    fun _ => (by decide : 0 ≤ 15 ∧ 0 + 2 ≤ maxPolls),
    fun _ => (by decide : 0 + 0 ≤ 15), fun _ => (by decide : 0 = 0 ∧ 0 < maxPolls)⟩

/-- A drive with 64 empty sectors. -/
def emptyDisk : Disk :=
  ⟨⟨prompt, 64, 0x10#8⟩, fun _ _ => 0#16, fun _ _ => 0#16, ⟨0#8, 0#8, 0#8, 0#8, 0#8⟩, 0#8, .idle,
    .none, 0, 0⟩

theorem emptyDisk_ready : emptyDisk.Ready := ⟨rfl, rfl, rfl, rfl⟩

def halves : Bool → Partition
  | false => ⟨8#32, 32#32⟩
  | true => ⟨32#32, 64#32⟩

theorem halves_shown : Shown halves emptyDisk fun _ => ⟨fresh, fun _ => .success, 0, []⟩ := by
  refine ⟨emptyDisk_ready, prompt_inTime, ⟨?_, ?_, ?_⟩, fun _ _ => rfl, ?_⟩
  · intro i
    cases i <;> decide
  · intro i
    cases i <;> decide
  · intro i j hij
    cases i <;> cases j <;> first | exact absurd rfl hij | decide
  · intro i k hk
    simp [sectorBytes, emptyDisk, fresh]

/-- A sector that is written to the one partition and read back from it. -/
def writeAndRead : List (Request Bool) :=
  [⟨true, 5#32, 1#32, fun j => BitVec.ofNat 16 j, .write, .data⟩,
    ⟨true, 5#32, 1#32, fun _ => 0#16, .read, .data⟩]

theorem transfers_refine_halves : ∃ d, ((replies (Disk.serve ⟨.master, true⟩ halves) emptyDisk
    writeAndRead).1.map fun reply => (reply.1, reply.2 6)) =
      [(.success, 3#8), (.success, 3#8)] ∧
    (replies (Disk.serve ⟨.master, true⟩ halves) emptyDisk writeAndRead).2 = d ∧ d.Ready := by
  have hproper : ∀ r ∈ writeAndRead, r.Proper halves := by
    intro r hr
    simp only [writeAndRead, List.mem_cons, List.not_mem_nil, or_false] at hr
    obtain rfl | rfl := hr <;> exact ⟨by decide, by decide, by decide⟩
  have h := transfers_refine ⟨.master, true⟩ halves emptyDisk _ halves_shown rfl
    writeAndRead hproper
  refine ⟨_, ?_, rfl, h.2.ready⟩
  rw [h.1]
  decide

/-! ## A drive that is not answered any more -/

/-- The request for sectors that the drive does not have, and the one for a multiple of 256. -/
theorem serve_wedges {ι : Type} {dev : AtaDev} {parts : ι → Partition} {d : Disk} (h : d.Ready)
    (ht : d.spec.timing.InTime) (hcode : d.spec.errCode ≠ 0#8) (hdev : dev.lba28 = true)
    (r : Request ι) (hlim : ¬ (parts r.part).limit ≤ r.offset + (parts r.part).start)
    (hbad : if r.size.setWidth 8 = 0#8
      then (r.offset + (parts r.part).start).toNat % 2 ^ 28 + 256 ≤ d.spec.capacity
      else d.spec.capacity <
        (r.offset + (parts r.part).start).toNat % 2 ^ 28 + (r.size.setWidth 8).toNat) :
    ∃ d', d.serve dev parts r =
        ((if r.size.setWidth 8 = 0#8 then .success else .errIoFailed, dataBytes r.data), d') ∧
      d'.sectors = d.sectors ∧ d'.medium = d.medium ∧ d'.Wedged := by
  obtain ⟨n, heq, htakes⟩ := gptTransfer_ready h hdev hlim r.size r.data r.dir
  have hcommand : (⟨0#8, Bus.programmed dev (r.offset + (parts r.part).start)
      (r.size.setWidth 8)⟩ : Command).regs =
      Bus.programmed dev (r.offset + (parts r.part).start) (r.size.setWidth 8) := rfl
  have haddr := address_programmed hcommand
  obtain ⟨e, he⟩ : ∃ e : Disk, e = (d.ticks n).setRegs
    (Bus.programmed dev (r.offset + (parts r.part).start) (r.size.setWidth 8)) := ⟨_, rfl⟩
  have hregs : e.regs = Bus.programmed dev (r.offset + (parts r.part).start)
      (r.size.setWidth 8) := by
    rw [he]
    rfl
  have hspec : e.spec = d.spec := by
    rw [he]
    rfl
  rw [← he] at heq htakes
  rw [Disk.serve]
  by_cases hzero : r.size.setWidth 8 = 0#8
  · -- the drive has 256 sectors to move, and the driver moves none
    rw [if_pos hzero] at hbad ⊢
    obtain ⟨d', hd', hs, hm, hw⟩ := Disk.runCommand_zero (hspec ▸ ht) htakes hregs.symm
      (by
        rw [haddr, Command.count, Bus.programmed, if_pos hzero, hspec]
        exact hbad) r.data r.dir
    rw [hzero] at heq
    rw [heq.trans hd']
    refine ⟨d', rfl, hs.trans ?_, hm.trans ?_, hw⟩ <;> rw [he] <;> rfl
  · rw [if_neg hzero] at hbad ⊢
    obtain ⟨d', hd', hs, hm, hw⟩ := Disk.runCommand_rejected (hspec ▸ ht) htakes hregs.symm hzero
      (by
        rw [haddr, Command.count, Bus.programmed, if_neg hzero, hspec]
        exact hbad) (hspec ▸ hcode) r.data r.dir
    rw [heq.trans hd']
    refine ⟨d', rfl, hs.trans ?_, hm.trans ?_, hw⟩ <;> rw [he] <;> rfl

/-- A run of requests to a drive that does not take a command any more. -/
theorem wedged_replies {ι : Type} {d : Disk} (h : d.Wedged) (dev : AtaDev) (parts : ι → Partition)
    (rs : List (Request ι)) :
    List.Forall₂ (fun (q : Request ι) (reply : DriveRes × Bytes) =>
        reply.1 ≠ .success ∧ reply.2 = dataBytes q.data) rs
      (replies (Disk.serve dev parts) d rs).1 ∧
    (replies (Disk.serve dev parts) d rs).2.sectors = d.sectors ∧
    (replies (Disk.serve dev parts) d rs).2.medium = d.medium ∧
    (replies (Disk.serve dev parts) d rs).2.Wedged := by
  refine replies_invariant (fun _ : Request ι => True)
    (fun e : Disk => e.sectors = d.sectors ∧ e.medium = d.medium ∧ e.Wedged) _ ?_ ⟨rfl, rfl, h⟩
    (fun q (_ : q ∈ rs) => trivial)
  rintro e q ⟨hs, hm, he⟩ -
  obtain ⟨res, e', hcall, hne, hs', hm', he'⟩ := Disk.gptTransfer_wedged he dev (parts q.part)
    q.offset q.size q.data q.dir
  rw [Disk.serve, hcall]
  exact ⟨⟨hne, rfl⟩, hs'.trans hs, hm'.trans hm, he'⟩

/-- A request for sectors that the drive does not have fails, one for a multiple of 256 sectors
    moves none and still succeeds, and behind either of them no request succeeds and none moves
    any data. -/
theorem wedged_for_good {ι : Type} (dev : AtaDev) (parts : ι → Partition) (d : Disk) (h : d.Ready)
    (ht : d.spec.timing.InTime) (hcode : d.spec.errCode ≠ 0#8) (hdev : dev.lba28 = true)
    (r : Request ι) (hlim : ¬ (parts r.part).limit ≤ r.offset + (parts r.part).start)
    (hbad : if r.size.setWidth 8 = 0#8
      then (r.offset + (parts r.part).start).toNat % 2 ^ 28 + 256 ≤ d.spec.capacity
      else d.spec.capacity <
        (r.offset + (parts r.part).start).toNat % 2 ^ 28 + (r.size.setWidth 8).toNat)
    (rs : List (Request ι)) :
    (d.serve dev parts r).1 = (if r.size.setWidth 8 = 0#8 then .success else .errIoFailed,
        dataBytes r.data) ∧
      List.Forall₂ (fun (q : Request ι) (reply : DriveRes × Bytes) =>
          reply.1 ≠ .success ∧ reply.2 = dataBytes q.data) rs
        (replies (Disk.serve dev parts) (d.serve dev parts r).2 rs).1 ∧
      (replies (Disk.serve dev parts) (d.serve dev parts r).2 rs).2.sectors = d.sectors ∧
      (replies (Disk.serve dev parts) (d.serve dev parts r).2 rs).2.medium = d.medium := by
  obtain ⟨d', hserve, hs, hm, hwedged⟩ := serve_wedges h ht hcode hdev r hlim hbad
  obtain ⟨hreplies, hs', hm', -⟩ := wedged_replies hwedged dev parts rs
  rw [hserve]
  exact ⟨rfl, hreplies, hs'.trans hs, hm'.trans hm⟩

/-- A read of sector 64 of a drive that has 64 of them, and a write to a sector that it has. -/
theorem wedged_for_good_empty : ∃ res,
    (replies (Disk.serve ⟨.master, true⟩ fun _ : Unit => ⟨0#32, 0xFFFFFFFF#32⟩) emptyDisk
      [⟨(), 64#32, 1#32, fun _ => 0#16, .read, .data⟩,
        ⟨(), 5#32, 1#32, fun _ => 7#16, .write, .data⟩]).1.map (fun reply => reply.1) =
      [.errIoFailed, res] ∧ res ≠ .success := by
  have h := wedged_for_good ⟨.master, true⟩ (fun _ : Unit => ⟨0#32, 0xFFFFFFFF#32⟩) emptyDisk
    emptyDisk_ready prompt_inTime (by decide) rfl ⟨(), 64#32, 1#32, fun _ => 0#16, .read, .data⟩
    (by decide) (by decide) [⟨(), 5#32, 1#32, fun _ => 7#16, .write, .data⟩]
  obtain ⟨hfirst, hrest, -⟩ := h
  refine ⟨_, ?_, (List.forall₂_cons.mp hrest).1.1⟩
  rw [replies, hfirst]
  rfl

end Muse.Drive
