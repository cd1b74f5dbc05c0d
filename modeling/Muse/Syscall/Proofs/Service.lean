import Muse.Ext2.Proofs.Volume
import Muse.Paging.Proofs.CleanData
import Muse.Paging.Proofs.CleanString
import Muse.Syscall.Proofs.Open
import Muse.Syscall.Service

/-!
# The calls serve files

Each handler does to the kernel and the volume what its request says of the files and descriptors,
so every run of requests is answered as they say.
-/

namespace Muse.Syscall

open Muse.Ext2 Muse.Library Muse.Paging

variable {files : Set InodePtr} {fs : FileSystem} {s : OpenFiles} {env : ServiceEnv} {ctx : CtxPtr}
  {i : Fin fopenMax}

/-- What the kernel sees of a transfer is what the call on the file table alone does. -/
theorem FileSystem.syscallTransfer_kernel (env : ServiceEnv) (fs : FileSystem)
    (arg size data : BitVec 32) :
    (fs.syscallTransfer env arg size data).map (fun r => (r.1, r.2.kernel)) =
      (fs.kernel.syscallTransfer (fs.drivers env) (env.vm fs.kernel.activeCtx) arg size
        data).final := by
  rw [syscallTransfer, Kernel.syscallTransfer]
  generalize (if arg.slt 0#32 then DataDir.write else .read) = dir
  generalize (if arg.slt 0#32 then -arg else arg) = fd
  by_cases hfd : (16#32).sle fd
  · simp only [hfd, if_true]
    rfl
  simp only [hfd]
  cases (env.vm fs.kernel.activeCtx).cleanData data size with
  | none => rfl
  | some p =>
      by_cases hp : p = 0#32
      · simp only [hp, if_true, Option.bind_eq_bind, Option.bind_some]
        rfl
      simp only [hp, if_false, Option.bind_eq_bind, Option.bind_some, Outcome.access]
      cases slot? fd with
      | none => rfl
      | some i =>
          simp only [Option.bind_some, drivers]
          cases fs.volume.transfer env.rounds (fs.kernel.file i).inode (fs.kernel.file i).pos size
              (fs.buffer p) dir with
          | none => rfl
          | some r => rfl

theorem signedFd_dir {dir : DataDir} (hwrite : dir = .write → 0 < (i : Nat)) :
    (if (signedFd i dir).slt 0#32 then DataDir.write else .read) = dir ∧
      (if (signedFd i dir).slt 0#32 then -signedFd i dir else signedFd i dir) = BitVec.ofNat 32 i ∧
      (16#32).sle (BitVec.ofNat 32 i) = false := by
  cases dir with
  | read =>
      clear hwrite
      revert i
      decide
  | write =>
      have hi := hwrite rfl
      clear hwrite
      revert i
      decide

namespace Shown

/-- Another context becomes active. -/
theorem switch (h : Shown env files fs s) (ctx : CtxPtr) :
    Shown env files { fs with kernel := { fs.kernel with activeCtx := ctx } } s :=
  ⟨h.names, h.nonnull, h.sound, h.contents, h.volume, h.size, h.refs, h.table, h.user⟩

theorem setFile (h : Shown env files fs s) (i : Fin fopenMax) (f : File) :
    Shown env files { fs with kernel := fs.kernel.setFile i f }
      (s.setDescriptor fs.kernel.activeCtx i f.descriptor) where
  names := h.names
  nonnull := h.nonnull
  sound := h.sound
  contents := h.contents
  volume := h.volume
  size := h.size
  refs := h.refs
  user := h.user
  table := by
    intro ctx j
    rw [Kernel.setFile, OpenFiles.setDescriptor]
    by_cases hctx : ctx = fs.kernel.activeCtx
    · subst hctx
      simp only [Function.update_self]
      by_cases hj : j = i
      · subst hj
        simp only [Function.update_self]
      · simp only [Function.update_of_ne hj]
        exact h.table _ j
    · simp only [Function.update_of_ne hctx]
      exact h.table ctx j

theorem setRefs (h : Shown env files fs s) {p : InodePtr} {x : Inode} {n : BitVec 32}
    (hsize : x.size = (fs.kernel.inodes p).size) (hrefs : x.refs = n) :
    Shown env files { fs with kernel := fs.kernel.setInode p x }
      { s with refs := Function.update s.refs p n } where
  names := h.names
  nonnull := h.nonnull
  sound := h.sound
  contents := h.contents
  volume := h.volume
  table := h.table
  user := h.user
  size := by
    intro q
    rw [Kernel.setInode]
    by_cases hq : q = p
    · subst hq
      simp only [Function.update_self]
      rw [hsize]
      exact h.size q
    · simp only [Function.update_of_ne hq]
      exact h.size q
  refs := by
    intro q
    rw [Kernel.setInode]
    by_cases hq : q = p
    · subst hq
      simp only [Function.update_self]
      exact hrefs
    · simp only [Function.update_of_ne hq]
      exact h.refs q

/-- The slot of a descriptor. -/
theorem slot (h : Shown env files fs s) {d : Descriptor}
    (hd : s.table fs.kernel.activeCtx i = some d) :
    ∃ mode, mode ≠ 0#8 ∧ fs.kernel.file i = ⟨d.inode, d.pos, mode⟩ := by
  have htable := h.table fs.kernel.activeCtx i
  rw [hd, File.descriptor] at htable
  split at htable
  next => cases htable
  next hmode =>
    obtain rfl := Option.some.inj htable
    exact ⟨_, hmode, rfl⟩

theorem free (h : Shown env files fs s) : s.free fs.kernel.activeCtx = fs.kernel.freeSlot := by
  rw [OpenFiles.free, Kernel.freeSlot]
  congr 1
  funext j
  rw [← h.table, File.descriptor, Kernel.file]
  split
  next hmode => simp [hmode]
  next hmode => simp [hmode]

/-- A file whose size the kernel has. -/
theorem size_eq (h : Shown env files fs s) (p : InodePtr) :
    (fs.kernel.inodes p).size = BitVec.ofNat 32 (s.size p) := by
  rw [← h.size, BitVec.ofNat_toNat, BitVec.setWidth_eq]

/-! ## The handlers -/

theorem seek (h : Shown env files fs s) (offset whence : BitVec 32) {d : Descriptor}
    (hd : s.table fs.kernel.activeCtx i = some d) :
    ∃ fs', fs.withKernel (fs.kernel.syscallSeek (BitVec.ofNat 32 i) offset whence).final =
        some (s.place d offset whence, fs') ∧
      Shown env files fs' (s.setDescriptor fs.kernel.activeCtx i
        (some ⟨d.inode, s.place d offset whence⟩)) := by
  obtain ⟨mode, hmode, hfile⟩ := h.slot hd
  have hplace : fs.kernel.seekPos i offset whence = s.place d offset whence := by
    rw [Kernel.seekPos, OpenFiles.place, hfile, h.size_eq]
  have hshown := h.setFile i ⟨d.inode, s.place d offset whence, mode⟩
  rw [File.descriptor, if_neg hmode] at hshown
  refine ⟨_, ?_, hshown⟩
  rw [Kernel.syscallSeek, Outcome.access, slot?_ofNat]
  simp only [hplace, hfile]
  rfl

theorem close (h : Shown env files fs s) {d : Descriptor}
    (hd : s.table fs.kernel.activeCtx i = some d) (hrefs : s.refs d.inode ≠ 1#32) :
    ∃ fs', fs.withKernel (fs.kernel.syscallClose (BitVec.ofNat 32 i)).final = some (0#32, fs') ∧
      Shown env files fs' ({ s with
        refs := Function.update s.refs d.inode (s.refs d.inode - 1#32) }.setDescriptor
          fs.kernel.activeCtx i none) := by
  obtain ⟨mode, -, hfile⟩ := h.slot hd
  have hlast : (fs.kernel.inodes d.inode).refs - 1#32 ≠ 0#32 := by
    rw [h.refs]
    bv_omega
  have hdrop : fs.kernel.dropRef d.inode = fs.kernel.setInode d.inode
      { fs.kernel.inodes d.inode with refs := (fs.kernel.inodes d.inode).refs - 1#32 } := by
    rw [Kernel.dropRef]
    simp only [hlast, if_false]
  have hrefs' : (fs.kernel.inodes d.inode).refs - 1#32 = s.refs d.inode - 1#32 := by
    rw [h.refs]
  have hshown := (h.setRefs (p := d.inode) (x := { fs.kernel.inodes d.inode with
    refs := (fs.kernel.inodes d.inode).refs - 1#32 }) rfl hrefs').setFile i ⟨0#32, 0#32, 0#8⟩
  rw [← hdrop] at hshown
  simp only [Kernel.dropRef_activeCtx] at hshown
  refine ⟨_, ?_, hshown⟩
  rw [Kernel.syscallClose_final (slot?_ofNat i), hfile]
  rfl

theorem transfer (h : Shown env files fs s) (hrounds : 2 ^ 32 ≤ env.rounds) {dir : DataDir}
    (hwrite : dir = .write → 0 < (i : Nat)) {size data : BitVec 32} (hdata : data ≠ 0#32)
    (hclean : (env.vm fs.kernel.activeCtx).cleanData data size = some data)
    (hsize : 0 < size.toNat) {d : Descriptor} (hd : s.table fs.kernel.activeCtx i = some d)
    (hmem : d.inode ∈ files) (hpos : d.pos.toNat < s.size d.inode)
    (hfit : d.pos.toNat + size.toNat < 2 ^ 32) :
    ∃ fs', fs.syscallTransfer env (signedFd i dir) size data =
        some (BitVec.ofNat 32 (s.moves d size), fs') ∧
      Shown env files fs' (s.serve (fs.kernel.activeCtx, .transfer dir i size data)).2 := by
  obtain ⟨mode, hmode, hfile⟩ := h.slot hd
  rw [← h.volume _ hmem] at hpos
  obtain ⟨out, v', hrun, hsound, hsizes, hbytes, hout⟩ := Volume.transfer_spec h.sound hmem hpos
    hsize hfit hrounds (fs.buffer data) dir h.contents
  have hbuffer : fs.buffer data = fun k => s.user fs.kernel.activeCtx (data.toNat + k) := by
    rw [← h.user]
    rfl
  rw [h.volume _ hmem] at hrun hbytes hout
  have hshown := h.setFile i ⟨d.inode, d.pos + BitVec.ofNat 32 (s.moves d size), mode⟩
  rw [File.descriptor, if_neg hmode] at hshown
  refine ⟨⟨fs.kernel.setFile i ⟨d.inode, d.pos + BitVec.ofNat 32 (s.moves d size), mode⟩, v',
    fs.setBuffer data out⟩, ?_, ?_⟩
  · obtain ⟨hdir, hfd, hlow⟩ := signedFd_dir hwrite
    rw [FileSystem.syscallTransfer]
    simp only [hdir, hfd, hlow, hclean, hdata, slot?_ofNat, hfile, hrun, if_false,
      Option.bind_eq_bind, Option.bind_some, Bool.false_eq_true]
    rfl
  · simp only [OpenFiles.serve, hd]
    exact
      { names := h.names
        nonnull := h.nonnull
        sound := hsound
        contents := fun p hp k hk => by
          rw [hsizes] at hk
          rw [hbytes p hp k hk, hbuffer]
          rfl
        volume := fun p hp => (hsizes p).trans (h.volume p hp)
        size := h.size
        refs := h.refs
        table := hshown.table
        user := by
          rw [FileSystem.setBuffer, hout, hbuffer, h.user]
          rfl }

/-- What an open finds under the string in the memory of the caller. -/
theorem found (h : Shown env files fs s) {ctx : CtxPtr} {path r : BitVec 32}
    {reads : List (BitVec 32)}
    (hclean : cleanString (env.vm ctx).checkUser (fun a => s.user ctx a.toNat) path =
      some (r, reads)) (hr : r ≠ 0#32) (hresolve : env.resolve (s.path ctx path).pointer ≠ none) :
    env.resolve (charsAt (fs.user ctx) path) = some (s.names (s.path ctx path)) := by
  obtain ⟨inode, hinode⟩ := Option.ne_none_iff_exists'.mp hresolve
  obtain ⟨lookup, hlookup, hregistered⟩ := Option.bind_eq_some_iff.mp hinode
  obtain ⟨z, hz, hnull⟩ := cleanString_ends hclean hr
  have hend : 0#8 ∈ charsAt (s.user ctx) path := by
    have hlt := z.isLt
    rw [← hnull]
    exact mem_bytesAt hz (by omega)
  rw [h.names _ _ hinode, h.user, ServiceEnv.resolve, Vfs.lookup_bytes hend hlookup]
  exact hregistered

theorem «open» (h : Shown env files fs s) {path mode : BitVec 32}
    (hr : s.Proper env files (fs.kernel.activeCtx, .open path mode)) :
    ∃ v fs', fs.syscallOpen env path mode = some (v, fs') ∧
      (s.serve (fs.kernel.activeCtx, .open path mode)).1 = some v ∧
      Shown env files fs' (s.serve (fs.kernel.activeCtx, .open path mode)).2 := by
  obtain ⟨⟨reads, hclean⟩, hpath, hresolve, hmode, htruncate⟩ := hr
  have hfound := h.found hclean hpath hresolve
  have hopen : fs.syscallOpen env path mode = fs.withKernel (fs.kernel.syscallOpen (fs.drivers env)
      ((s.names (s.path fs.kernel.activeCtx path)).getD 0#32) mode) := by
    rw [FileSystem.syscallOpen, h.user]
    rw [h.user] at hfound
    simp only [hclean, Option.bind_eq_bind, Option.bind_some, if_neg hpath, hfound]
  have hnonnull := h.nonnull (s.path fs.kernel.activeCtx path)
  rw [hopen, OpenFiles.serve]
  generalize s.names (s.path fs.kernel.activeCtx path) = found at hnonnull ⊢
  cases found with
  | none =>
      rw [Option.getD_none, Kernel.syscallOpen, if_pos rfl]
      exact ⟨_, _, rfl, rfl, h⟩
  | some inode =>
      have hnull : inode ≠ 0#32 := fun hzero => hnonnull (congrArg some hzero)
      have hrefs : (fs.kernel.inodes inode).refs + 1#32 = s.refs inode + 1#32 := by
        rw [h.refs]
      have hshown := h.setRefs (p := inode) (x := { fs.kernel.inodes inode with
        refs := (fs.kernel.inodes inode).refs + 1#32 }) rfl hrefs
      simp only [Option.getD_some, h.free]
      cases hfree : fs.kernel.freeSlot with
      | none =>
          rw [Kernel.syscallOpen, if_neg hnull]
          simp only [Kernel.freeSlot_setInode, hfree]
          exact ⟨_, _, rfl, rfl, hshown⟩
      | some i =>
          have hopened := hshown.setFile i ⟨inode, if mode.setWidth 8 &&& modeAppend ≠ 0#8 then
            (fs.kernel.inodes inode).size else 0#32, mode.setWidth 8⟩
          rw [File.descriptor, if_neg hmode] at hopened
          rw [← h.size_eq]
          refine ⟨_, _, ?_, rfl, hopened⟩
          rw [Kernel.syscallOpen, if_neg hnull]
          simp only [Kernel.freeSlot_setInode, hfree]
          simp only [htruncate, ne_eq, not_true_eq_false, if_false, Kernel.setInode,
            Function.update_self]
          rfl

/-- A request that is proper. -/
theorem serve (h : Shown env files fs s) (hrounds : 2 ^ 32 ≤ env.rounds) {r : CtxPtr × Request}
    (hr : s.Proper env files r) :
    (fs.serve env r).1 = (s.serve r).1 ∧ Shown env files (fs.serve env r).2 (s.serve r).2 := by
  obtain ⟨ctx, request⟩ := r
  have hswitch := h.switch ctx
  cases request with
  | «open» path mode =>
      obtain ⟨v, fs', hrun, hreply, hshown⟩ := hswitch.open hr
      have hserve : fs.serve env (ctx, .open path mode) = (some v, fs') := by
        rw [FileSystem.serve]
        simp only [Request.registers, FileSystem.handleSyscall, hrun]
        rfl
      rw [hserve, ← hreply]
      exact ⟨rfl, hshown⟩
  | transfer dir i size data =>
      obtain ⟨hwrite, hdata, hclean, hsize, d, hd, hmem, hpos, hfit⟩ := hr
      obtain ⟨fs', hrun, hshown⟩ := hswitch.transfer hrounds hwrite hdata hclean hsize hd hmem
        hpos hfit
      have hserve : fs.serve env (ctx, .transfer dir i size data) =
          (some (BitVec.ofNat 32 (s.moves d size)), fs') := by
        rw [FileSystem.serve]
        simp only [Request.registers, FileSystem.handleSyscall, hrun]
        rfl
      rw [hserve]
      refine ⟨?_, hshown⟩
      simp only [OpenFiles.serve, hd]
  | seek i offset whence =>
      obtain ⟨d, hd⟩ := Option.ne_none_iff_exists'.mp hr
      obtain ⟨fs', hrun, hshown⟩ := hswitch.seek offset whence hd
      have hserve : fs.serve env (ctx, .seek i offset whence) =
          (some (s.place d offset whence), fs') := by
        rw [FileSystem.serve]
        simp only [Request.registers, FileSystem.handleSyscall, hrun]
        rfl
      rw [hserve, OpenFiles.serve, hd]
      exact ⟨rfl, hshown⟩
  | close i =>
      obtain ⟨d, hd, hrefs⟩ := hr
      obtain ⟨fs', hrun, hshown⟩ := hswitch.close hd hrefs
      have hserve : fs.serve env (ctx, .close i) = (some 0#32, fs') := by
        rw [FileSystem.serve]
        simp only [Request.registers, FileSystem.handleSyscall, hrun]
        rfl
      rw [hserve, OpenFiles.serve, hd]
      exact ⟨rfl, hshown⟩

end Shown

/-- Every run of requests of any contexts is answered as the files and descriptors say. -/
theorem calls_serve_files (env : ServiceEnv) (files : Set InodePtr) (hrounds : 2 ^ 32 ≤ env.rounds)
    (fs : FileSystem) (s : OpenFiles) (h : Shown env files fs s) (rs : List (CtxPtr × Request))
    (hrs : Allowed (fun s r => s.serve r) (fun s r => s.Proper env files r) s rs) :
    (replies (fun fs r => fs.serve env r) fs rs).1 = (replies (fun s r => s.serve r) s rs).1 ∧
      Shown env files (replies (fun fs r => fs.serve env r) fs rs).2
        (replies (fun s r => s.serve r) s rs).2 := by
  apply replies_refine (fun s r => s.Proper env files r) (Shown env files) _ h hrs
  intro fs s r hshown hr
  exact hshown.serve hrounds hr

/-- One file, `"/a"`, with the inode at `0x500`, and contexts whose page 1 is a user page. -/
def shortEnv : ServiceEnv where
  rounds := 2 ^ 32
  vm _ := Vm.oneTable
  mounts := [OpenEnv.oneFile]
  addr _ := 0x500#32

/-- The memory of each context: `"/a"` at the address `0x1000`, and a byte at `0x1800`. -/
def shortMemory : Bytes := fun a =>
  if a = 0x1000 then 47#8 else if a = 0x1001 then 97#8 else if a = 0x1800 then 7#8 else 0#8

/-- The file has two bytes, and a context has its first three slots in use. -/
def shortSystem : FileSystem where
  kernel := ⟨0#32, fun _ i => if (i : Nat) < 3 then ⟨0x100#32, 0#32, 1#8⟩ else ⟨0#32, 0#32, 0#8⟩,
    fun _ => ⟨true, 1#32, 2#32, 0#32⟩, []⟩
  volume := ⟨smallSuperblock, fun _ => 1#32, fun _ => shortInode, smallBdev⟩
  user := fun _ => shortMemory

/-- What these are. -/
def shortFiles : OpenFiles where
  names := fun path => (shortEnv.resolve path.pointer).join
  size := fun _ => 2
  contents := fun _ => smallSuperblock.fileByte smallDisk shortInode
  table := fun _ i => if (i : Nat) < 3 then some ⟨0x100#32, 0#32⟩ else none
  refs := fun _ => 1#32
  user := fun _ => shortMemory

theorem shortEnv_resolve (path : List (BitVec 8)) : shortEnv.resolve path ≠ some (some 0#32) := by
  intro h
  obtain ⟨r, -, h⟩ := Option.bind_eq_some_iff.mp h
  split at h
  · obtain ⟨p, -, hp⟩ := Option.map_eq_some_iff.mp (Option.some.inj h)
    have haddr : 0x500#32 = 0#32 := hp
    exact absurd haddr (by decide)
  · cases h

theorem shortFiles_shown : Shown shortEnv {0x500#32} shortSystem shortFiles where
  names := by
    intro path inode h
    simp only [shortFiles, h, Option.join_some]
  nonnull := fun path h => shortEnv_resolve path.pointer (Option.join_eq_some_iff.mp h)
  sound :=
    { whole := fun _ _ => short_wholeFile
      apart := by
        rintro p rfl q rfl h
        exact absurd rfl h
      ok := fun _ => rfl }
  contents := fun _ _ _ _ => rfl
  volume := by
    intro p _
    have hsize : shortInode.sizeLo.toNat = 2 := by decide
    exact hsize
  size := fun _ => rfl
  refs := fun _ => rfl
  table := by
    intro ctx i
    simp only [shortSystem, shortFiles]
    split <;> rfl
  user := rfl

/-- The file is opened, its second byte is written with a call for nine bytes, and it is read to
    where its name is. What stands there then is the name of no file. -/
def shortRequests : List (CtxPtr × Request) :=
  let fd : Fin fopenMax := ⟨3, by decide⟩
  [(0#32, .open 0x1000#32 3#32), (0#32, .seek fd 1#32 0#32),
    (0#32, .transfer .write fd 9#32 0x1800#32), (0#32, .seek fd 0#32 0#32),
    (0#32, .transfer .read fd 9#32 0x1001#32), (0#32, .open 0x1000#32 3#32)]

theorem calls_serve_files_short :
    (replies (fun fs r => fs.serve shortEnv r) shortSystem shortRequests).1 =
      [some 3#32, some 1#32, some 1#32, some 0#32, some 2#32, some (-1#32)] := by
  have hdata : Vm.oneTable.cleanData 0x1800#32 9#32 = some 0x1800#32 := by decide +kernel
  have hpath : Vm.oneTable.cleanData 0x1001#32 9#32 = some 0x1001#32 := by decide +kernel
  have hallowed : Allowed (fun s r => s.serve r)
      (fun s r => s.Proper shortEnv {0x500#32} r) shortFiles shortRequests :=
    ⟨⟨⟨[0x1002#32, 0x1001#32, 0x1000#32], by decide +kernel⟩, by decide, by decide +kernel,
        by decide, by decide⟩,
      Option.ne_none_iff_exists'.mpr ⟨⟨0x500#32, 0#32⟩, by decide +kernel⟩,
      ⟨by decide, by decide, hdata, by decide, ⟨0x500#32, 1#32⟩, by decide +kernel, rfl,
        by decide +kernel, by decide +kernel⟩,
      Option.ne_none_iff_exists'.mpr ⟨⟨0x500#32, 2#32⟩, by decide +kernel⟩,
      ⟨by decide, by decide, hpath, by decide, ⟨0x500#32, 0#32⟩, by decide +kernel, rfl,
        by decide +kernel, by decide +kernel⟩,
      ⟨⟨[0x1001#32, 0x1000#32], by decide +kernel⟩, by decide, by decide +kernel, by decide,
        by decide⟩,
      trivial⟩
  have hrun := calls_serve_files shortEnv {0x500#32} (Nat.le_refl _) shortSystem shortFiles
    shortFiles_shown shortRequests hallowed
  rw [hrun.1]
  decide +kernel

end Muse.Syscall
