import Muse.Ext2.Volume
import Muse.Library.CString
import Muse.Library.Replies
import Muse.Syscall.Files
import Muse.Vfs.Lookup

/-!
# System calls on files

`handle_syscall` of `src/kernel/syscall.c`, where the files are on an ext2 volume: the handlers for
a transfer, a seek, an open and a close work on the file table of the active context, on the payload
of the inode and on the memory of the caller. The caller is the active context, and the gate of the
system call keeps the timer away.

What the calls are for is `OpenFiles`: a path is the name of a file, a file is an array of bytes,
and a descriptor a place in one. The handlers for `exit` and `sbrk` are not among these. `truncate`,
which `ext2_register_inode` does not set, has no result, nor has an `open` that registers a node.
-/

namespace Muse.Syscall

open Muse.Ext2 Muse.Library Muse.Paging

/-- The entries of `syscalls` (`syscall.c:163-170`). -/
inductive Handler where
  | exit
  | sbrk
  | «open»
  | transfer
  | seek
  | close
  deriving DecidableEq

/-- `syscalls`, as `init_syscalls` leaves it. -/
def syscalls (fn : BitVec 32) : Option Handler :=
  match fn.toNat with
  | 0 => some .exit
  | 1 => some .sbrk
  | 2 => some .open
  | 3 => some .transfer
  | 4 => some .seek
  | 5 => some .close
  | _ => none

/-- The kernel, the volume that the files are on, and the memory of the contexts. -/
structure FileSystem where
  kernel : Kernel
  volume : Volume InodePtr
  user : CtxPtr → Bytes

/-- What does not change: the bound on the rounds of a transfer, the pages of the contexts, the
    mount points, and where the inodes of their nodes are. -/
structure ServiceEnv where
  rounds : Nat
  vm : CtxPtr → Vm
  mounts : List Vfs.MountPoint
  addr : Vfs.InodePtr → InodePtr

/-- The characters from a pointer on. -/
def charsAt (memory : Bytes) (path : BitVec 32) : List (BitVec 8) :=
  bytesAt (fun a => memory a.toNat) path (2 ^ 32 - path.toNat)

/-- What `vfs_open` finds, or `none` for a null pointer. There is no value if it registers a
    node. -/
def ServiceEnv.resolve (env : ServiceEnv) (path : List (BitVec 8)) : Option (Option InodePtr) := do
  let r ← Vfs.lookup env.mounts path
  if r.registered = [] then some (r.found.map env.addr) else none

namespace FileSystem

variable (env : ServiceEnv) (s : FileSystem)

/-- The bytes of the caller from an address on. -/
def buffer (data : BitVec 32) : Bytes := fun k => s.user s.kernel.activeCtx (data.toNat + k)

/-- The memory of the caller with other bytes there. -/
def setBuffer (data : BitVec 32) (out : Bytes) : CtxPtr → Bytes :=
  Function.update s.user s.kernel.activeCtx fun a =>
    if data.toNat ≤ a then out (a - data.toNat) else s.user s.kernel.activeCtx a

/-- `inode->transfer` and `inode->truncate`, as far as the kernel sees what they do. -/
def drivers : Drivers where
  transfer inode pos size data dir :=
    (s.volume.transfer env.rounds inode pos size (s.buffer data) dir).map fun r => r.1
  truncate _ := none

/-- `syscall_transfer` (`syscall.c:98-122`). -/
def syscallTransfer (arg size data : BitVec 32) : Option (BitVec 32 × FileSystem) :=
  let dir := if arg.slt 0#32 then .write else .read
  let fd := if arg.slt 0#32 then -arg else arg
  if (16#32).sle fd then some (-1#32, s)
  else do
    let data ← (env.vm s.kernel.activeCtx).cleanData data size
    if data = 0#32 then some (-1#32, s)
    else do
      let i ← slot? fd
      let f := s.kernel.file i
      let (moved, out, volume) ←
        s.volume.transfer env.rounds f.inode f.pos size (s.buffer data) dir
      some (moved, ⟨s.kernel.setFile i { f with pos := f.pos + moved }, volume,
        s.setBuffer data out⟩)

/-- A handler that leaves the volume and the memory as they are. -/
def withKernel (r : Option (BitVec 32 × Kernel)) : Option (BitVec 32 × FileSystem) :=
  r.map fun (v, kernel) => (v, { s with kernel })

/-- `syscall_open` (`syscall.c:57-92`). -/
def syscallOpen (path mode : BitVec 32) : Option (BitVec 32 × FileSystem) := do
  let memory := s.user s.kernel.activeCtx
  let (path, _) ← cleanString (env.vm s.kernel.activeCtx).checkUser (fun a => memory a.toNat) path
  if path = 0#32 then some (-1#32, s)
  else do
    let inode ← env.resolve (charsAt memory path)
    s.withKernel (s.kernel.syscallOpen (s.drivers env) (inode.getD 0#32) mode)

/-- `handle_syscall` (`syscall.c:14-22`) for the words that the caller left in its registers. There
    is no value if no handler runs. -/
def handleSyscall (fn a b c : BitVec 32) : Option (Option (BitVec 32) × FileSystem) :=
  if 15#32 < fn then some (none, s)
  else
    match syscalls fn with
    | none => some (none, s)
    | some handler =>
        let r := match handler with
          | .exit => none
          | .sbrk => none
          | .open => s.syscallOpen env a b
          | .transfer => s.syscallTransfer env a b c
          | .seek => s.withKernel (s.kernel.syscallSeek a b c).final
          | .close => s.withKernel (s.kernel.syscallClose a).final
        r.map fun (v, s) => (some v, s)

end FileSystem

/-! ## What the calls are for -/

/-- A place in a file. -/
structure Descriptor where
  inode : InodePtr
  pos : BitVec 32
  deriving DecidableEq

/-- The names of the files, the files, the descriptors of the contexts, how many descriptors a file
    has, and the memory of the contexts. -/
structure OpenFiles where
  names : Vfs.CString → Option InodePtr
  size : InodePtr → Nat
  contents : InodePtr → Bytes
  table : CtxPtr → Fin fopenMax → Option Descriptor
  refs : InodePtr → BitVec 32
  user : CtxPtr → Bytes

/-- What a program asks for. -/
inductive Request where
  | «open» (path mode : BitVec 32)
  | transfer (dir : DataDir) (i : Fin fopenMax) (size data : BitVec 32)
  | seek (i : Fin fopenMax) (offset whence : BitVec 32)
  | close (i : Fin fopenMax)

/-- The sign of the descriptor of a transfer is the direction (`syscall.c:94-97`). -/
def signedFd (i : Fin fopenMax) : DataDir → BitVec 32
  | .read => BitVec.ofNat 32 i
  | .write => -BitVec.ofNat 32 i

/-- The registers of a request: `eax`, `ebx`, `ecx` and `edx`. -/
def Request.registers : Request → BitVec 32 × BitVec 32 × BitVec 32 × BitVec 32
  | .open path mode => (2#32, path, mode, 0#32)
  | .transfer dir i size data => (3#32, signedFd i dir, size, data)
  | .seek i offset whence => (4#32, BitVec.ofNat 32 i, offset, whence)
  | .close i => (5#32, BitVec.ofNat 32 i, 0#32, 0#32)

namespace OpenFiles

variable (s : OpenFiles)

def setDescriptor (ctx : CtxPtr) (i : Fin fopenMax) (d : Option Descriptor) : OpenFiles :=
  { s with table := Function.update s.table ctx (Function.update (s.table ctx) i d) }

/-- The first descriptor of a context that is not in use. -/
def free (ctx : CtxPtr) : Option (Fin fopenMax) :=
  (List.finRange fopenMax).find? fun i => (s.table ctx i).isNone

/-- The place that a program seeks. -/
def place (d : Descriptor) (offset whence : BitVec 32) : BitVec 32 :=
  if whence = 0#32 then offset
  else if whence = 1#32 then d.pos + offset
  else if whence = 2#32 then BitVec.ofNat 32 (s.size d.inode) - 1#32 + offset
  else d.pos

/-- The bytes that a transfer moves: those up to the end of the file. -/
def moves (d : Descriptor) (size : BitVec 32) : Nat :=
  min size.toNat (s.size d.inode - d.pos.toNat)

/-- The path that a program names: the string in its memory. -/
def path (ctx : CtxPtr) (p : BitVec 32) : Vfs.CString :=
  Vfs.CString.ofBytes (charsAt (s.user ctx) p)

/-- The reply to a request. -/
def serve (r : CtxPtr × Request) : Option (BitVec 32) × OpenFiles :=
  match r with
  | (ctx, .open path mode) =>
      match s.names (s.path ctx path) with
      | none => (some (-1#32), s)
      | some inode =>
        let refs := Function.update s.refs inode (s.refs inode + 1#32)
        match s.free ctx with
        | none => (some (-1#32), { s with refs })
        | some i =>
            let pos := if mode.setWidth 8 &&& modeAppend ≠ 0#8 then BitVec.ofNat 32 (s.size inode)
              else 0#32
            (some (BitVec.ofNat 32 i), { s with refs }.setDescriptor ctx i (some ⟨inode, pos⟩))
  | (ctx, .transfer dir i size data) =>
      match s.table ctx i with
      | none => (none, s)
      | some d =>
          let m := s.moves d size
          let bytes : Bytes := fun k => s.user ctx (data.toNat + k)
          let contents := Volume.moved d.inode d.pos m bytes dir s.contents
          let out := Volume.received (s.contents d.inode) d.pos m bytes dir
          let user := Function.update s.user ctx fun a =>
            if data.toNat ≤ a then out (a - data.toNat) else s.user ctx a
          (some (BitVec.ofNat 32 m), { s with contents, user }.setDescriptor ctx i
            (some ⟨d.inode, d.pos + BitVec.ofNat 32 m⟩))
  | (ctx, .seek i offset whence) =>
      match s.table ctx i with
      | none => (none, s)
      | some d =>
          (some (s.place d offset whence),
            s.setDescriptor ctx i (some ⟨d.inode, s.place d offset whence⟩))
  | (ctx, .close i) =>
      match s.table ctx i with
      | none => (none, s)
      | some d =>
          let refs := Function.update s.refs d.inode (s.refs d.inode - 1#32)
          (some 0#32, { s with refs }.setDescriptor ctx i none)

/-- The requests that are answered in this way. The path of an open is one that `clean_string` takes
    and that leads through registered nodes only. A transfer is on a descriptor of one of the files,
    starts below the end of the file and has a buffer that `clean_data` takes; a write cannot name
    the descriptor 0. A close leaves another descriptor of the file. -/
def Proper (env : ServiceEnv) (files : Set InodePtr) (r : CtxPtr × Request) : Prop :=
  match r with
  | (ctx, .open path mode) =>
      (∃ reads, cleanString (env.vm ctx).checkUser (fun a => s.user ctx a.toNat) path =
          some (path, reads)) ∧
        path ≠ 0#32 ∧ env.resolve (s.path ctx path).pointer ≠ none ∧
        mode.setWidth 8 ≠ 0#8 ∧ mode.setWidth 8 &&& modeTruncate = 0#8
  | (ctx, .transfer dir i size data) =>
      (dir = .write → 0 < (i : Nat)) ∧ data ≠ 0#32 ∧ (env.vm ctx).cleanData data size = some data ∧
        0 < size.toNat ∧ ∃ d, s.table ctx i = some d ∧ d.inode ∈ files ∧
          d.pos.toNat < s.size d.inode ∧ d.pos.toNat + size.toNat < 2 ^ 32
  | (ctx, .seek i _ _) => s.table ctx i ≠ none
  | (ctx, .close i) => ∃ d, s.table ctx i = some d ∧ s.refs d.inode ≠ 1#32

end OpenFiles

namespace FileSystem

/-- A context makes a request. There is no reply if the processor faults. -/
def serve (env : ServiceEnv) (s : FileSystem) (r : CtxPtr × Request) :
    Option (BitVec 32) × FileSystem :=
  let (fn, a, b, c) := r.2.registers
  ({ s with kernel := { s.kernel with activeCtx := r.1 } }.handleSyscall env fn a b c).getD
    (none, s)

end FileSystem

/-- The descriptor in a slot of the table. -/
def File.descriptor (f : File) : Option Descriptor :=
  if f.mode = 0#8 then none else some ⟨f.inode, f.pos⟩

/-- The mount points, the kernel and the volume have these files and descriptors. -/
structure Shown (env : ServiceEnv) (files : Set InodePtr) (fs : FileSystem) (s : OpenFiles) :
    Prop where
  names : ∀ path inode, env.resolve path.pointer = some inode → s.names path = inode
  nonnull : ∀ path, s.names path ≠ some 0#32
  sound : fs.volume.Sound files
  contents : ∀ p ∈ files, ∀ k < fs.volume.size p, fs.volume.byte p k = s.contents p k
  volume : ∀ p ∈ files, fs.volume.size p = s.size p
  size : ∀ p, (fs.kernel.inodes p).size.toNat = s.size p
  refs : ∀ p, (fs.kernel.inodes p).refs = s.refs p
  table : ∀ ctx i, (fs.kernel.files ctx i).descriptor = s.table ctx i
  user : fs.user = s.user

end Muse.Syscall
