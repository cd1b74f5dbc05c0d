import Mathlib.Data.List.FinRange
import Mathlib.Logic.Function.Basic
import Muse.Ext2.Device
import Muse.Paging.Userspace

/-!
# File descriptors

The system calls on files of `src/kernel/syscall.c` and the part of `create_context`
(`src/common/context.c`) that fills the file table. The table of a context has `FOPEN_MAX` slots; a
slot whose mode is 0 is closed.

The handlers take a descriptor as it comes from the user program. An access to an element beyond the
table has no value here, as it goes to whatever the memory holds there; `Outcome` keeps
which elements were accessed and which inodes were used. The drivers behind `inode->transfer`
and `inode->truncate` are parameters.
-/

namespace Muse.Syscall

open Muse.Ext2 Muse.Paging

/-- A `struct vfs_inode *`. -/
abbrev InodePtr := BitVec 32

/-- A `struct context *`. -/
abbrev CtxPtr := BitVec 32

/-- The fields of `struct vfs_inode` that the system calls use, except its functions. -/
structure Inode where
  present : Bool
  refs : BitVec 32
  size : BitVec 32
  backendData : BitVec 32
  deriving DecidableEq

/-- `struct file`. -/
structure File where
  inode : InodePtr
  pos : BitVec 32
  mode : BitVec 8
  deriving DecidableEq

/-- `FOPEN_MAX`. -/
abbrev fopenMax : Nat := 16

/-- `MODE_READ`. -/
def modeRead : BitVec 8 := 1#8

/-- `MODE_WRITE`. -/
def modeWrite : BitVec 8 := 2#8

/-- `MODE_APPEND`. -/
def modeAppend : BitVec 8 := 4#8

/-- `MODE_TRUNCATE`. -/
def modeTruncate : BitVec 8 := 8#8

/-- What the system calls need of the drivers. A transfer returns how many bytes it moved, a
    truncation leaves the inode with a new size; either may not return. -/
structure Drivers where
  transfer : InodePtr → (pos size data : BitVec 32) → DataDir → Option (BitVec 32)
  truncate : InodePtr → Option (BitVec 32)

/-- The active context, the file tables, the inodes, and what was passed to `kfree`. -/
structure Kernel where
  activeCtx : CtxPtr
  files : CtxPtr → Fin fopenMax → File
  inodes : InodePtr → Inode
  freed : List (BitVec 32)

/-- What a call did: the indices at which it accessed the table, the slots whose inode it used, and
    its value with the state behind it, if it returned. -/
structure Outcome where
  indices : List Int
  uses : List (Fin fopenMax)
  final : Option (BitVec 32 × Kernel)

/-- The slot with a given index. -/
def slot? (fd : BitVec 32) : Option (Fin fopenMax) :=
  if h : fd.toInt.toNat < fopenMax ∧ 0 ≤ fd.toInt then some ⟨fd.toInt.toNat, h.1⟩ else none

/-- An access to `files[fd]`, and what the call does with the slot. -/
def Outcome.access (fd : BitVec 32) (k : Fin fopenMax → Outcome) : Outcome :=
  match slot? fd with
  | none => ⟨[fd.toInt], [], none⟩
  | some i => { k i with indices := fd.toInt :: (k i).indices }

namespace Kernel

/-- Slot `i` of the active context. -/
def file (s : Kernel) (i : Fin fopenMax) : File := s.files s.activeCtx i

def setFile (s : Kernel) (i : Fin fopenMax) (f : File) : Kernel :=
  { s with
    files := Function.update s.files s.activeCtx (Function.update (s.files s.activeCtx) i f) }

def setInode (s : Kernel) (inode : InodePtr) (x : Inode) : Kernel :=
  { s with inodes := Function.update s.inodes inode x }

/-- The call that changed nothing and returns -1. -/
def refuse (s : Kernel) : Outcome := ⟨[], [], some (-1#32, s)⟩

/-- `syscall_transfer` (`syscall.c:98-122`). The sign of the first argument is the direction;
    `-fd` wraps. -/
def syscallTransfer (drivers : Drivers) (vm : Vm) (s : Kernel) (arg size data : BitVec 32) :
    Outcome :=
  let dir := if arg.slt 0#32 then .write else .read
  let fd := if arg.slt 0#32 then -arg else arg
  if (16#32).sle fd then s.refuse
  else match vm.cleanData data size with
    | none => ⟨[], [], none⟩
    | some data =>
        if data = 0#32 then s.refuse
        else .access fd fun i =>
          let f := s.file i
          ⟨[], [i], (drivers.transfer f.inode f.pos size data dir).map fun bytesTransferred =>
            (bytesTransferred, s.setFile i { f with pos := f.pos + bytesTransferred })⟩

/-- The position that `syscall_seek` sets (`syscall.c:132-145`). -/
def seekPos (s : Kernel) (i : Fin fopenMax) (offset whence : BitVec 32) : BitVec 32 :=
  if whence = 0#32 then offset
  else if whence = 1#32 then (s.file i).pos + offset
  else if whence = 2#32 then (s.inodes (s.file i).inode).size - 1#32 + offset
  else (s.file i).pos

/-- `syscall_seek` (`syscall.c:128-147`). -/
def syscallSeek (s : Kernel) (fd offset whence : BitVec 32) : Outcome :=
  .access fd fun i =>
    let pos := s.seekPos i offset whence
    ⟨[], if whence = 2#32 then [i] else [], some (pos, s.setFile i { s.file i with pos })⟩

/-- The reference that `syscall_close` drops (`syscall.c:154-158`). -/
def dropRef (s : Kernel) (inode : InodePtr) : Kernel :=
  let x := s.inodes inode
  let refs := x.refs - 1#32
  if refs = 0#32 then
    { s.setInode inode { x with refs, present := false } with freed := x.backendData :: s.freed }
  else s.setInode inode { x with refs }

/-- `syscall_close` (`syscall.c:149-161`). -/
def syscallClose (s : Kernel) (fd : BitVec 32) : Outcome :=
  .access fd fun i =>
    let inode := (s.file i).inode
    ⟨[], [i], some (0#32, (s.dropRef inode).setFile i ⟨0#32, 0#32, 0#8⟩)⟩

/-- The first closed slot (`syscall.c:74-75`). -/
def freeSlot (s : Kernel) : Option (Fin fopenMax) :=
  (List.finRange fopenMax).find? fun i => (s.file i).mode = 0#8

/-- `syscall_open` (`syscall.c:57-92`) from the call of `vfs_open` on. `inode` is what that
    returned; a string that `clean_string` refuses ends like a path without an inode. -/
def syscallOpen (drivers : Drivers) (s : Kernel) (inode : InodePtr) (arg : BitVec 32) :
    Option (BitVec 32 × Kernel) :=
  let mode := arg.setWidth 8
  if inode = 0#32 then some (-1#32, s)
  else
    let s := s.setInode inode { s.inodes inode with refs := (s.inodes inode).refs + 1#32 }
    match s.freeSlot with
    | none => some (-1#32, s)
    | some i => do
        let pos := if mode &&& modeAppend ≠ 0#8 then (s.inodes inode).size else 0#32
        let s := s.setFile i ⟨inode, pos, mode⟩
        let s ← if mode &&& modeTruncate ≠ 0#8 then
            (drivers.truncate inode).map fun size =>
              s.setInode inode { s.inodes inode with size }
          else some s
        some (BitVec.ofNat 32 i, s)

/-- The file table that `create_context` fills (`context.c:34-48`); `memory` is what the new block
    holds. -/
def createFiles (memory : Fin fopenMax → File) (stdin stdout stderr : InodePtr) :
    Fin fopenMax → File :=
  let files i : File := { memory i with mode := 0#8 }
  let files := Function.update files 0 ⟨stdin, 0#32, modeRead⟩
  let files := Function.update files 1 ⟨stdout, 0#32, modeWrite⟩
  Function.update files 2 ⟨stderr, 0#32, modeWrite⟩

end Kernel

end Muse.Syscall
