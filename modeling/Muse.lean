import Muse.Acpi.Proofs.Rsdp
import Muse.Acpi.Proofs.Sdt
import Muse.Acpi.Rsdp
import Muse.Acpi.Sdt
import Muse.Console.Format
import Muse.Console.Framebuffer
import Muse.Console.Keyboard
import Muse.Console.Print
import Muse.Console.Proofs.Format
import Muse.Console.Proofs.Grid
import Muse.Console.Proofs.Numeral
import Muse.Console.Proofs.Pixels
import Muse.Console.Proofs.Shift
import Muse.Drive.Ata
import Muse.Drive.Device
import Muse.Drive.Gpt
import Muse.Drive.Proofs.Device
import Muse.Drive.Proofs.Partition
import Muse.Drive.Proofs.Table
import Muse.Drive.Proofs.Volumes
import Muse.Drive.Table
import Muse.Drive.Volumes
import Muse.Elf.Load
import Muse.Elf.Proofs.HeaderWalk
import Muse.Elf.Proofs.KernelKept
import Muse.Elf.Proofs.Lockstep
import Muse.Elf.Proofs.SegmentImage
import Muse.Elf.Proofs.SharedPages
import Muse.Ext2.Bitmaps
import Muse.Ext2.Buffers
import Muse.Ext2.ChildInode
import Muse.Ext2.Device
import Muse.Ext2.Directory
import Muse.Ext2.File
import Muse.Ext2.Inode
import Muse.Ext2.Layout
import Muse.Ext2.Mount
import Muse.Ext2.Proofs.Addresses
import Muse.Ext2.Proofs.Alloc
import Muse.Ext2.Proofs.AllocRuns
import Muse.Ext2.Proofs.Blocks
import Muse.Ext2.Proofs.Buffers
import Muse.Ext2.Proofs.ChildInode
import Muse.Ext2.Proofs.Clamp
import Muse.Ext2.Proofs.Counts
import Muse.Ext2.Proofs.Directory
import Muse.Ext2.Proofs.FileArray
import Muse.Ext2.Proofs.Grow
import Muse.Ext2.Proofs.Mount
import Muse.Ext2.Proofs.ReadBack
import Muse.Ext2.Proofs.ReadOnly
import Muse.Ext2.Proofs.Registration
import Muse.Ext2.Proofs.Rounds
import Muse.Ext2.Proofs.SafeWrite
import Muse.Ext2.Proofs.Volume
import Muse.Ext2.Proofs.WriteInside
import Muse.Ext2.Registration
import Muse.Ext2.Transfer
import Muse.Ext2.Volume
import Muse.Interrupts.Controllers
import Muse.Interrupts.Idt
import Muse.Interrupts.Proofs.Routing
import Muse.Libc.Heap
import Muse.Libc.Proofs.Memmove
import Muse.Libc.Proofs.NoOverlap
import Muse.Libc.Proofs.Reuse
import Muse.Libc.Proofs.Stdio
import Muse.Libc.Proofs.StreamBounds
import Muse.Libc.Proofs.StreamCounts
import Muse.Libc.Proofs.StreamOutput
import Muse.Libc.Proofs.StringBuild
import Muse.Libc.Proofs.StringCompare
import Muse.Libc.Proofs.StringSearch
import Muse.Libc.Proofs.Tiling
import Muse.Libc.Stdio
import Muse.Libc.Stream
import Muse.Libc.String
import Muse.Library.BitArray
import Muse.Library.ByteMemory
import Muse.Library.Bytes
import Muse.Library.CString
import Muse.Library.CheckedWords
import Muse.Library.Checksum
import Muse.Library.CopyRun
import Muse.Library.Counting
import Muse.Library.Extents
import Muse.Library.Fallible
import Muse.Library.ForLoop
import Muse.Library.Fuel
import Muse.Library.LastWrite
import Muse.Library.Ledger
import Muse.Library.Links
import Muse.Library.Mmu
import Muse.Library.PagedBytes
import Muse.Library.RecordChain
import Muse.Library.Records
import Muse.Library.Replies
import Muse.Library.RoundRobin
import Muse.Library.SharedSpaces
import Muse.Library.Transition
import Muse.Library.X86
import Muse.Library.X86Interrupt
import Muse.Memory.ChunkHeap
import Muse.Memory.Dispatch
import Muse.Memory.Handover
import Muse.Memory.KernelHeap
import Muse.Memory.MemoryMap
import Muse.Memory.PageBitmap
import Muse.Memory.PageHeap
import Muse.Memory.Proofs.Allocate
import Muse.Memory.Proofs.AnySize
import Muse.Memory.Proofs.ChunkHeap
import Muse.Memory.Proofs.Dispatch
import Muse.Memory.Proofs.HandOut
import Muse.Memory.Proofs.Handover
import Muse.Memory.Proofs.LowestPage
import Muse.Memory.Proofs.MemoryMap
import Muse.Memory.Proofs.PageRuns
import Muse.Memory.Proofs.TierLists
import Muse.Paging.Contexts
import Muse.Paging.Initial
import Muse.Paging.LowerHalf
import Muse.Paging.Map
import Muse.Paging.PhysObj
import Muse.Paging.Proofs.ActiveSpace
import Muse.Paging.Proofs.AddressSpace
import Muse.Paging.Proofs.Carve
import Muse.Paging.Proofs.CleanData
import Muse.Paging.Proofs.CleanString
import Muse.Paging.Proofs.Initial
import Muse.Paging.Proofs.Isolation
import Muse.Paging.Proofs.KernelHalf
import Muse.Paging.Proofs.Loopback
import Muse.Paging.Proofs.LowerHalf
import Muse.Paging.Proofs.Manuscript
import Muse.Paging.Proofs.PhysObj
import Muse.Paging.Proofs.Sbrk
import Muse.Paging.Proofs.ScrollList
import Muse.Paging.Proofs.Stack
import Muse.Paging.Proofs.TaskDirectory
import Muse.Paging.Proofs.Temporary
import Muse.Paging.Proofs.UserHalf
import Muse.Paging.Proofs.Window
import Muse.Paging.Proofs.Within
import Muse.Paging.Sbrk
import Muse.Paging.ScrollList
import Muse.Paging.TaskDirectory
import Muse.Paging.Userspace
import Muse.Pci.Proofs.Scan
import Muse.Pci.Scan
import Muse.Scheduler.Context
import Muse.Scheduler.Irq
import Muse.Scheduler.Proofs.FirstRun
import Muse.Scheduler.Proofs.IrqNesting
import Muse.Scheduler.Proofs.Placement
import Muse.Scheduler.Proofs.Queue
import Muse.Scheduler.Proofs.Resumption
import Muse.Scheduler.Proofs.Runway
import Muse.Scheduler.Proofs.SleepTick
import Muse.Scheduler.Proofs.SleepTiming
import Muse.Scheduler.Proofs.Switch
import Muse.Scheduler.Queue
import Muse.Scheduler.Runway
import Muse.Scheduler.Switch
import Muse.Sync.Multi
import Muse.Sync.Proofs.Multi
import Muse.Sync.Proofs.Reentrant
import Muse.Sync.Reentrant
import Muse.Syscall.Entry
import Muse.Syscall.Files
import Muse.Syscall.Open
import Muse.Syscall.Proofs.Contained
import Muse.Syscall.Proofs.Descriptors
import Muse.Syscall.Proofs.Entry
import Muse.Syscall.Proofs.Open
import Muse.Syscall.Proofs.RefCounts
import Muse.Syscall.Proofs.Service
import Muse.Syscall.Proofs.Table
import Muse.Syscall.Service
import Muse.Term.LineBuffer
import Muse.Term.Proofs.LineBuffer
import Muse.Term.Proofs.Stdin
import Muse.Term.Stdin
import Muse.Trampoline.Multiboot
import Muse.Trampoline.Proofs.Multiboot
import Muse.Vfs.History
import Muse.Vfs.Lookup
import Muse.Vfs.Open
import Muse.Vfs.Proofs.History
import Muse.Vfs.Proofs.Lookup
import Muse.Vfs.Proofs.Open
import Muse.Vfs.Proofs.Registration
import Muse.Vfs.Tree
