import Muse.Library.Bytes
import Muse.Paging.TaskDirectory

/-!
# Loading ELF programs

`parse_elf` and `load_elf_data` of `src/common/elf.c`. Both walk over the program headers, the first
one to allocate the pages of a program as a list of scrolls, the second one to fill them: it does
not look at the addresses of the scrolls and takes one after another.

All addresses, sizes and offsets are 32-bit words that wrap. `contents` are the bytes from the
buffer of the file on, also behind its end.
-/

namespace Muse.Elf

open Muse.Library Muse.Paging

/-- `PT_LOAD`. -/
def ptLoad : BitVec 32 := 1#32

/-- The fields of `struct elf_header` (`include/muse/elf.h`) that are used. -/
structure ElfHeader where
  entryPoint : BitVec 32
  programTableOffset : BitVec 32
  programTableEntrySize : BitVec 16
  programTableLength : BitVec 16
  deriving DecidableEq

/-- The fields of `struct elf_program_header` that are used. -/
structure ProgramHeader where
  type : BitVec 32
  offset : BitVec 32
  vaddr : BitVec 32
  filesz : BitVec 32
  memsz : BitVec 32
  deriving DecidableEq

def elfHeaderAt (contents : Bytes) : ElfHeader where
  entryPoint := contents.word32 24
  programTableOffset := contents.word32 28
  programTableEntrySize := contents.word16 42
  programTableLength := contents.word16 44

def programHeaderAt (contents : Bytes) (a : Nat) : ProgramHeader where
  type := contents.word32 a
  offset := contents.word32 (a + 4)
  vaddr := contents.word32 (a + 8)
  filesz := contents.word32 (a + 16)
  memsz := contents.word32 (a + 20)

namespace ProgramHeader

/-- `first_page` (`elf.c:46-47`, `87-88`). -/
def firstPage (h : ProgramHeader) : BitVec 32 := h.vaddr - h.vaddr % pageSize

/-- `vaddr_end` (`elf.c:48-49`, `89-90`). -/
def vaddrEnd (h : ProgramHeader) : BitVec 32 := h.vaddr + h.memsz

/-- `limit_page` of `parse_elf` (`elf.c:50-51`). -/
def limitPage (h : ProgramHeader) : BitVec 32 := h.vaddrEnd + pageSize - h.vaddrEnd % pageSize

/-- `page_count` of `load_elf_data` (`elf.c:91-93`). -/
def pageCount (h : ProgramHeader) : BitVec 32 := (alignPgUp h.vaddrEnd - h.firstPage) / pageSize

end ProgramHeader

/-- The offsets that the loops over the program headers visit (`elf.c:34-38`, `78-82`). -/
def headerOffsets (limit entrySize : BitVec 32) : Nat → BitVec 32 → List (BitVec 32)
  | 0, _ => []
  | n + 1, offset =>
      if offset < limit then offset :: headerOffsets limit entrySize n (offset + entrySize) else []

/-- The headers that both loops visit. The table has less than `2 ^ 16` of them. -/
def programHeaders (contents : Bytes) : List ProgramHeader :=
  let h := elfHeaderAt contents
  let entrySize := h.programTableEntrySize.setWidth 32
  let limit := h.programTableOffset + h.programTableLength.setWidth 32 * entrySize
  (headerOffsets limit entrySize (2 ^ 16) h.programTableOffset).map fun offset =>
    programHeaderAt contents offset.toNat

/-- `struct elf_info`, without its pointer to the header. -/
structure ElfInfo where
  scrolls : List Scroll
  limit : BitVec 32
  contents : Bytes

/-- The pages of the inner loop of `parse_elf` (`elf.c:52`). -/
def pagesTo (limit : BitVec 32) : Nat → BitVec 32 → List (BitVec 32)
  | 0, _ => []
  | n + 1, p => if p < limit then p :: pagesTo limit n (p + pageSize) else []

/-- A scroll behind the others (`elf.c:53-66`). `kpageAlloc k` is what call number `k` of
    `kpage_alloc` returns. -/
def ElfInfo.addScroll (kpageAlloc : Nat → BitVec 32) (info : ElfInfo) (p : BitVec 32) : ElfInfo :=
  { info with scrolls := info.scrolls ++ [⟨p, pageSize, .aligned, kpageAlloc info.scrolls.length⟩] }

/-- What `parse_elf` does for one header (`elf.c:40-70`). -/
def ElfInfo.parseHeader (kpageAlloc : Nat → BitVec 32) (info : ElfInfo) (h : ProgramHeader) :
    ElfInfo :=
  if h.type ≠ ptLoad then info
  else
    let info := (pagesTo h.limitPage (2 ^ 20) h.firstPage).foldl (addScroll kpageAlloc) info
    if info.limit < h.limitPage then { info with limit := h.limitPage } else info

/-- `struct vfs_inode` as `parse_elf` sees it: its size, the bytes that a transfer of the whole file
    leaves in the buffer and behind it, and what that transfer returns. -/
structure ElfFile where
  size : BitVec 32
  contents : Bytes
  transferred : BitVec 32

/-- `parse_elf` (`elf.c:13-73`); the file is what `vfs_open` finds. -/
def parseElf (kpageAlloc : Nat → BitVec 32) (file : Option ElfFile) : Option ElfInfo :=
  match file with
  | none => none
  | some file =>
      if file.transferred ≠ file.size then none
      else
        some ((programHeaders file.contents).foldl (ElfInfo.parseHeader kpageAlloc)
          ⟨[], 0#32, file.contents⟩)

/-! ## Filling the pages -/

/-- The page that is mapped at `data`, `data_offset` and `file_offset`. -/
structure Cursor where
  page : Nat → BitVec 8
  dataOffset : BitVec 32
  fileOffset : BitVec 32

/-- The loop that copies bytes of the file (`elf.c:98-105`). -/
def copyFile (contents : Bytes) (h : ProgramHeader) : Nat → Cursor → Cursor
  | 0, c => c
  | n + 1, c =>
      if c.fileOffset - h.offset < h.filesz ∧ c.dataOffset < pageSize then
        copyFile contents h n
          { page := Function.update c.page c.dataOffset.toNat (contents c.fileOffset.toNat)
            dataOffset := c.dataOffset + 1#32
            fileOffset := c.fileOffset + 1#32 }
      else c

/-- The loop that clears bytes (`elf.c:106-111`). -/
def clearRest (h : ProgramHeader) : Nat → Cursor → Cursor
  | 0, c => c
  | n + 1, c =>
      if c.dataOffset - h.offset < h.memsz ∧ c.dataOffset < pageSize then
        clearRest h n
          { c with
            page := Function.update c.page c.dataOffset.toNat 0#8
            dataOffset := c.dataOffset + 1#32 }
      else c

/-- The state of `load_elf_data`: the scrolls from `current_scr` on, the bytes of the physical
    pages, and which scroll was taken for which page of which header so far. -/
structure Loader where
  currentScr : List Scroll
  memory : BitVec 32 → Nat → BitVec 8
  visits : List (ProgramHeader × Nat × Scroll)

/-- The loop over the pages of a segment (`elf.c:95-114`), from page `i` on. A null `current_scr`
    has no page to map. -/
def loadPages (contents : Bytes) (h : ProgramHeader) : Nat → Nat → BitVec 32 → BitVec 32 → Loader →
    Option Loader
  | 0, _, _, _, s => some s
  | n + 1, i, dataOffset, fileOffset, s =>
      match s.currentScr with
      | [] => none
      | scr :: rest =>
          let c := copyFile contents h 4096 ⟨s.memory scr.page, dataOffset, fileOffset⟩
          let c := clearRest h 4096 c
          loadPages contents h n (i + 1) 0#32 c.fileOffset
            { currentScr := rest
              memory := Function.update s.memory scr.page c.page
              visits := s.visits ++ [(h, i, scr)] }

/-- What `load_elf_data` does for one header (`elf.c:84-114`). -/
def loadHeader (contents : Bytes) (s : Loader) (h : ProgramHeader) : Option Loader :=
  if h.type ≠ ptLoad then some s
  else loadPages contents h h.pageCount.toNat 0 (h.vaddr - h.firstPage) h.offset s

/-- `load_elf_data` (`elf.c:75-119`). -/
def loadElfData (elf : ElfInfo) (memory : BitVec 32 → Nat → BitVec 8) : Option Loader :=
  (programHeaders elf.contents).foldlM (loadHeader elf.contents) ⟨elf.scrolls, memory, []⟩

end Muse.Elf
