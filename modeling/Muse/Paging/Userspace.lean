import Mathlib.Algebra.Group.Nat.Defs
import Muse.Paging.Map

/-!
# Buffers of user programs

`clean_data` and `clean_string` of `src/kernel/userspace.c` decide whether a system call may use a
buffer or a string that a user program passes. They ask `check_user` for one page after another; all
bounds are 32-bit words that wrap. For `clean_string`, `check_user` is a function that may fault,
and the addresses that it reads are collected.
-/

namespace Muse.Paging

namespace Vm

/-- The loop of `clean_data` (`userspace.c:57-62`). The pages grow by `PAGE_SIZE` below a bound
    that is page-aligned, so `2 ^ 20` rounds are enough. -/
def cleanDataLoop (s : Vm) (limit : BitVec 32) : Nat → BitVec 32 → Option Bool
  | 0, _ => none
  | fuel + 1, pg =>
      if pg < limit then do
        let ok ← s.checkUser pg
        if !ok then some false
        else s.cleanDataLoop limit fuel (pg + pageSize)
      else some true

/-- `clean_data` (`userspace.c:56-64`). -/
def cleanData (s : Vm) (data size : BitVec 32) : Option (BitVec 32) := do
  let ok ← s.cleanDataLoop (alignPgUp (data + size)) (2 ^ 20 + 1) (alignPgDown data)
  some (if ok then data else 0#32)

end Vm

/-- The inner loop of `clean_string` (`userspace.c:43-48`): whether it meets a zero byte, `str` and
    the addresses read so far. -/
def cleanStringScan (mem : BitVec 32 → BitVec 8) (bound : BitVec 32) :
    Nat → BitVec 32 → List (BitVec 32) → Option (Bool × BitVec 32 × List (BitVec 32))
  | 0, _, _ => none
  | fuel + 1, str, reads =>
      if str < bound then
        if mem str = 0#8 then some (true, str, str :: reads)
        else cleanStringScan mem bound fuel (str + 1#32) (str :: reads)
      else some (false, str, reads)

/-- The outer loop of `clean_string` (`userspace.c:42-53`). An inner loop makes at most
    `PAGE_SIZE + 1` tests. -/
def cleanStringLoop (checkUser : BitVec 32 → Option Bool) (mem : BitVec 32 → BitVec 8)
    (strA : BitVec 32) :
    Nat → BitVec 32 → BitVec 32 → List (BitVec 32) → Option (BitVec 32 × List (BitVec 32))
  | 0, _, _, _ => none
  | fuel + 1, str, page, reads => do
      let (found, str, reads) ← cleanStringScan mem (page + pageSize) (4096 + 1) str reads
      if found then some (strA, reads)
      else do
        let ok ← checkUser (page + pageSize)
        if ok then cleanStringLoop checkUser mem strA fuel str (page + pageSize) reads
        else some (0#32, reads)

/-- `clean_string` (`userspace.c:36-54`): the pointer that it returns and the addresses that it
    reads. There are `2 ^ 20` pages. -/
def cleanString (checkUser : BitVec 32 → Option Bool) (mem : BitVec 32 → BitVec 8)
    (strA : BitVec 32) : Option (BitVec 32 × List (BitVec 32)) := do
  let ok ← checkUser (alignPgDown strA)
  if ok then cleanStringLoop checkUser mem strA (2 ^ 20) strA (alignPgDown strA) []
  else some (0#32, [])

end Muse.Paging
