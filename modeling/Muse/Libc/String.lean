import Muse.Library.CString

/-!
# String functions

The functions of `libc/lib/string.c`. A `size_t`, an `int` and a pointer have 32 bits, and a null
pointer is 0. Each call changes a memory and is recorded with the addresses that it reads; a loop
that may run for ever takes the number of its rounds as `fuel`.
-/

namespace Muse.Libc

open Library

/-- The loops of `memcpy` (`string.c:4-6`) and `memmove` (`string.c:14-16`): round `i` copies the
    byte at `src i` to `dst i`. -/
def copyLoop (dst src : BitVec 32 → BitVec 32) (n : BitVec 32) :
    Nat → BitVec 32 → Access → Option Access
  | 0, _, _ => none
  | fuel + 1, i, a =>
      if i < n then copyLoop dst src n fuel (i + 1#32) (a.copy (dst i) (src i)) else some a

/-- `memcpy` (`string.c:3-8`). -/
def memcpy (s1 s2 n : BitVec 32) (fuel : Nat) (a : Access) : Option (BitVec 32 × Access) := do
  let a ← copyLoop (fun i => s1 + i) (fun i => s2 + i) n fuel 0#32 a
  some (s1, a)

/-- `memmove` (`string.c:10-18`). -/
def memmove (s1 s2 n : BitVec 32) (fuel : Nat) (a : Access) : Option (BitVec 32 × Access) :=
  if s1 ≤ s2 then memcpy s1 s2 n fuel a
  else do
    let a ← copyLoop (fun i => s1 + (n - i)) (fun i => s2 + (n - i)) n fuel 0#32 a
    some (s1, a)

/-- The loop of `strcpy` (`string.c:21-26`). The byte of `s2` is read again after the store. -/
def strcpyLoop (s1 s2 : BitVec 32) : Nat → BitVec 32 → Access → Option Access
  | 0, _, _ => none
  | fuel + 1, i, a =>
      let a := (a.copy (s1 + i) (s2 + i)).read (s2 + i)
      if a.mem (s2 + i) = 0#8 then some a else strcpyLoop s1 s2 fuel (i + 1#32) a

/-- `strcpy` (`string.c:20-28`). -/
def strcpy (s1 s2 : BitVec 32) (fuel : Nat) (a : Access) : Option (BitVec 32 × Access) := do
  let a ← strcpyLoop s1 s2 fuel 0#32 a
  some (s1, a)

/-- The first loop of `strncpy` (`string.c:32-34`). -/
def strncpyLoop (s1 s2 n : BitVec 32) : Nat → BitVec 32 → Access → Option (BitVec 32 × Access)
  | 0, _, _ => none
  | fuel + 1, i, a =>
      if i < n then
        let a := a.read (s2 + i)
        if a.mem (s2 + i) ≠ 0#8 then
          strncpyLoop s1 s2 n fuel (i + 1#32) (a.copy (s1 + i) (s2 + i))
        else some (i, a)
      else some (i, a)

/-- The second loop of `strncpy` (`string.c:35-37`). -/
def strncpyPad (s1 n : BitVec 32) : Nat → BitVec 32 → Access → Option Access
  | 0, _, _ => none
  | fuel + 1, i, a =>
      if i < n then strncpyPad s1 n fuel (i + 1#32) (a.write (s1 + i) 0#8) else some a

/-- `strncpy` (`string.c:30-39`). -/
def strncpy (s1 s2 n : BitVec 32) (fuel : Nat) (a : Access) : Option (BitVec 32 × Access) := do
  let (i, a) ← strncpyLoop s1 s2 n fuel 0#32 a
  let a ← strncpyPad s1 n fuel i a
  some (s1, a)

/-- The loop of `strlen` (`string.c:196-198`) and the first ones of `strcat` and `strncat`
    (`string.c:43-45`, `string.c:57-59`), which find the terminator. -/
def terminatorLoop (s : BitVec 32) : Nat → BitVec 32 → Access → Option (BitVec 32 × Access)
  | 0, _, _ => none
  | fuel + 1, len, a =>
      let a := a.read (s + len)
      if a.mem (s + len) ≠ 0#8 then terminatorLoop s fuel (len + 1#32) a else some (len, a)

/-- The second loop of `strcat` (`string.c:47-50`). -/
def strcatLoop (s1 s2 nullIdx : BitVec 32) :
    Nat → BitVec 32 → Access → Option (BitVec 32 × Access)
  | 0, _, _ => none
  | fuel + 1, i, a =>
      let a := a.read (s2 + i)
      if a.mem (s2 + i) ≠ 0#8 then
        strcatLoop s1 s2 nullIdx fuel (i + 1#32) (a.copy (s1 + (nullIdx + i)) (s2 + i))
      else some (i, a)

/-- `strcat` (`string.c:41-53`). -/
def strcat (s1 s2 : BitVec 32) (fuel : Nat) (a : Access) : Option (BitVec 32 × Access) := do
  let (nullIdx, a) ← terminatorLoop s1 fuel 0#32 a
  let (i, a) ← strcatLoop s1 s2 nullIdx fuel 0#32 a
  some (s1, a.write (s1 + (nullIdx + i)) 0#8)

/-- The second loop of `strncat` (`string.c:61-67`). -/
def strncatLoop (s1 s2 n nullIdx : BitVec 32) :
    Nat → BitVec 32 → Access → Option (BitVec 32 × Access)
  | 0, _, _ => none
  | fuel + 1, i, a =>
      if i < n then
        let a := a.read (s2 + i)
        if a.mem (s2 + i) = 0#8 then some (i + 1#32, a)
        else strncatLoop s1 s2 n nullIdx fuel (i + 1#32) (a.copy (s1 + (nullIdx + i)) (s2 + i))
      else some (i, a)

/-- `strncat` (`string.c:55-70`). -/
def strncat (s1 s2 n : BitVec 32) (fuel : Nat) (a : Access) : Option (BitVec 32 × Access) := do
  let (nullIdx, a) ← terminatorLoop s1 fuel 0#32 a
  let (i, a) ← strncatLoop s1 s2 n nullIdx fuel 0#32 a
  some (s1, a.write (s1 + (nullIdx + i)) 0#8)

/-- The difference of two bytes as an `int`. -/
def byteDiff (c1 c2 : BitVec 8) : BitVec 32 :=
  c1.setWidth 32 - c2.setWidth 32

/-- The loop of `memcmp` (`string.c:73-80`), with the value that is returned. -/
def memcmpLoop (s1 s2 n : BitVec 32) : Nat → BitVec 32 → Access → Option (BitVec 32 × Access)
  | 0, _, _ => none
  | fuel + 1, i, a =>
      if i < n then
        let a := (a.read (s1 + i)).read (s2 + i)
        if a.mem (s1 + i) ≠ a.mem (s2 + i) then
          some (byteDiff (a.mem (s1 + i)) (a.mem (s2 + i)), a)
        else memcmpLoop s1 s2 n fuel (i + 1#32) a
      else some (0#32, a)

/-- `memcmp` (`string.c:72-81`). -/
def memcmp (s1 s2 n : BitVec 32) (fuel : Nat) (a : Access) : Option (BitVec 32 × Access) :=
  memcmpLoop s1 s2 n fuel 0#32 a

/-- The loop of `strcmp` (`string.c:85-90`), with the value that is returned. The loop does not
    change `i`. -/
def strcmpLoop (s1 s2 : BitVec 32) : Nat → BitVec 32 → Access → Option (BitVec 32 × Access)
  | 0, _, _ => none
  | fuel + 1, i, a =>
      let a := (a.read (s1 + i)).read (s2 + i)
      if a.mem (s1 + i) = a.mem (s2 + i) then
        let a := a.read (s1 + i)
        if a.mem (s1 + i) = 0#8 then some (0#32, a) else strcmpLoop s1 s2 fuel i a
      else
        let a := (a.read (s1 + i)).read (s2 + i)
        some (byteDiff (a.mem (s1 + i)) (a.mem (s2 + i)), a)

/-- `strcmp` (`string.c:83-91`). -/
def strcmp (s1 s2 : BitVec 32) (fuel : Nat) (a : Access) : Option (BitVec 32 × Access) :=
  strcmpLoop s1 s2 fuel 0#32 a

/-- The loop of `strncmp` (`string.c:96-105`), with the value that is returned. -/
def strncmpLoop (s1 s2 n : BitVec 32) : Nat → BitVec 32 → Access → Option (BitVec 32 × Access)
  | 0, _, _ => none
  | fuel + 1, i, a =>
      if i < n then
        let a := (a.read (s1 + i)).read (s2 + i)
        if a.mem (s1 + i) ≠ a.mem (s2 + i) then
          some (byteDiff (a.mem (s1 + i)) (a.mem (s2 + i)), a)
        else if a.mem (s1 + i) = 0#8 then some (0#32, a)
        else strncmpLoop s1 s2 n fuel (i + 1#32) a
      else some (0#32, a)

/-- `strncmp` (`string.c:95-107`). -/
def strncmp (s1 s2 n : BitVec 32) (fuel : Nat) (a : Access) : Option (BitVec 32 × Access) :=
  strncmpLoop s1 s2 n fuel 0#32 a

/-- The loop of `memchr` (`string.c:112-117`), with the value that is returned. An `unsigned char`
    is compared with an `int`. -/
def memchrLoop (s c n : BitVec 32) : Nat → BitVec 32 → Access → Option (BitVec 32 × Access)
  | 0, _, _ => none
  | fuel + 1, i, a =>
      if i < n then
        let a := a.read (s + i)
        if (a.mem (s + i)).setWidth 32 = c then some (s + i, a)
        else memchrLoop s c n fuel (i + 1#32) a
      else some (0#32, a)

/-- `memchr` (`string.c:111-118`). -/
def memchr (s c n : BitVec 32) (fuel : Nat) (a : Access) : Option (BitVec 32 × Access) :=
  memchrLoop s c n fuel 0#32 a

/-- The loop of `strchr` (`string.c:121-130`), with the value that is returned. A `char` is signed
    and compared with an `int`. -/
def strchrLoop (c : BitVec 32) : Nat → BitVec 32 → Access → Option (BitVec 32 × Access)
  | 0, _, _ => none
  | fuel + 1, s, a =>
      let a := a.read s
      if a.mem s ≠ 0#8 then
        let a := a.read s
        if (a.mem s).signExtend 32 = c then some (s, a) else strchrLoop c fuel (s + 1#32) a
      else if c = 0#32 then some (s, a)
      else some (0#32, a)

/-- `strchr` (`string.c:120-131`). -/
def strchr (s c : BitVec 32) (fuel : Nat) (a : Access) : Option (BitVec 32 × Access) :=
  strchrLoop c fuel s a

/-- The inner loop of `strcspn` (`string.c:137-142`), `strpbrk` (`string.c:151-156`) and `strspn`
    (`string.c:178-184`): whether the character at `p` is one of those at `s2`. An index has 32
    bits, so a loop that goes on after `2 ^ 32` rounds does not end. -/
def charScan (p s2 : BitVec 32) : Nat → BitVec 32 → Access → Option (Bool × Access)
  | 0, _, _ => none
  | fuel + 1, j, a =>
      let a := a.read (s2 + j)
      if a.mem (s2 + j) ≠ 0#8 then
        let a := (a.read p).read (s2 + j)
        if a.mem p = a.mem (s2 + j) then some (true, a) else charScan p s2 fuel (j + 1#32) a
      else some (false, a)

/-- The outer loop of `strcspn` (`string.c:135-144`). -/
def strcspnLoop (s1 s2 : BitVec 32) : Nat → BitVec 32 → Access → Option (BitVec 32 × Access)
  | 0, _, _ => none
  | fuel + 1, i, a =>
      let a := a.read (s1 + i)
      if a.mem (s1 + i) ≠ 0#8 then do
        let (found, a) ← charScan (s1 + i) s2 (2 ^ 32) 0#32 a
        if found then some (i, a) else strcspnLoop s1 s2 fuel (i + 1#32) a
      else some (i, a)

/-- `strcspn` (`string.c:133-146`). -/
def strcspn (s1 s2 : BitVec 32) (fuel : Nat) (a : Access) : Option (BitVec 32 × Access) :=
  strcspnLoop s1 s2 fuel 0#32 a

/-- The outer loop of `strpbrk` (`string.c:149-158`), with the value that is returned. -/
def strpbrkLoop (s2 : BitVec 32) : Nat → BitVec 32 → Access → Option (BitVec 32 × Access)
  | 0, _, _ => none
  | fuel + 1, s1, a =>
      let a := a.read s1
      if a.mem s1 ≠ 0#8 then do
        let (found, a) ← charScan s1 s2 (2 ^ 32) 0#32 a
        if found then some (s1, a) else strpbrkLoop s2 fuel (s1 + 1#32) a
      else some (0#32, a)

/-- `strpbrk` (`string.c:148-160`). -/
def strpbrk (s1 s2 : BitVec 32) (fuel : Nat) (a : Access) : Option (BitVec 32 × Access) :=
  strpbrkLoop s2 fuel s1 a

/-- The loop of `strrchr` (`string.c:164-169`). -/
def strrchrLoop (c : BitVec 32) :
    Nat → BitVec 32 → BitVec 32 → Access → Option (BitVec 32 × Access)
  | 0, _, _, _ => none
  | fuel + 1, s, res, a =>
      let a := a.read s
      if a.mem s ≠ 0#8 then
        let a := a.read s
        strrchrLoop c fuel (s + 1#32) (if (a.mem s).signExtend 32 = c then s else res) a
      else some (res, a)

/-- `strrchr` (`string.c:162-171`). -/
def strrchr (s c : BitVec 32) (fuel : Nat) (a : Access) : Option (BitVec 32 × Access) :=
  strrchrLoop c fuel s 0#32 a

/-- The outer loop of `strspn` (`string.c:176-190`). Its condition reads the first character each
    time. -/
def strspnLoop (s1 s2 : BitVec 32) : Nat → BitVec 32 → Access → Option (BitVec 32 × Access)
  | 0, _, _ => none
  | fuel + 1, i, a =>
      let a := a.read s1
      if a.mem s1 ≠ 0#8 then do
        let (good, a) ← charScan (s1 + i) s2 (2 ^ 32) 0#32 a
        if good then strspnLoop s1 s2 fuel (i + 1#32) a else some (i, a)
      else some (i, a)

/-- `strspn` (`string.c:173-192`). -/
def strspn (s1 s2 : BitVec 32) (fuel : Nat) (a : Access) : Option (BitVec 32 × Access) :=
  strspnLoop s1 s2 fuel 0#32 a

/-- `strlen` (`string.c:194-200`). -/
def strlen (s : BitVec 32) (fuel : Nat) (a : Access) : Option (BitVec 32 × Access) :=
  terminatorLoop s fuel 0#32 a

end Muse.Libc
