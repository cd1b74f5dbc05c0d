import Muse.Library.ByteMemory

/-!
# Multiboot tags

`multiboot_find_tag` of `src/trampoline/multiboot.c`, on a memory of bytes. The call is recorded
with the addresses of the tags whose header it inspects, and takes the number of its rounds as
`fuel`.
-/

namespace Muse.Trampoline

open Library

/-- `struct multiboot_tag`. -/
structure MultibootTag where
  type : BitVec 32
  size : BitVec 32
  deriving DecidableEq

/-- The tag behind `tag` (`multiboot.c:9-12`), which starts at a multiple of 8. -/
def nextTag (mem : ByteMem) (tag : BitVec 32) : BitVec 32 :=
  let tag := tag + readWord mem (tag + 4#32)
  if 0#32 < tag % 8#32 then tag + 8#32 - tag % 8#32 else tag

/-- The loop of `multiboot_find_tag` (`multiboot.c:5-13`). -/
def findTagLoop (mem : ByteMem) (multiboot type : BitVec 32) :
    Nat → BitVec 32 → List (BitVec 32) → Option (BitVec 32 × List (BitVec 32))
  | 0, _, _ => none
  | fuel + 1, tag, inspected =>
      if tag < multiboot + readWord mem multiboot then
        if readWord mem tag = type then some (tag, inspected ++ [tag])
        else findTagLoop mem multiboot type fuel (nextTag mem tag) (inspected ++ [tag])
      else some (0#32, inspected)

/-- `multiboot_find_tag` (`multiboot.c:3-15`). -/
def multibootFindTag (mem : ByteMem) (multiboot type : BitVec 32) (fuel : Nat) :
    Option (BitVec 32 × List (BitVec 32)) :=
  findTagLoop mem multiboot type fuel (multiboot + 8#32) []

/-! ## The structure -/

/-- The first multiple of 8 that is not below `n`. -/
def pad (n : Nat) : Nat := (n + 7) / 8 * 8

/-- The tags with their offsets, the first one being at `o`. -/
def places : Nat → List MultibootTag → List (Nat × MultibootTag)
  | _, [] => []
  | o, t :: tags => (o, t) :: places (pad (o + t.size.toNat)) tags

/-- The end of the last tag. -/
def tagsEnd : Nat → List MultibootTag → Nat
  | o, [] => o
  | o, [t] => o + t.size.toNat
  | o, t :: u :: tags => tagsEnd (pad (o + t.size.toNat)) (u :: tags)

/-- The structure at `multiboot` is the encoding of the tags. It ends below the end of the address
    space, where the pointer behind it would be null. -/
structure Encodes (mem : ByteMem) (multiboot : BitVec 32) (tags : List MultibootTag) : Prop where
  aligned : 8 ∣ multiboot.toNat
  sizes : ∀ t ∈ tags, 8 ≤ t.size.toNat
  headers : ∀ p ∈ places 8 tags,
    readWord mem (multiboot + BitVec.ofNat 32 p.1) = p.2.type ∧
      readWord mem (multiboot + BitVec.ofNat 32 p.1 + 4#32) = p.2.size
  total : (readWord mem multiboot).toNat = tagsEnd 8 tags ∨
    (readWord mem multiboot).toNat = pad (tagsEnd 8 tags)
  fits : multiboot.toNat + pad (tagsEnd 8 tags) < 2 ^ 32

/-- The address of the first tag of a type, or null. -/
def firstTag (multiboot type : BitVec 32) (tags : List (Nat × MultibootTag)) : BitVec 32 :=
  (tags.find? fun p => p.2.type = type).elim 0#32 fun p => multiboot + BitVec.ofNat 32 p.1

end Muse.Trampoline
