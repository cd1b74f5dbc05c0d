import Muse.Library.Bytes
import Muse.Library.Checksum

/-!
# The ACPI root pointer

`verify_rsdp` and `find_rsdt` of `src/common/acpi.c`, with `struct rsdp` of `include/muse/acpi.h`,
which is packed. In its second stage `verify_rsdp` shifts a word of 32 bits by up to 56, which C
leaves undefined. The kernel is for x86, whose shifts take the count modulo 32.
-/

namespace Muse.Acpi

open Library

/-- The shift to the right of a word of 32 bits: the processor uses five bits of the count. -/
def shr (v : BitVec 32) (count : Nat) : BitVec 32 := v >>> (count % 32)

/-- `struct rsdp`. -/
structure Rsdp where
  signature : Fin 8 → BitVec 8
  checksum : BitVec 8
  oemId : Fin 6 → BitVec 8
  revision : BitVec 8
  rsdtAddress : BitVec 32
  length : BitVec 32
  xsdtAddress : BitVec 64
  extendedChecksum : BitVec 8
  reserved : Fin 3 → BitVec 8

/-- The structure that a row of 36 bytes stands for. -/
def Rsdp.ofBytes (image : Bytes) : Rsdp where
  signature := fun i => image i
  checksum := image 8
  oemId := fun i => image (9 + i)
  revision := image 15
  rsdtAddress := image.word32 16
  length := image.word32 20
  xsdtAddress := image.word32 28 ++ image.word32 24
  extendedChecksum := image 32
  reserved := fun i => image (33 + i)

/-- The bytes that a loop over `i < bits` in steps of 8 adds: `(v >> i) & 0xff`. -/
def shiftedBytes (v : BitVec 32) (bits : Nat) : List (BitVec 8) :=
  (List.range (bits / 8)).map fun k => (shr v (8 * k) &&& 0xFF#32).setWidth 8

/-- The sum over the fields of the first version (`acpi.c:22-33`). -/
def Rsdp.firstSum (r : Rsdp) : BitVec 8 :=
  let sum := addBytes 0#8 (List.ofFn r.signature)
  let sum := sum + r.checksum
  let sum := addBytes sum (List.ofFn r.oemId)
  let sum := sum + r.revision
  addBytes sum (shiftedBytes r.rsdtAddress 32)

/-- The sum of the second stage (`acpi.c:39-49`), which takes `rsdt_address` again. -/
def Rsdp.secondSum (r : Rsdp) : BitVec 8 :=
  let sum := addBytes 0#8 (shiftedBytes r.length 32)
  let sum := addBytes sum (shiftedBytes r.rsdtAddress 64)
  let sum := sum + r.extendedChecksum
  addBytes sum (List.ofFn r.reserved)

/-- `verify_rsdp` (`acpi.c:21-53`). -/
def verifyRsdp (r : Rsdp) : Bool :=
  if r.firstSum ≠ 0#8 then false
  else if r.revision = 2#8 then r.secondSum = 0#8
  else true

/-- `find_rsdt` (`acpi.c:55-63`). A pointer has 32 bits. -/
def findRsdt (r : Rsdp) : BitVec 32 :=
  if r.revision = 0#8 then r.rsdtAddress else r.xsdtAddress.setWidth 32

/-- The sum of the first `n` bytes. -/
def sumOfBytes (image : Bytes) (n : Nat) : Nat :=
  ((List.range n).map fun i => (image i).toNat).sum

/-- The checksums of the image are right. -/
def ChecksumsRight (image : Bytes) : Prop :=
  sumOfBytes image 20 % 256 = 0 ∧ (image 15 = 2#8 → sumOfBytes image 36 % 256 = 0)

end Muse.Acpi
