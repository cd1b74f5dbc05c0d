import Muse.Acpi.Rsdp
import Muse.Library.ByteMemory

/-!
# The table of ACPI tables

`find_sdt` and `reinit_acpi` of `src/common/acpi.c`, on a memory of bytes. A call is recorded with
the pointers to tables that it dereferences. The root table is an RSDT, whose pointers have 32 bits,
or an XSDT, whose pointers have 64 bits.
-/

namespace Muse.Acpi

open Library

/-- `sizeof(struct acpi_sdt_header)`. -/
def sdtHeaderSize : BitVec 32 := 36#32

/-- `header.length` of a table. -/
def sdtLength (mem : ByteMem) (table : BitVec 32) : BitVec 32 :=
  readWord mem (table + 4#32)

/-- `sdt_ptrs[i]` of an RSDT. -/
def sdtPtr (mem : ByteMem) (rsdt i : BitVec 32) : BitVec 32 :=
  readWord mem (rsdt + sdtHeaderSize + 4#32 * i)

/-- The comparison of the four characters (`acpi.c:73-78`). -/
def correctSignature (mem : ByteMem) (signature : Fin 4 → BitVec 8) (header : BitVec 32) : Bool :=
  (List.finRange 4).foldl (fun correct (j : Fin 4) =>
    if mem (header + BitVec.ofNat 32 j) ≠ signature j then false else correct) true

/-- The loop of `find_sdt` (`acpi.c:70-82`) from entry `i` on, with the number of the entries that
    are left. -/
def findSdtLoop (mem : ByteMem) (rsdtGlobal : BitVec 32) (signature : Fin 4 → BitVec 8) :
    Nat → BitVec 32 → List (BitVec 32) → BitVec 32 × List (BitVec 32)
  | 0, _, derefs => (0#32, derefs)
  | entries + 1, i, derefs =>
      let header := sdtPtr mem rsdtGlobal i
      if correctSignature mem signature header then (header, derefs ++ [header])
      else findSdtLoop mem rsdtGlobal signature entries (i + 1#32) (derefs ++ [header])

/-- `find_sdt` (`acpi.c:65-84`). -/
def findSdt (mem : ByteMem) (rsdtGlobal : BitVec 32) (signature : Fin 4 → BitVec 8) :
    BitVec 32 × List (BitVec 32) :=
  let entries := (sdtLength mem rsdtGlobal - sdtHeaderSize) / 4#32
  findSdtLoop mem rsdtGlobal signature entries.toNat 0#32 []

/-- The loop of `reinit_acpi` (`acpi.c:102-115`). Call number `n` of `map_phys_obj` maps an object
    to `mapPhysObj n obj size`, where the object is seen, so the loop works on physical memory. -/
def reinitAcpiLoop (mapPhysObj : Nat → BitVec 32 → BitVec 32 → BitVec 32) (acpiRsdt : BitVec 32) :
    Nat → BitVec 32 → ByteMem → List (BitVec 32) → ByteMem × List (BitVec 32)
  | 0, _, mem, derefs => (mem, derefs)
  | entries + 1, i, mem, derefs =>
      let obj := sdtPtr mem acpiRsdt i
      let len := sdtLength mem obj
      let mem := writeWord mem (acpiRsdt + sdtHeaderSize + 4#32 * i)
        (mapPhysObj (2 * i.toNat + 2) obj len)
      reinitAcpiLoop mapPhysObj acpiRsdt entries (i + 1#32) mem (derefs ++ [obj])

/-- `reinit_acpi` (`acpi.c:97-116`): `rsdt_global`, the memory, and the pointers to tables that it
    dereferences. -/
def reinitAcpi (mapPhysObj : Nat → BitVec 32 → BitVec 32 → BitVec 32) (mem : ByteMem)
    (acpiRsdt rsdtLen : BitVec 32) : BitVec 32 × ByteMem × List (BitVec 32) :=
  let entries := (sdtLength mem acpiRsdt - sdtHeaderSize) / 4#32
  (mapPhysObj 0 acpiRsdt rsdtLen,
    reinitAcpiLoop mapPhysObj acpiRsdt entries.toNat 0#32 mem [])

/-! ## Root tables -/

/-- The RSDT that lists the tables. -/
structure Rsdt (mem : ByteMem) (root : BitVec 32) (tables : List (BitVec 32)) : Prop where
  length : (sdtLength mem root).toNat = 36 + 4 * tables.length
  ptrs : ∀ k (hk : k < tables.length),
    readWord mem (root + sdtHeaderSize + BitVec.ofNat 32 (4 * k)) = tables[k]

/-- The XSDT that lists the tables, which are below 4 GiB. -/
structure Xsdt (mem : ByteMem) (root : BitVec 32) (tables : List (BitVec 32)) : Prop where
  length : (sdtLength mem root).toNat = 36 + 8 * tables.length
  low : ∀ k (hk : k < tables.length),
    readWord mem (root + sdtHeaderSize + BitVec.ofNat 32 (8 * k)) = tables[k]
  high : ∀ k < tables.length,
    readWord mem (root + sdtHeaderSize + BitVec.ofNat 32 (8 * k + 4)) = 0#32

/-- The root table that a root pointer of the revision has. -/
def RootTable (mem : ByteMem) (revision : BitVec 8) (root : BitVec 32)
    (tables : List (BitVec 32)) : Prop :=
  if revision = 0#8 then Rsdt mem root tables else Xsdt mem root tables

/-- The table carries the signature. -/
def HasSignature (mem : ByteMem) (signature : Fin 4 → BitVec 8) (table : BitVec 32) : Prop :=
  ∀ j : Fin 4, mem (table + BitVec.ofNat 32 j) = signature j

instance (mem : ByteMem) (signature : Fin 4 → BitVec 8) (table : BitVec 32) :
    Decidable (HasSignature mem signature table) :=
  inferInstanceAs (Decidable (∀ _ : Fin 4, _))

/-- The first table with the signature, or null. -/
def firstTable (mem : ByteMem) (signature : Fin 4 → BitVec 8) (tables : List (BitVec 32)) :
    BitVec 32 :=
  (tables.find? fun table => HasSignature mem signature table).getD 0#32

end Muse.Acpi
