import Mathlib.Data.Nat.Notation

/-!
# The scan of the PCI buses

`src/common/pci.c`. The configuration space is what reading `CONFIG_DATA` gives for each value of
`CONFIG_ADDR`. The scan of a bridge scans the bus behind it, so the scan of a bus is given the
number of buses that may be nested; nothing in the source bounds it. The calls of `init_function`
are recorded with the function they are for, the last one first.
-/

namespace Muse.Pci

/-- What `CONFIG_DATA` holds for each value of `CONFIG_ADDR`. -/
abbrev ConfigSpace : Type := BitVec 32 → BitVec 32

/-- The value of `CONFIG_ADDR` for a register (`pci.c:12-13`). -/
def configAddr (bus slot func offset : BitVec 8) : BitVec 32 :=
  1#32 <<< 31 ||| bus.setWidth 32 <<< 16 ||| slot.setWidth 32 <<< 11 ||| func.setWidth 32 <<< 8 |||
    offset.setWidth 32

/-- `pci_config_read` (`pci.c:10-16`). -/
def pciConfigRead (space : ConfigSpace) (bus slot func offset : BitVec 8) : BitVec 32 :=
  space (configAddr bus slot func offset)

section Registers

variable (space : ConfigSpace) (bus slot func : BitVec 8)

def getVendorId : BitVec 16 := (pciConfigRead space bus slot func 0x0#8).setWidth 16

def getHeaderType : BitVec 8 := (pciConfigRead space bus slot func 0xC#8 >>> 16).setWidth 8

def getClass : BitVec 8 := (pciConfigRead space bus slot func 0x8#8 >>> 24).setWidth 8

def getSubclass : BitVec 8 := (pciConfigRead space bus slot func 0x8#8 >>> 16).setWidth 8

def getProgIf : BitVec 8 := (pciConfigRead space bus slot func 0x8#8 >>> 8).setWidth 8

/-- `get_secondary_bus` (`pci.c:32`), which shifts by 18. -/
def getSecondaryBus : BitVec 8 := (pciConfigRead space bus slot func 0x18#8 >>> 18).setWidth 8

end Registers

/-- `enum pci_bar_type`. -/
inductive PciBarType where
  | io
  | mem
  deriving DecidableEq, Repr

/-- `struct pci_bar`. -/
structure PciBar where
  type : PciBarType
  addr : BitVec 32
  deriving DecidableEq, Repr

/-- `get_bar` (`pci.c:34-48`). -/
def getBar (space : ConfigSpace) (bus slot func idx : BitVec 8) : PciBar :=
  let reg := pciConfigRead space bus slot func (0x10#8 + idx * 4#8)
  if reg &&& 0x1#32 ≠ 0#32 then ⟨.io, reg &&& 0xFFFFFFFC#32⟩ else ⟨.mem, reg &&& 0xFFFFFFF0#32⟩

/-- `get_bar` for the first `n` base address registers. -/
def getBars (space : ConfigSpace) (bus slot func : BitVec 8) (n : ℕ) : List PciBar :=
  (List.range n).map fun i => getBar space bus slot func (BitVec.ofNat 8 i)

/-- `struct pci_func`, with those of its `bars` that are set. -/
structure PciFunc where
  vendor : BitVec 16
  classCode : BitVec 8
  subclassCode : BitVec 8
  progIf : BitVec 8
  type : BitVec 8
  multiFunction : Bool
  bars : List PciBar
  deriving DecidableEq, Repr

/-- What is returned for a function that is not there. Only `vendor` is set in the source, and no
    caller looks at the rest. -/
def PciFunc.absent : PciFunc := ⟨0xFFFF#16, 0#8, 0#8, 0#8, 0#8, false, []⟩

/-- `struct pci_dev`. The `func_count` functions found are in `funcs`. -/
structure PciDev where
  bus : BitVec 8
  slot : BitVec 8
  funcs : List PciFunc
  deriving DecidableEq, Repr

/-- A call of `init_function`, and the function it is for. -/
structure InitCall where
  bus : BitVec 8
  slot : BitVec 8
  func : BitVec 8
  fn : PciFunc
  deriving DecidableEq, Repr

/-- The fields that `scan_pci_func` sets before it looks at the type (`pci.c:82-91`). -/
def readHeader (space : ConfigSpace) (bus slot func : BitVec 8) : PciFunc where
  vendor := getVendorId space bus slot func
  classCode := getClass space bus slot func
  subclassCode := getSubclass space bus slot func
  progIf := getProgIf space bus slot func
  type := getHeaderType space bus slot func &&& ~~~0x80#8
  multiFunction := getHeaderType space bus slot func &&& 0x80#8 ≠ 0#8
  bars := []

/-- What a scan of a bus does to the calls made so far. -/
abbrev ScanBus : Type := BitVec 8 → List InitCall → Option (List InitCall)

/-- `scan_pci_func` (`pci.c:75-111`). -/
def scanPciFunc (space : ConfigSpace) (scanBus : ScanBus) (bus slot func : BitVec 8)
    (calls : List InitCall) : Option (PciFunc × List InitCall) :=
  if getVendorId space bus slot func = 0xFFFF#16 then some (.absent, calls)
  else
    let res := readHeader space bus slot func
    if res.type = 0x0#8 then
      let res := { res with bars := getBars space bus slot func 6 }
      some (res, ⟨bus, slot, func, res⟩ :: calls)
    else if res.type = 0x1#8 then do
      let calls ← scanBus (getSecondaryBus space bus slot func) calls
      let res := { res with bars := getBars space bus slot func 2 }
      some (res, ⟨bus, slot, func, res⟩ :: calls)
    else some (res, ⟨bus, slot, func, res⟩ :: calls)

/-- The loop over the other functions of a device (`pci.c:126-133`), with `n` of them left from `i`
    on. It stops at the first that is not there. -/
def scanFuncs (space : ConfigSpace) (scanBus : ScanBus) (bus slot : BitVec 8) :
    ℕ → BitVec 8 → List PciFunc → List InitCall → Option (List PciFunc × List InitCall)
  | 0, _, funcs, calls => some (funcs, calls)
  | n + 1, i, funcs, calls => do
      let (func, calls) ← scanPciFunc space scanBus bus slot i calls
      if func.vendor = 0xFFFF#16 then some (funcs, calls)
      else scanFuncs space scanBus bus slot n (i + 1#8) (funcs ++ [func]) calls

/-- `scan_pci_dev` (`pci.c:113-136`). -/
def scanPciDev (space : ConfigSpace) (scanBus : ScanBus) (bus slot : BitVec 8)
    (calls : List InitCall) : Option (Option PciDev × List InitCall) := do
  let (func, calls) ← scanPciFunc space scanBus bus slot 0#8 calls
  if func.vendor = 0xFFFF#16 then some (none, calls)
  else if func.multiFunction then do
    let (funcs, calls) ← scanFuncs space scanBus bus slot 7 1#8 [func] calls
    some (some ⟨bus, slot, funcs⟩, calls)
  else some (some ⟨bus, slot, [func]⟩, calls)

/-- The loop over the slots of a bus (`pci.c:140-143`). Nothing looks at the array `devs`. -/
def scanSlots (space : ConfigSpace) (scanBus : ScanBus) (bus : BitVec 8) :
    List ℕ → List InitCall → Option (List InitCall)
  | [], calls => some calls
  | i :: slots, calls => do
      let (_, calls) ← scanPciDev space scanBus bus (BitVec.ofNat 8 i) calls
      scanSlots space scanBus bus slots calls

/-- `scan_pci_bus` (`pci.c:138-145`), if at most `depth` buses are nested. -/
def scanPciBus (space : ConfigSpace) : ℕ → ScanBus
  | 0, _, _ => none
  | depth + 1, bus, calls => scanSlots space (scanPciBus space depth) bus (List.range 32) calls

/-- The loop over the functions of the host bridge (`pci.c:150-152`). -/
def scanHostBuses (scanBus : ScanBus) : List ℕ → List InitCall → Option (List InitCall)
  | [], calls => some calls
  | i :: rest, calls => do
      let calls ← scanBus (BitVec.ofNat 8 i) calls
      scanHostBuses scanBus rest calls

/-- `init_pci` (`pci.c:147-153`). There is no result if device 0 of bus 0 is not there: then the
    null pointer `host_bridge` is dereferenced. -/
def initPci (space : ConfigSpace) (depth : ℕ) : Option (List InitCall) := do
  let (hostBridge, calls) ← scanPciDev space (scanPciBus space depth) 0#8 0#8 []
  let dev ← hostBridge
  scanHostBuses (scanPciBus space depth) (List.range dev.funcs.length) calls

end Muse.Pci
