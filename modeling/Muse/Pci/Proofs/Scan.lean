import Muse.Pci.Scan

/-!
# What the scan initialises

`init_function` is called for functions that are there only, but never once for each of them:
`init_pci` scans the host bridge first, and then the bus that it is on, so if the scan ends, device
0 of bus 0 has been initialised twice. If the device is not there, a null pointer is dereferenced.
-/

namespace Muse.Pci

variable {space : ConfigSpace} {scanBus : ScanBus} {bus slot func : BitVec 8}
  {calls calls' : List InitCall}

/-! ## The property -/

/-- The function is there. -/
def Present (space : ConfigSpace) (bus slot func : BitVec 8) : Prop :=
  getVendorId space bus slot func ≠ 0xFFFF#16

/-- A function of a bus, in one of its 32 slots. -/
structure IsFunction (space : ConfigSpace) (bus slot func : BitVec 8) : Prop where
  slot_lt : slot.toNat < 32
  func_lt : func.toNat < 8
  present : Present space bus slot func

/-- A function that is a PCI-PCI bridge. -/
structure IsBridge (space : ConfigSpace) (bus slot func : BitVec 8) : Prop
    extends IsFunction space bus slot func where
  type : (readHeader space bus slot func).type = 0x1#8

/-- The secondary bus number of a bridge, which is in the bits 15:8 of the register. -/
def childBus (space : ConfigSpace) (bus slot func : BitVec 8) : BitVec 8 :=
  (pciConfigRead space bus slot func 0x18#8 >>> 8).setWidth 8

/-- The buses behind the bridges, starting with bus 0. -/
inductive BusReached (space : ConfigSpace) : BitVec 8 → Prop
  | root : BusReached space 0#8
  | bridge {bus slot func : BitVec 8} : BusReached space bus → IsBridge space bus slot func →
      BusReached space (childBus space bus slot func)

/-- The function is on a bus that can be reached from bus 0. -/
def Reached (space : ConfigSpace) (bus slot func : BitVec 8) : Prop :=
  BusReached space bus ∧ IsFunction space bus slot func

/-- The configuration space of a tree of buses: each device has a function 0, which says if there
    are others, and each bridge has a bus of its own behind it. -/
structure PciTree (space : ConfigSpace) : Prop where
  function0 : ∀ bus slot func, Reached space bus slot func → Present space bus slot 0#8
  multi : ∀ bus slot func, Reached space bus slot func → func ≠ 0#8 →
    (readHeader space bus slot 0#8).multiFunction = true
  child_ne : ∀ bus slot func, BusReached space bus → IsBridge space bus slot func →
    childBus space bus slot func ≠ 0#8
  child_inj : ∀ bus slot func bus' slot' func', BusReached space bus →
    IsBridge space bus slot func → BusReached space bus' → IsBridge space bus' slot' func' →
    childBus space bus slot func = childBus space bus' slot' func' →
    bus = bus' ∧ slot = slot' ∧ func = func'

/-- The call is for this function. -/
def InitCall.At (bus slot func : BitVec 8) (c : InitCall) : Bool :=
  c.bus = bus ∧ c.slot = slot ∧ c.func = func

/-- The scan ends, and `init_function` is called once for each function that can be reached from
    bus 0, and for no other. -/
def EnumeratesOnce (space : ConfigSpace) : Prop :=
  ∃ depth calls, initPci space depth = some calls ∧
    (∀ bus slot func, Reached space bus slot func →
      calls.countP (InitCall.At bus slot func) = 1) ∧
    ∀ c ∈ calls, Reached space c.bus c.slot c.func

/-! ## Calls that are added -/

/-- The scan has added calls for functions that are there. -/
def Adds (space : ConfigSpace) (calls calls' : List InitCall) : Prop :=
  ∃ new, calls' = new ++ calls ∧ ∀ c ∈ new, Present space c.bus c.slot c.func

namespace Adds

variable {calls'' : List InitCall}

theorem refl (calls : List InitCall) : Adds space calls calls :=
  ⟨[], rfl, fun _ hc => nomatch hc⟩

theorem trans (h : Adds space calls calls') (h' : Adds space calls' calls'') :
    Adds space calls calls'' := by
  obtain ⟨new, rfl, hnew⟩ := h
  obtain ⟨new', rfl, hnew'⟩ := h'
  refine ⟨new' ++ new, (List.append_assoc ..).symm, fun c hc => ?_⟩
  rcases List.mem_append.mp hc with hc | hc
  · exact hnew' c hc
  · exact hnew c hc

theorem cons (h : Adds space calls calls') (c : InitCall) (hc : Present space c.bus c.slot c.func) :
    Adds space calls (c :: calls') := by
  obtain ⟨new, rfl, hnew⟩ := h
  refine ⟨c :: new, rfl, fun d hd => ?_⟩
  rcases List.mem_cons.mp hd with rfl | hd
  · exact hc
  · exact hnew d hd

/-- Calls are never taken back. -/
theorem count_le (h : Adds space calls calls') (p : InitCall → Bool) :
    calls.countP p ≤ calls'.countP p := by
  obtain ⟨new, rfl, -⟩ := h
  rw [List.countP_append]
  exact Nat.le_add_left _ _

end Adds

/-- What the scan of a bus does to the calls. -/
def AddsBus (space : ConfigSpace) (scanBus : ScanBus) : Prop :=
  ∀ bus calls calls', scanBus bus calls = some calls' → Adds space calls calls'

section Scan

variable (hbus : AddsBus space scanBus)

include hbus

/-- The scan of a function that is there ends with its call. -/
theorem scanPciFunc_present (hp : Present space bus slot func) {res : PciFunc}
    (h : scanPciFunc space scanBus bus slot func calls = some (res, calls')) :
    res.vendor = getVendorId space bus slot func ∧
      ∃ calls₁, Adds space calls calls₁ ∧ calls' = ⟨bus, slot, func, res⟩ :: calls₁ := by
  rw [scanPciFunc, if_neg hp] at h
  dsimp only at h
  split at h
  · obtain ⟨rfl, rfl⟩ := Prod.mk.inj (Option.some.inj h)
    exact ⟨rfl, calls, .refl calls, rfl⟩
  split at h
  · obtain ⟨calls₁, hscan, hrest⟩ := Option.bind_eq_some_iff.mp h
    obtain ⟨rfl, rfl⟩ := Prod.mk.inj (Option.some.inj hrest)
    exact ⟨rfl, calls₁, hbus _ _ _ hscan, rfl⟩
  · obtain ⟨rfl, rfl⟩ := Prod.mk.inj (Option.some.inj h)
    exact ⟨rfl, calls, .refl calls, rfl⟩

theorem scanPciFunc_adds {res : PciFunc}
    (h : scanPciFunc space scanBus bus slot func calls = some (res, calls')) :
    Adds space calls calls' := by
  by_cases hp : Present space bus slot func
  · obtain ⟨-, calls₁, hadds, rfl⟩ := scanPciFunc_present hbus hp h
    exact hadds.cons _ hp
  · rw [scanPciFunc, if_pos (Decidable.byContradiction hp)] at h
    obtain ⟨-, rfl⟩ := Prod.mk.inj (Option.some.inj h)
    exact .refl calls

theorem scanFuncs_adds (n : ℕ) {i : BitVec 8} {funcs funcs' : List PciFunc}
    (h : scanFuncs space scanBus bus slot n i funcs calls = some (funcs', calls')) :
    Adds space calls calls' ∧ funcs.length ≤ funcs'.length := by
  induction n generalizing i funcs calls with
  | zero =>
      obtain ⟨rfl, rfl⟩ := Prod.mk.inj (Option.some.inj h)
      exact ⟨.refl calls, Nat.le_refl _⟩
  | succ n ih =>
      obtain ⟨⟨res, calls₁⟩, hscan, hrest⟩ := Option.bind_eq_some_iff.mp h
      have hadds := scanPciFunc_adds hbus hscan
      dsimp only at hrest
      split at hrest
      · obtain ⟨rfl, rfl⟩ := Prod.mk.inj (Option.some.inj hrest)
        exact ⟨hadds, Nat.le_refl _⟩
      · obtain ⟨hmore, hle⟩ := ih hrest
        rw [List.length_append] at hle
        exact ⟨hadds.trans hmore, by omega⟩

/-- The scan of a device: there is none without a function 0, which is initialised. -/
theorem scanPciDev_adds {dev : Option PciDev}
    (h : scanPciDev space scanBus bus slot calls = some (dev, calls')) :
    Adds space calls calls' ∧ (∀ d ∈ dev, 0 < d.funcs.length ∧ Present space bus slot 0#8) ∧
      (Present space bus slot 0#8 →
        calls.countP (InitCall.At bus slot 0#8) < calls'.countP (InitCall.At bus slot 0#8)) := by
  obtain ⟨⟨res, calls₁⟩, hscan, hrest⟩ := Option.bind_eq_some_iff.mp h
  dsimp only at hrest
  have hadds := scanPciFunc_adds hbus hscan
  by_cases hp : Present space bus slot 0#8
  · obtain ⟨hvendor, calls₀, hadds₀, rfl⟩ := scanPciFunc_present hbus hp hscan
    have hcount : calls.countP (InitCall.At bus slot 0#8) <
        (⟨bus, slot, 0#8, res⟩ :: calls₀ : List InitCall).countP (InitCall.At bus slot 0#8) := by
      have := hadds₀.count_le (InitCall.At bus slot 0#8)
      rw [List.countP_cons_of_pos (by simp [InitCall.At])]
      omega
    rw [hvendor, if_neg hp] at hrest
    split at hrest
    · obtain ⟨⟨funcs, calls₂⟩, hfuncs, hrest⟩ := Option.bind_eq_some_iff.mp hrest
      obtain ⟨rfl, rfl⟩ := Prod.mk.inj (Option.some.inj hrest)
      obtain ⟨hmore, hle⟩ := scanFuncs_adds hbus 7 hfuncs
      refine ⟨hadds.trans hmore, ?_, fun _ => Nat.lt_of_lt_of_le hcount (hmore.count_le _)⟩
      rintro d hd
      obtain rfl := Option.some.inj hd
      exact ⟨hle, hp⟩
    · obtain ⟨rfl, rfl⟩ := Prod.mk.inj (Option.some.inj hrest)
      refine ⟨hadds, ?_, fun _ => hcount⟩
      rintro d hd
      obtain rfl := Option.some.inj hd
      exact ⟨Nat.one_pos, hp⟩
  · have hvendor : res.vendor = 0xFFFF#16 := by
      rw [scanPciFunc, if_pos (Decidable.byContradiction hp)] at hscan
      rw [← (Prod.mk.inj (Option.some.inj hscan)).1]
      rfl
    rw [if_pos hvendor] at hrest
    obtain ⟨rfl, rfl⟩ := Prod.mk.inj (Option.some.inj hrest)
    exact ⟨hadds, fun _ hd => (nomatch hd), fun hp' => absurd hp' hp⟩

theorem scanSlots_adds (slots : List ℕ)
    (h : scanSlots space scanBus bus slots calls = some calls') : Adds space calls calls' := by
  induction slots generalizing calls with
  | nil =>
      obtain rfl := Option.some.inj h
      exact .refl calls
  | cons i slots ih =>
      obtain ⟨⟨dev, calls₁⟩, hdev, hrest⟩ := Option.bind_eq_some_iff.mp h
      exact (scanPciDev_adds hbus hdev).1.trans (ih hrest)

theorem scanHostBuses_adds (l : List ℕ) (h : scanHostBuses scanBus l calls = some calls') :
    Adds space calls calls' := by
  induction l generalizing calls with
  | nil =>
      obtain rfl := Option.some.inj h
      exact .refl calls
  | cons i l ih =>
      obtain ⟨calls₁, hscan, hrest⟩ := Option.bind_eq_some_iff.mp h
      exact (hbus _ _ _ hscan).trans (ih hrest)

end Scan

/-- However many buses are nested, the scan of a bus adds calls for functions that are there. -/
theorem scanPciBus_adds (space : ConfigSpace) (depth : ℕ) :
    AddsBus space (scanPciBus space depth) := by
  induction depth with
  | zero => exact fun _ _ _ h => nomatch h
  | succ depth ih => exact fun _ _ _ h => scanSlots_adds ih _ h

/-- The scan of a bus initialises function 0 of its first device. -/
theorem scanPciBus_first {depth : ℕ} (hp : Present space bus 0#8 0#8)
    (h : scanPciBus space depth bus calls = some calls') :
    calls.countP (InitCall.At bus 0#8 0#8) < calls'.countP (InitCall.At bus 0#8 0#8) := by
  cases depth with
  | zero => cases h
  | succ depth =>
      have hbus := scanPciBus_adds space depth
      rw [scanPciBus, List.range_succ_eq_map, scanSlots] at h
      obtain ⟨⟨dev, calls₁⟩, hdev, hrest⟩ := Option.bind_eq_some_iff.mp h
      exact Nat.lt_of_lt_of_le ((scanPciDev_adds hbus hdev).2.2 hp)
        ((scanSlots_adds hbus _ hrest).count_le _)

/-- If the scan ends, it has initialised functions that are there only, and the host bridge
    twice. -/
theorem initPci_calls {depth : ℕ} (h : initPci space depth = some calls) :
    (∀ c ∈ calls, Present space c.bus c.slot c.func) ∧ Present space 0#8 0#8 0#8 ∧
      2 ≤ calls.countP (InitCall.At 0#8 0#8 0#8) := by
  have hbus := scanPciBus_adds space depth
  obtain ⟨⟨hostBridge, calls₁⟩, hdev, hrest⟩ := Option.bind_eq_some_iff.mp h
  obtain ⟨dev, rfl, hloop⟩ := Option.bind_eq_some_iff.mp hrest
  obtain ⟨hadds, hfuncs, hfirst⟩ := scanPciDev_adds hbus hdev
  obtain ⟨hlen, hp⟩ := hfuncs dev rfl
  have hall := hadds.trans (scanHostBuses_adds hbus _ hloop)
  refine ⟨?_, hp, ?_⟩
  · obtain ⟨new, rfl, hnew⟩ := hall
    rw [List.append_nil]
    exact hnew
  · obtain ⟨n, hn⟩ := Nat.exists_eq_succ_of_ne_zero (Nat.ne_of_gt hlen)
    rw [hn, List.range_succ_eq_map, scanHostBuses] at hloop
    obtain ⟨calls₂, hscan, hmore⟩ := Option.bind_eq_some_iff.mp hloop
    have hsecond := scanPciBus_first hp hscan
    have hrest := (scanHostBuses_adds hbus _ hmore).count_le (InitCall.At 0#8 0#8 0#8)
    have := hfirst hp
    omega

/-- **Enumeration.** There is no configuration space for which the scan ends and initialises every
    function that can be reached once: either the host bridge is not there, or it is initialised
    again with the rest of its bus. -/
theorem never_enumerates_once (space : ConfigSpace) : ¬ EnumeratesOnce space := by
  rintro ⟨depth, calls, hrun, honce, -⟩
  obtain ⟨-, hp, htwice⟩ := initPci_calls hrun
  have hone := honce 0#8 0#8 0#8 ⟨.root, by decide, by decide, hp⟩
  omega

/-- One bus on which all functions of all devices are there, none of them a bridge. -/
def fullBus : ConfigSpace := fun _ => 0x00808086#32

/-- On this bus, the function 0:0.0 is initialised twice. -/
theorem host_bridge_twice : ¬ ∀ space : ConfigSpace, PciTree space → EnumeratesOnce space := by
  intro hall
  have hbridge : ∀ bus slot func, ¬ IsBridge fullBus bus slot func := fun _ _ _ h =>
    absurd h.type (by simp [readHeader, getHeaderType, pciConfigRead, fullBus])
  obtain ⟨depth, calls, hrun, honce, -⟩ := hall fullBus
    { function0 := fun _ _ _ _ => by simp [Present, getVendorId, pciConfigRead, fullBus]
      multi := fun _ _ _ _ _ => by simp [readHeader, getHeaderType, pciConfigRead, fullBus]
      child_ne := fun _ _ _ _ h => absurd h (hbridge _ _ _)
      child_inj := fun _ _ _ _ _ _ _ h => absurd h (hbridge _ _ _) }
  obtain ⟨-, hp, htwice⟩ := initPci_calls hrun
  have hone := honce 0#8 0#8 0#8 ⟨.root, by decide, by decide, hp⟩
  omega

end Muse.Pci
