import Muse.Interrupts.Controllers

/-!
# Interrupts arrive at their handlers

Behind the initialization of the controllers two lines of the I/O APIC are open, the keyboard's and
the timer's, each with the vector whose gate is its handler's. `init_hpet` finds the line of the
timer; if no timer can be routed it is line 0, and no timer sends interrupts.
-/

namespace Muse.Interrupts

open Muse.Library.X86

/-! ## The table -/

/-- The handler behind a vector. -/
def handlerOf (idt : Idt) (v : Nat) : Option (BitVec 32) :=
  if (idt v).gate.Valid then some (idt v).gate.offset else none

theorem handlerOf_set (idt : Idt) (vector : Nat) (isr : BitVec 32) (user : Bool) (v : Nat) :
    handlerOf (idtSetEntry idt vector isr user) v =
      if v = vector then some isr else handlerOf idt v := by
  by_cases hv : v = vector
  · subst hv
    rw [if_pos rfl, handlerOf, gate_idtSetEntry]
    rfl
  · rw [if_neg hv, handlerOf, idtSetEntry, Function.update_of_ne hv, handlerOf]

/-- A user program may call the vector. -/
theorem dpl_set (idt : Idt) (vector : Nat) (isr : BitVec 32) (user : Bool) (v : Nat) :
    (idtSetEntry idt vector isr user v).gate.dpl =
      if v = vector then (if user then 3#2 else 0#2) else (idt v).gate.dpl := by
  by_cases hv : v = vector
  · subst hv
    rw [if_pos rfl, gate_idtSetEntry]
    rfl
  · rw [if_neg hv, idtSetEntry, Function.update_of_ne hv]

theorem handlerOf_initIdt (h : Handlers) (irq : BitVec 32) (v : Nat) :
    handlerOf (initIdt h irq zeroIdt) v =
      if v = 0x80 then some h.syscallIsr
      else if v = 0x30 + irq.toNat then some h.handleTimer
      else if v = 0x31 then some h.handleKeypress
      else if v = 0xD then some h.handleGpf
      else none := by
  have hzero : handlerOf zeroIdt v = none := by
    rw [handlerOf, gate_zeroIdt]
    rfl
  rw [initIdt, handlerOf_set, handlerOf_set, handlerOf_set, handlerOf_set, hzero]

theorem dpl_initIdt (h : Handlers) (irq : BitVec 32) (v : Nat) :
    (initIdt h irq zeroIdt v).gate.dpl = if v = 0x80 then 3#2 else 0#2 := by
  rw [initIdt, dpl_set, dpl_set, dpl_set, dpl_set, gate_zeroIdt]
  simp

/-! ## The I/O APIC -/

namespace IoApic

variable (a : IoApic)

/-- The low word that `map_irq` writes has the vector and nothing in the fields for the delivery
    mode, the destination mode, the trigger mode and the mask. -/
structure Routed (low : BitVec 32) (irq : Nat) : Prop where
  vector : low.setWidth 8 = BitVec.ofNat 8 (0x30 + irq)
  delivery : low.extractLsb' 8 3 = 0#3
  physical : low.getLsbD 11 = false
  edge : low.getLsbD 15 = false
  unmasked : low.getLsbD 16 = false

theorem routed_low (x : BitVec 32) (irq : BitVec 8) : Routed
    ((((x &&& ~~~0xFF#32 ||| ((0x30#32 + irq.setWidth 32) &&& 0xFF#32)) &&& ~~~(0x7#32 <<< 8)) &&&
      ~~~(0x1#32 <<< 11) &&& ~~~(0x1#32 <<< 15)) &&& ~~~(0x1#32 <<< 16)) irq.toNat := by
  refine ⟨?_, ?_, ?_, ?_, ?_⟩
  · have hones : ∀ y : BitVec 8, y &&& 0xFF#8 = y := fun y => BitVec.and_allOnes
    have hsum : (0x30#32 + irq.setWidth 32).setWidth 8 = BitVec.ofNat 8 (0x30 + irq.toNat) := by
      apply BitVec.eq_of_toNat_eq
      simp
    simp [BitVec.setWidth_and, BitVec.setWidth_or, hsum, hones]
  · apply BitVec.eq_of_getLsbD_eq
    intro i hi
    obtain rfl | rfl | rfl : i = 0 ∨ i = 1 ∨ i = 2 := by omega
    all_goals simp
  · simp
  · simp
  · simp

/-- The entries behind `map_irq`. -/
theorem mapIrq_spec (irq : BitVec 8) (hirq : irq.toNat < 120) {line : Nat} (hline : line < 120) :
    (line = irq.toNat → Routed ((a.mapIrq irq).entryLow line) line ∧
      (a.mapIrq irq).entryHigh line = a.other (a.reads + 1)) ∧
    (line ≠ irq.toNat → (a.mapIrq irq).entryLow line = a.entryLow line ∧
      (a.mapIrq irq).entryHigh line = a.entryHigh line) := by
  have hlow : line = irq.toNat ↔ BitVec.ofNat 8 (0x10 + 2 * line) = 0x10#8 + irq * 2#8 := by
    bv_omega
  have hhigh : line = irq.toNat ↔ BitVec.ofNat 8 (0x11 + 2 * line) = 0x11#8 + irq * 2#8 := by
    bv_omega
  have hcross : BitVec.ofNat 8 (0x10 + 2 * line) ≠ 0x11#8 + irq * 2#8 := by bv_omega
  have hcross' : BitVec.ofNat 8 (0x11 + 2 * line) ≠ 0x10#8 + irq * 2#8 := by bv_omega
  constructor
  · intro h
    have hne : BitVec.ofNat 8 (0x10 + 2 * line) ≠ BitVec.ofNat 8 (0x11 + 2 * line) := by bv_omega
    rw [entryLow, entryHigh, mapIrq]
    simp only [writeIoapic, readIoapic, ← hlow.mp h, ← hhigh.mp h, Function.update_of_ne hne,
      Function.update_self]
    rw [h]
    exact ⟨routed_low _ irq, trivial⟩
  · intro h
    rw [entryLow, entryHigh, mapIrq]
    simp only [writeIoapic, readIoapic]
    rw [Function.update_of_ne hcross, Function.update_of_ne (mt hlow.mpr h),
      Function.update_of_ne (mt hhigh.mpr h), Function.update_of_ne hcross']
    exact ⟨rfl, rfl⟩

/-- The destinations are what the reads at the offset `0x40` yield. -/
theorem entryHigh_initIoapic {timerIrq : BitVec 32} (htimer : timerIrq.toNat < 32)
    (hne : timerIrq.toNat ≠ 1) : (a.initIoapic timerIrq).entryHigh 1 = a.other (a.reads + 1) ∧
      (a.initIoapic timerIrq).entryHigh timerIrq.toNat = a.other (a.reads + 3) := by
  have hirq : (timerIrq.setWidth 8).toNat = timerIrq.toNat := by
    rw [BitVec.toNat_setWidth]
    omega
  have hone : 1 < 120 := by decide
  have hkeyboard := a.mapIrq_spec 1#8 (by decide) hone
  have htime := fun line (hline : line < 120) =>
    (a.mapIrq 1#8).mapIrq_spec (timerIrq.setWidth 8) (by omega) hline
  rw [hirq] at htime
  rw [initIoapic]
  constructor
  · rw [((htime 1 (by decide)).2 (Ne.symm hne)).2, (hkeyboard.1 rfl).2]
  · rw [((htime timerIrq.toNat (by omega)).1 rfl).2]
    rfl

/-- The vectors of the lines behind `init_ioapic`. -/
theorem vector_initIoapic {timerIrq : BitVec 32} (htimer : timerIrq.toNat < 32) {line : Nat}
    (hline : line < 120) : (a.initIoapic timerIrq).vector line =
      if line = 1 ∨ line = timerIrq.toNat then some (BitVec.ofNat 8 (0x30 + line))
      else a.vector line := by
  have hirq : (timerIrq.setWidth 8).toNat = timerIrq.toNat := by
    rw [BitVec.toNat_setWidth]
    omega
  have hkeyboard := a.mapIrq_spec 1#8 (by decide) hline
  have htime := (a.mapIrq 1#8).mapIrq_spec (timerIrq.setWidth 8) (by omega) hline
  rw [hirq] at htime
  have hvector : ∀ (b : IoApic), Routed (b.entryLow line) line →
      b.vector line = some (BitVec.ofNat 8 (0x30 + line)) := by
    intro b hb
    rw [vector, masked, hb.unmasked, hb.vector]
    rfl
  rw [initIoapic]
  by_cases ht : line = timerIrq.toNat
  · rw [if_pos (.inr ht)]
    exact hvector _ (htime.1 ht).1
  · have hlow := (htime.2 ht).1
    by_cases hk : line = 1
    · rw [if_pos (.inl hk)]
      apply hvector
      rw [hlow]
      exact (hkeyboard.1 hk).1
    · have hnone : ¬ (line = 1 ∨ line = timerIrq.toNat) := by
        rintro (h | h)
        · exact hk h
        · exact ht h
      rw [if_neg hnone, vector, masked, hlow, (hkeyboard.2 hk).1, vector, masked]

end IoApic

/-! ## The timers -/

theorem routableIrq_some {m : BitVec 32} {j : Nat} (h : routableIrq m = some j) :
    j < 32 ∧ j ≠ 1 ∧ m.getLsbD j = true := by
  have hmem := List.mem_of_find?_eq_some h
  have hj := List.find?_some h
  simp only [Bool.and_eq_true, decide_eq_true_eq] at hj
  exact ⟨List.mem_range.mp hmem, hj.2, hj.1⟩

/-- The configuration of the timer that is chosen. -/
def chosenConf (conf : BitVec 32) (j : Nat) : BitVec 32 :=
  conf ||| 1#32 <<< 8 ||| BitVec.ofNat 32 j <<< 9 ||| 1#32 <<< 2

/-- A timer that `init_hpet` has passed by. -/
def TimerRegs.wide (t : TimerRegs) : TimerRegs := { t with conf := t.conf ||| 1#32 <<< 8 }

theorem TimerRegs.wide_wide (t : TimerRegs) : t.wide.wide = t.wide := by
  rw [wide, wide]
  simp only [BitVec.or_assoc, BitVec.or_self]

/-- What the loop over the timers `i`, .., `i + n - 1` does: it stops at the first one that can be
    routed. -/
inductive TimersSet (h : Hpet) (info : TimerInfo) (i n : Nat) (h' : Hpet) (info' : TimerInfo) : Prop
  | chosen (k j : Nat) (hlo : i ≤ k) (hhi : k < i + n)
      (hirq : routableIrq (h.timers k).routingMap = some j)
      (hinfo : info' = { info with irq := BitVec.ofNat 32 j, idx := BitVec.ofNat 32 k })
      (htimer : h'.timers k = { h.timers k with conf := chosenConf (h.timers k).conf j })
      (hothers : ∀ m, m ≠ k → h'.timers m = h.timers m ∨ h'.timers m = (h.timers m).wide)
  | none (hnone : ∀ m, i ≤ m → m < i + n → routableIrq (h.timers m).routingMap = none)
      (hinfo : info' = info)
      (hothers : ∀ m, h'.timers m = h.timers m ∨ h'.timers m = (h.timers m).wide)

@[simp] theorem setConf_self (h : Hpet) (i : Nat) (conf : BitVec 32) :
    (h.setConf i conf).timers i = { h.timers i with conf } := Function.update_self ..

theorem setConf_of_ne (h : Hpet) {i m : Nat} (hm : m ≠ i) (conf : BitVec 32) :
    (h.setConf i conf).timers m = h.timers m := Function.update_of_ne hm ..

theorem initTimers_spec (h : Hpet) (info : TimerInfo) (i n : Nat) :
    TimersSet h info i n (initTimers n i (h, info)).1 (initTimers n i (h, info)).2 := by
  induction n generalizing h i with
  | zero => exact .none (fun m hlo hhi => absurd hhi (by omega)) rfl fun _ => .inl rfl
  | succ n ih =>
      obtain ⟨h₁, hh₁⟩ : ∃ h₁, h₁ = h.setConf i ((h.timers i).conf ||| 1#32 <<< 8) := ⟨_, rfl⟩
      have hself : h₁.timers i = (h.timers i).wide := by
        rw [hh₁, setConf_self]
        rfl
      have hne : ∀ m, m ≠ i → h₁.timers m = h.timers m := by
        intro m hm
        rw [hh₁, setConf_of_ne h hm]
      have hmap : ∀ m, (h₁.timers m).routingMap = (h.timers m).routingMap := by
        intro m
        by_cases hm : m = i
        · rw [hm, hself]
          rfl
        · rw [hne m hm]
      rw [initTimers]
      simp only [← hh₁]
      cases hirq : routableIrq (h₁.timers i).routingMap with
      | some j =>
          refine .chosen i j (Nat.le_refl i) (by omega) (by rw [← hmap, hirq]) rfl ?_ ?_
          · rw [setConf_self, setConf_self, hself]
            rfl
          · intro m hm
            rw [setConf_of_ne _ hm, setConf_of_ne _ hm, hne m hm]
            exact .inl rfl
      | none =>
          simp only
          have hothers : ∀ t m, t = h₁.timers m ∨ t = (h₁.timers m).wide →
              t = h.timers m ∨ t = (h.timers m).wide := by
            intro t m ht
            by_cases hm : m = i
            · rw [hm, hself, TimerRegs.wide_wide, or_self] at ht
              rw [hm]
              exact .inr ht
            · rwa [hne m hm] at ht
          cases ih h₁ (i + 1) with
          | chosen k j hlo hhi hroute hinfo htimer hrest =>
              refine .chosen k j (by omega) (by omega) (by rw [← hmap, hroute]) hinfo ?_ ?_
              · rw [htimer, hne k (by omega)]
              · exact fun m hm => hothers _ m (hrest m hm)
          | none hnone hinfo hrest =>
              refine .none (fun m hlo hhi => ?_) hinfo fun m => hothers _ m (hrest m)
              rw [← hmap]
              by_cases hm : m = i
              · rw [hm]
                exact hirq
              · exact hnone m (by omega) (by omega)

/-- The fields of the timer that is chosen. -/
theorem chosenConf_fields (conf : BitVec 32) (j : Nat) :
    (chosenConf conf j).getLsbD 2 = true ∧
      (chosenConf conf j).extractLsb' 9 5 = conf.extractLsb' 9 5 ||| BitVec.ofNat 5 j := by
  refine ⟨by simp [chosenConf], ?_⟩
  apply BitVec.eq_of_getLsbD_eq
  intro i hi
  have hbits : (1#32 <<< 8).getLsbD (9 + i) = false ∧ (1#32 <<< 2).getLsbD (9 + i) = false := by
    obtain rfl | rfl | rfl | rfl | rfl : i = 0 ∨ i = 1 ∨ i = 2 ∨ i = 3 ∨ i = 4 := by omega
    all_goals decide
  have hshift : (BitVec.ofNat 32 j <<< 9).getLsbD (9 + i) = (BitVec.ofNat 5 j).getLsbD i := by
    rw [BitVec.getLsbD_shiftLeft, BitVec.getLsbD_ofNat, BitVec.getLsbD_ofNat]
    simp only [show 9 + i < 32 by omega, show ¬ 9 + i < 9 by omega, show 9 + i - 9 = i by omega,
      show i < 32 by omega, hi, decide_true, decide_false, Bool.not_false, Bool.true_and]
  simp only [chosenConf, BitVec.getLsbD_extractLsb', BitVec.getLsbD_or, hi, decide_true,
    Bool.true_and, hbits.1, hbits.2, hshift, Bool.or_false]

/-- The interrupt line of a timer. -/
def TimerRegs.route (t : TimerRegs) : BitVec 5 := t.conf.extractLsb' 9 5

/-- The timer sends interrupts. -/
def TimerRegs.enabled (t : TimerRegs) : Bool := t.conf.getLsbD 2

theorem TimerRegs.wide_enabled (t : TimerRegs) : t.wide.enabled = t.enabled := by
  simp [wide, enabled]

/-! ## All of them -/

theorem initPic_masked (p : Pics) :
    (initPic p).pic1.mask = 0xFF#8 ∧ (initPic p).pic2.mask = 0xFF#8 := by
  simp [initPic, initPicBytes, Pics.outb, Pic.command, Pic.data]

/-- The chips before the initialization: no line is open and no timer sends interrupts. -/
structure Chips.AtReset (c : Chips) : Prop where
  idt : c.idt = zeroIdt
  irq : c.info.irq = 0#32
  masked : ∀ line < 120, c.ioapic.masked line = true
  disabled : ∀ i, (c.hpet.timers i).enabled = false

/-- What `init_hpet` chooses. -/
theorem initHpet_spec {c : Chips} (hc : c.AtReset) :
    (initHpet c.hpet c.info).2.irq.toNat < 32 ∧ (initHpet c.hpet c.info).2.irq.toNat ≠ 1 ∧
    (∀ i, ((initHpet c.hpet c.info).1.timers i).enabled = true →
      ((initHpet c.hpet c.info).1.timers i).route = (c.hpet.timers i).route |||
        (initHpet c.hpet c.info).2.irq.setWidth 5) ∧
    ((∃ i < c.hpet.timerCount, ∃ j < 32, j ≠ 1 ∧ (c.hpet.timers i).routingMap.getLsbD j = true) →
      ∃ i < c.hpet.timerCount, ((initHpet c.hpet c.info).1.timers i).enabled = true) := by
  have hset := initTimers_spec c.hpet.stop { c.info with tickPeriod := c.hpet.period } 0
    c.hpet.timerCount
  rw [initHpet]
  have hoff : ∀ (t : TimerRegs) i, t = c.hpet.timers i ∨ t = (c.hpet.timers i).wide →
      t.enabled = false := by
    rintro t i (rfl | rfl)
    · exact hc.disabled i
    · rw [TimerRegs.wide_enabled]
      exact hc.disabled i
  cases hset with
  | chosen k j hlo hhi hroute hinfo htimer hothers =>
      obtain ⟨hj, hne, -⟩ := routableIrq_some hroute
      have hfields := chosenConf_fields (c.hpet.timers k).conf j
      have hirq : (BitVec.ofNat 32 j).toNat = j := by
        rw [BitVec.toNat_ofNat]
        omega
      have hwidth : (BitVec.ofNat 32 j).setWidth 5 = BitVec.ofNat 5 j := by
        apply BitVec.eq_of_toNat_eq
        simp
      rw [hinfo]
      refine ⟨?_, ?_, fun i hi => ?_, fun _ => ⟨k, by omega, ?_⟩⟩
      · show (BitVec.ofNat 32 j).toNat < 32
        omega
      · exact fun h => hne (hirq.symm.trans h)
      · by_cases hik : i = k
        · rw [hik, htimer, hwidth]
          exact hfields.2
        · have hnot := hoff _ i (hothers i hik)
          rw [hnot] at hi
          cases hi
      · rw [htimer]
        exact hfields.1
  | none hnone hinfo hothers =>
      rw [hinfo]
      refine ⟨?_, ?_, fun i hi => ?_, ?_⟩
      · rw [hc.irq]
        decide
      · rw [hc.irq]
        decide
      · have hnot := hoff _ i (hothers i)
        rw [hnot] at hi
        cases hi
      · rintro ⟨i, hi, j, hj, hne, hbit⟩
        have hfind := hnone i (Nat.zero_le i) (by omega)
        rw [routableIrq, List.find?_eq_none] at hfind
        exact absurd (hfind j (List.mem_range.mpr hj)) (by
          have hbit : (c.hpet.stop.timers i).routingMap.getLsbD j = true := hbit
          simp [hbit, hne])

/-- Behind the initialization, exactly the lines of the keyboard and of the timer are open, and an
    interrupt of each arrives at its handler, on the processor that the reads outside of the
    registers name; a timer that sends interrupts sends them on the line of the timer, if its route
    field was empty. The PICs are masked, and the only interrupt that a user program may call is
    `0x80`. -/
theorem interrupts_routed (h : Handlers) (c : Chips) (hc : c.AtReset) :
    (∀ line < 120, ((initInterrupts h c).ioapic.vector line).bind
        (fun v => handlerOf (initInterrupts h c).idt v.toNat) =
      if line = (initInterrupts h c).info.irq.toNat then some h.handleTimer
      else if line = 1 then some h.handleKeypress else none) ∧
    (initInterrupts h c).ioapic.entryHigh 1 = c.ioapic.other (c.ioapic.reads + 1) ∧
    (initInterrupts h c).ioapic.entryHigh (initInterrupts h c).info.irq.toNat =
      c.ioapic.other (c.ioapic.reads + 3) ∧
    (∀ i, ((initInterrupts h c).hpet.timers i).enabled = true → (c.hpet.timers i).route = 0#5 →
      ((initInterrupts h c).hpet.timers i).route.toNat = (initInterrupts h c).info.irq.toNat) ∧
    ((∃ i < c.hpet.timerCount, ∃ j < 32, j ≠ 1 ∧ (c.hpet.timers i).routingMap.getLsbD j = true) →
      ∃ i < c.hpet.timerCount, ((initInterrupts h c).hpet.timers i).enabled = true) ∧
    (initInterrupts h c).pics.pic1.mask = 0xFF#8 ∧ (initInterrupts h c).pics.pic2.mask = 0xFF#8 ∧
    ∀ (μ : Type) (u : Cpu μ) (v : Nat), u.cpl = 3#2 →
      (u.MayInterrupt ((initInterrupts h c).idt v).gate ↔ v = 0x80) := by
  obtain ⟨hlt, hne, hroute, hfound⟩ := initHpet_spec hc
  obtain ⟨irq, hirq⟩ : ∃ irq, irq = (initInterrupts h c).info.irq := ⟨_, rfl⟩
  have hidt : (initInterrupts h c).idt = initIdt h irq zeroIdt := by
    rw [hirq, ← hc.idt]
    rfl
  have hioapic : (initInterrupts h c).ioapic = c.ioapic.initIoapic irq := by
    rw [hirq]
    rfl
  have hlt : irq.toNat < 32 := by
    rw [hirq]
    exact hlt
  have hne : irq.toNat ≠ 1 := by
    rw [hirq]
    exact hne
  rw [← hirq]
  obtain ⟨hkeyboard, htimer⟩ := c.ioapic.entryHigh_initIoapic hlt hne
  rw [← hioapic] at hkeyboard htimer
  refine ⟨fun line hline => ?_, hkeyboard, htimer, fun i hi hempty => ?_, hfound,
    (initPic_masked c.pics).1, (initPic_masked c.pics).2, fun μ u v hu => ?_⟩
  · have hclosed : c.ioapic.vector line = none := by
      rw [IoApic.vector, if_pos (hc.masked line hline)]
    have hvector : ∀ n < 120, (BitVec.ofNat 8 (0x30 + n)).toNat = 0x30 + n := by
      intro n hn
      rw [BitVec.toNat_ofNat]
      omega
    rw [hioapic, c.ioapic.vector_initIoapic hlt hline, hidt]
    by_cases htime : line = irq.toNat
    · rw [if_pos (.inr htime), if_pos htime, Option.bind_some, hvector line hline,
        handlerOf_initIdt, if_neg (by omega), if_pos (by omega)]
    · rw [if_neg htime]
      by_cases hkey : line = 1
      · rw [if_pos (.inl hkey), if_pos hkey, Option.bind_some, hvector line hline,
          handlerOf_initIdt, if_neg (by omega), if_neg (by omega), if_pos (by omega)]
      · have hother : ¬ (line = 1 ∨ line = irq.toNat) := by
          rintro (h | h)
          · exact hkey h
          · exact htime h
        rw [if_neg hother, if_neg hkey, hclosed, Option.bind_none]
  · have hr := hroute i hi
    rw [hempty, BitVec.zero_or] at hr
    refine (congrArg BitVec.toNat hr).trans ?_
    rw [BitVec.toNat_setWidth]
    exact (congrArg (fun x : BitVec 32 => x.toNat % 2 ^ 5) hirq.symm).trans (Nat.mod_eq_of_lt hlt)
  · rw [Cpu.MayInterrupt, hu, hidt, dpl_initIdt]
    constructor
    · rintro ⟨-, hle⟩
      by_contra hv
      rw [if_neg hv] at hle
      exact absurd hle (by decide)
    · rintro rfl
      refine ⟨?_, by decide⟩
      rw [initIdt, gate_idtSetEntry]
      exact ⟨rfl, rfl⟩

/-- Chips with one timer, which can be routed to the lines 1 and 2. -/
def oneTimer : Chips where
  idt := zeroIdt
  pics := ⟨⟨.mask, 8#8, 0#8, 0#8, 0#8⟩, ⟨.mask, 0x70#8, 0#8, 0#8, 0#8⟩⟩
  hpet := ⟨0#32, 10000000#32, 0#32, fun _ => ⟨0#32, 6#32⟩⟩
  info := ⟨0#32, 0#32, 0#32⟩
  ioapic := ⟨0#8, fun _ => 0x10000#32, fun _ => 0xFFFFFFFF#32, 0⟩

theorem oneTimer_atReset : oneTimer.AtReset :=
  ⟨rfl, rfl, fun _ _ => (by decide : (0x10000#32).getLsbD 16 = true),
    fun _ => (by decide : (0#32).getLsbD 2 = false)⟩

/-- Its timer is handled behind line 2. -/
theorem interrupts_routed_oneTimer :
    ((initInterrupts ⟨1#32, 2#32, 3#32, 4#32⟩ oneTimer).ioapic.vector 2).bind
      (fun v => handlerOf (initInterrupts ⟨1#32, 2#32, 3#32, 4#32⟩ oneTimer).idt v.toNat) =
        some 3#32 ∧
    (((initInterrupts ⟨1#32, 2#32, 3#32, 4#32⟩ oneTimer).hpet.timers 0).route.toNat = 2) := by
  obtain ⟨hlines, -, -, htimers, -⟩ := interrupts_routed ⟨1#32, 2#32, 3#32, 4#32⟩ oneTimer
    oneTimer_atReset
  have hirq : (initInterrupts ⟨1#32, 2#32, 3#32, 4#32⟩ oneTimer).info.irq.toNat = 2 := by decide
  refine ⟨?_, ?_⟩
  · rw [hlines 2 (by decide), hirq]
    rfl
  · rw [htimers 0 (by decide) (by decide), hirq]

end Muse.Interrupts
