import Muse.Scheduler.Proofs.Placement

/-!
# One tick of the sleeping list

`sleep_tick` is to lower every alarm and to take the contexts off the list whose alarm is then zero.
It goes on from a context that it woke with the field `next` that it has just cleared, so that
the first wake-up ends the loop: the contexts behind it keep their alarms.
-/

namespace Muse.Scheduler

open Muse.Library

/-- Every alarm is lowered by one, and the contexts whose alarm becomes zero are off the list. -/
def TickRight (s : Sched) (sleeping : List CtxPtr) : Prop :=
  ∃ s', s.sleepTick = some s' ∧ (∀ c ∈ sleeping, s'.alarm c = s.alarm c - 1#32) ∧
    Chain s'.next 0#32 s'.firstSleepingCtx (sleeping.filter fun c => s.alarm c - 1#32 ≠ 0#32)

/-- No alarm is 1, or only that of the last context is, and `last_ctx` is not null and not on the
    list, unless it is the context in front of the last one. -/
def TickClean (s : Sched) (sleeping : List CtxPtr) : Prop :=
  (∀ c ∈ sleeping, s.alarm c ≠ 1#32) ∨
    ∃ front c, sleeping = front ++ [c] ∧ s.alarm c = 1#32 ∧ (∀ d ∈ front, s.alarm d ≠ 1#32) ∧
      s.lastCtx ≠ 0#32 ∧ (s.lastCtx ∈ sleeping → ∃ front', front = front' ++ [s.lastCtx])

/-! ## The loop -/

theorem sub_one_eq_zero_iff {x : BitVec 32} : x - 1#32 = 0#32 ↔ x = 1#32 := by
  constructor
  · intro hx
    rw [← BitVec.sub_add_cancel x 1#32, hx, BitVec.zero_add]
  · intro hx
    rw [hx, BitVec.sub_self]

namespace Sched

/-- The alarms of `xs` are lowered. -/
def lower (s : Sched) (xs : List CtxPtr) : Sched :=
  { s with alarm := fun c => if c ∈ xs then s.alarm c - 1#32 else s.alarm c }

variable {s : Sched} {prev c : CtxPtr}

theorem lower_nil (s : Sched) : s.lower [] = s := by
  simp [lower]

theorem lower_alarm (s : Sched) (xs : List CtxPtr) (c : CtxPtr) :
    (s.lower xs).alarm c = if c ∈ xs then s.alarm c - 1#32 else s.alarm c := rfl

theorem lower_append {xs ys : List CtxPtr} (h : ∀ d ∈ xs, d ∉ ys) :
    (s.lower xs).lower ys = s.lower (xs ++ ys) := by
  have halarm : (fun d => if d ∈ ys then (s.lower xs).alarm d - 1#32 else (s.lower xs).alarm d) =
      fun d => if d ∈ xs ++ ys then s.alarm d - 1#32 else s.alarm d := by
    funext d
    by_cases hx : d ∈ xs
    · simp [lower, hx, h d hx]
    · simp [lower, hx]
  exact congrArg (fun alarm => { s with alarm }) halarm

/-- A round lowers the alarm of its context, and wakes it if the alarm is then zero. -/
theorem tickCtx_eq (s : Sched) (prev c : CtxPtr) : s.tickCtx prev c =
    if s.alarm c = 1#32 then (s.lower [c]).wake prev c else some (s.lower [c]) := by
  have hlower : { s with alarm := Function.update s.alarm c (s.alarm c - 1#32) } = s.lower [c] := by
    refine congrArg (fun alarm => { s with alarm }) ?_
    funext d
    by_cases hd : d = c
    · simp [hd]
    · simp [hd]
  have hround : s.tickCtx prev c = (fun t : Sched => if t.alarm c = 0#32 then t.wake prev c
      else some t) { s with alarm := Function.update s.alarm c (s.alarm c - 1#32) } := rfl
  rw [hround, hlower]
  simp only [lower_alarm, List.mem_singleton, if_true, sub_one_eq_zero_iff]

/-- The contexts that are not woken are passed. -/
theorem sleepTickLoop_pass (fuel : Nat) : ∀ {xs : List CtxPtr} {s : Sched} {prev p q : CtxPtr},
    Segment s.next p xs q → xs.Nodup → (∀ c ∈ xs, c ≠ 0#32 ∧ s.alarm c ≠ 1#32) →
      sleepTickLoop (xs.length + fuel) s prev p =
        sleepTickLoop fuel (s.lower xs) (xs.getLastD prev) q := by
  intro xs
  induction xs with
  | nil =>
      intro s prev p q hseg _ _
      obtain rfl : p = q := hseg
      rw [List.length_nil, Nat.zero_add, lower_nil, List.getLastD_nil]
  | cons c xs ih =>
      intro s prev p q hseg hnd hall
      obtain ⟨rfl, hseg⟩ := hseg
      obtain ⟨hpx, hnd⟩ := List.nodup_cons.mp hnd
      obtain ⟨hp, halarm⟩ := hall p List.mem_cons_self
      have hrest : ∀ d ∈ xs, d ≠ 0#32 ∧ (s.lower [p]).alarm d ≠ 1#32 := by
        intro d hd
        have hdp : d ≠ p := fun he => hpx (he ▸ hd)
        rw [lower_alarm, if_neg fun hm => hdp (List.mem_singleton.mp hm)]
        exact hall d (List.mem_cons_of_mem _ hd)
      rw [List.length_cons, Nat.add_right_comm, sleepTickLoop, if_neg hp, tickCtx_eq,
        if_neg halarm, Option.bind_eq_bind, Option.bind_some, List.getLastD_cons]
      have hrounds := @ih (s.lower [p]) p _ q hseg hnd hrest
      rw [lower_append (List.forall_mem_singleton.mpr hpx)] at hrounds
      exact hrounds

/-- The links after `c`, which follows `prev`, was woken (`sleep.c:17-24`). -/
def wokenNext (s : Sched) (prev c : CtxPtr) : CtxPtr → CtxPtr :=
  let next := Function.update s.next s.lastCtx c
  Function.update (if prev = 0#32 then next else Function.update next prev (next c)) c 0#32

theorem wokenNext_lastCtx (hc : s.lastCtx ≠ c) (hprev : s.lastCtx ≠ prev) :
    s.wokenNext prev c s.lastCtx = c := by
  rw [wokenNext, Function.update_of_ne hc]
  split
  · exact Function.update_self ..
  · rw [Function.update_of_ne hprev, Function.update_self]

theorem wake_eq (hlast : s.lastCtx ≠ 0#32) (hc : c ≠ 0#32) :
    s.wake prev c = some { s with
      next := s.wokenNext prev c
      lastCtx := c
      firstSleepingCtx :=
        if prev = 0#32 then Function.update s.next s.lastCtx c c else s.firstSleepingCtx } := by
  by_cases hprev : prev = 0#32
  · simp [wake, setNext, unlinkSleeping, wokenNext, hlast, hc, hprev]
  · simp [wake, setNext, unlinkSleeping, wokenNext, hlast, hc, hprev]

theorem wake_null (hlast : s.lastCtx = 0#32) : s.wake prev c = none := by
  simp [wake, setNext, hlast]

theorem wake_alarm {s' : Sched} (hc : c ≠ 0#32) (hs : s.wake prev c = some s') :
    s'.alarm = s.alarm := by
  by_cases hlast : s.lastCtx = 0#32
  · rw [wake_null hlast] at hs
    cases hs
  · rw [wake_eq hlast hc] at hs
    rw [← Option.some.inj hs]

/-- A wake-up ends the loop. -/
theorem sleepTickLoop_wake (hc : c ≠ 0#32) (hone : s.alarm c = 1#32) (fuel : Nat) :
    sleepTickLoop (fuel + 2) s prev c = (s.lower [c]).wake prev c := by
  rw [sleepTickLoop, if_neg hc, tickCtx_eq, if_pos hone]
  by_cases hlast : (s.lower [c]).lastCtx = 0#32
  · rw [wake_null hlast]
    rfl
  · have hnull : (s.lower [c]).wokenNext prev c c = 0#32 := Function.update_self ..
    rw [wake_eq hlast hc, Option.bind_eq_bind, Option.bind_some, sleepTickLoop]
    exact if_pos hnull

/-- What `sleep_tick` does: it lowers all alarms, or those up to the first one that is 1, whose
    context it wakes. -/
theorem sleepTick_cases {sleeping : List CtxPtr}
    (hlist : Chain s.next 0#32 s.firstSleepingCtx sleeping) :
    ((∀ c ∈ sleeping, s.alarm c ≠ 1#32) ∧ s.sleepTick = some (s.lower sleeping)) ∨
    ∃ front c rest, sleeping = front ++ c :: rest ∧ (∀ d ∈ front, s.alarm d ≠ 1#32) ∧
      s.alarm c = 1#32 ∧ c ≠ 0#32 ∧
      s.sleepTick = (s.lower (front ++ [c])).wake (front.getLastD 0#32) c := by
  have hlen : sleeping.length ≤ 2 ^ 32 := by
    have hinj : (sleeping.map BitVec.toFin).Nodup :=
      hlist.nodup.map fun a b hab => BitVec.eq_of_toFin_eq hab
    simpa using List.Nodup.length_le_card hinj
  cases hfind : sleeping.find? fun c => s.alarm c = 1#32 with
  | none =>
      have hno : ∀ c ∈ sleeping, s.alarm c ≠ 1#32 := by simpa using hfind
      refine .inl ⟨hno, ?_⟩
      obtain ⟨fuel, hfuel⟩ : ∃ fuel, 2 ^ 64 = sleeping.length + (fuel + 1) :=
        ⟨2 ^ 64 - sleeping.length - 1, by omega⟩
      rw [sleepTick, hfuel, sleepTickLoop_pass _ hlist.segment hlist.nodup
        fun c hc => ⟨hlist.ne_null c hc, hno c hc⟩, sleepTickLoop, if_pos rfl]
  | some c =>
      obtain ⟨hone, front, rest, rfl, hfront⟩ := List.find?_eq_some_iff_append.mp hfind
      have hone : s.alarm c = 1#32 := by simpa using hone
      have hfront : ∀ d ∈ front, s.alarm d ≠ 1#32 := by simpa using hfront
      obtain ⟨p, hseg, rfl, hc0, -⟩ := hlist.split
      have hnd := hlist.nodup
      have hpf : p ∉ front := fun hm => (List.nodup_append.mp hnd).2.2 p hm p List.mem_cons_self rfl
      refine .inr ⟨front, p, rest, rfl, hfront, hone, hc0, ?_⟩
      rw [List.length_append, List.length_cons] at hlen
      obtain ⟨fuel, hfuel⟩ : ∃ fuel, 2 ^ 64 = front.length + (fuel + 2) :=
        ⟨2 ^ 64 - front.length - 2, by omega⟩
      have halarm : (s.lower front).alarm p = 1#32 := by
        rw [lower_alarm, if_neg hpf]
        exact hone
      rw [sleepTick, hfuel, sleepTickLoop_pass _ hseg (List.nodup_append.mp hnd).1
        fun d hd => ⟨hlist.ne_null d (List.mem_append_left _ hd), hfront d hd⟩,
        sleepTickLoop_wake hc0 halarm, lower_append fun d hd hdp => ?_]
      exact hpf (List.mem_singleton.mp hdp ▸ hd)

/-! ## The last context wakes -/

/-- The last context is taken off the list. -/
theorem wake_last {front : List CtxPtr}
    (hlist : Chain s.next 0#32 s.firstSleepingCtx (front ++ [c])) (hlast : s.lastCtx ≠ 0#32)
    (hon : s.lastCtx ∈ front ++ [c] → ∃ front', front = front' ++ [s.lastCtx]) :
    ∃ s', s.wake (front.getLastD 0#32) c = some s' ∧ s'.alarm = s.alarm ∧
      s'.activeCtx = s.activeCtx ∧ s'.nextCtx = s.nextCtx ∧
      Chain s'.next 0#32 s'.firstSleepingCtx front := by
  have hnd := hlist.nodup
  have hc : c ≠ 0#32 := hlist.ne_null c (by simp)
  have hcf : c ∉ front := fun hm => (List.nodup_append.mp hnd).2.2 c hm c List.mem_cons_self rfl
  have hcl : c ≠ s.lastCtx := by
    rintro rfl
    obtain ⟨front', hfront⟩ := hon (by simp)
    exact hcf (by rw [hfront]; simp)
  refine ⟨_, wake_eq hlast hc, rfl, rfl, rfl, ?_⟩
  rcases List.eq_nil_or_concat front with rfl | ⟨front, prev, rfl⟩
  · obtain ⟨-, -, hnull⟩ : Chain s.next 0#32 s.firstSleepingCtx [c] := hlist
    rw [List.getLastD_nil, if_pos rfl, Function.update_of_ne hcl]
    exact hnull
  · rw [List.concat_eq_append] at hlist hnd hcf hon ⊢
    have hprev : prev ≠ 0#32 := hlist.ne_null prev (by simp)
    rw [List.append_assoc, List.singleton_append] at hlist hnd
    rw [List.getLastD_concat, if_neg hprev, wokenNext, if_neg hprev]
    dsimp only
    -- `last_ctx->next = c` is overwritten where it is a link of the list
    refine (hlist.unlink_update hnd).congr fun d hd => ?_
    have hdc : d ≠ c := fun he => hcf (he ▸ hd)
    rw [Function.update_of_ne hdc, Function.update_of_ne hcl]
    by_cases hdp : d = prev
    · rw [hdp, Function.update_self, Function.update_self]
    · rw [Function.update_of_ne hdp, Function.update_of_ne hdp, Function.update_of_ne]
      rintro rfl
      obtain ⟨front', hfront⟩ := hon (List.mem_append_left _ hd)
      exact hdp (List.singleton_inj.mp (List.append_inj' hfront rfl).2).symm

/-- The links after a wake-up are those of a list only if `last_ctx` is not the woken context, which
    would come behind itself. -/
theorem lastCtx_ne_of_wake {front : List CtxPtr} (hc : c ≠ 0#32) (hcf : c ∉ front)
    (hlist' : Chain (s.wokenNext (front.getLastD 0#32) c) 0#32
      (if front.getLastD 0#32 = 0#32 then Function.update s.next s.lastCtx c c
        else s.firstSleepingCtx) front) (hprev : ∀ d ∈ front, d ≠ 0#32) : s.lastCtx ≠ c := by
  intro hself
  rcases List.eq_nil_or_concat front with rfl | ⟨front, prev, rfl⟩
  · have hnull : Function.update s.next s.lastCtx c c = 0#32 := hlist'
    rw [hself, Function.update_self] at hnull
    exact hc hnull
  · rw [List.concat_eq_append] at hlist' hcf hprev
    have hpc : prev ≠ c := by
      rintro rfl
      exact hcf (by simp)
    have hnull : s.wokenNext ((front ++ [prev]).getLastD 0#32) c prev = 0#32 :=
      hlist'.from_node.2.2
    rw [List.getLastD_concat, wokenNext, if_neg (hprev prev (by simp)),
      Function.update_of_ne hpc, Function.update_self, hself, Function.update_self] at hnull
    exact hc hnull

/-- Behind `last_ctx` comes the woken context, and not the next one of the list. -/
theorem eq_nil_of_wake {front rest : List CtxPtr} {p : CtxPtr} (hlc : s.lastCtx ≠ c)
    (hcf : c ∉ front ++ s.lastCtx :: rest) (hnd : (s.lastCtx :: rest).Nodup)
    (hlist' : Chain (s.wokenNext ((front ++ s.lastCtx :: rest).getLastD 0#32) c) 0#32 p
      (front ++ s.lastCtx :: rest)) : rest = [] := by
  cases rest with
  | nil => rfl
  | cons d rest =>
      exfalso
      have hnext : s.wokenNext ((front ++ s.lastCtx :: d :: rest).getLastD 0#32) c s.lastCtx = d :=
        hlist'.from_node.2.2.1
      have hdf : d ∈ front ++ s.lastCtx :: d :: rest := by simp
      obtain ⟨init, prev, hinit⟩ := (List.eq_nil_or_concat (d :: rest)).resolve_left nofun
      rw [List.concat_eq_append] at hinit
      have hprev : s.lastCtx ≠ prev := by
        rintro rfl
        refine (List.nodup_cons.mp hnd).1 ?_
        rw [hinit]
        simp
      have hconcat : front ++ s.lastCtx :: d :: rest = front ++ s.lastCtx :: init ++ [prev] := by
        rw [hinit]
        simp
      rw [hconcat, List.getLastD_concat, wokenNext_lastCtx hlc hprev] at hnext
      exact hcf (hnext ▸ hdf)

/-- A wake-up that leaves a list behind found `last_ctx` off the list or in front of its last
    context. -/
theorem on_list_of_wake {front : List CtxPtr} {s' : Sched}
    (hlist : Chain s.next 0#32 s.firstSleepingCtx (front ++ [c]))
    (hs : s.wake (front.getLastD 0#32) c = some s')
    (hlist' : Chain s'.next 0#32 s'.firstSleepingCtx front) :
    s.lastCtx ≠ 0#32 ∧ (s.lastCtx ∈ front ++ [c] → ∃ front', front = front' ++ [s.lastCtx]) := by
  have hnd := hlist.nodup
  have hc : c ≠ 0#32 := hlist.ne_null c (by simp)
  have hcf : c ∉ front := fun hm => (List.nodup_append.mp hnd).2.2 c hm c List.mem_cons_self rfl
  have hlast : s.lastCtx ≠ 0#32 := by
    intro hlast
    rw [wake_null hlast] at hs
    cases hs
  rw [wake_eq hlast hc] at hs
  obtain rfl := Option.some.inj hs
  have hlc := lastCtx_ne_of_wake hc hcf hlist' fun d hd =>
    hlist.ne_null d (List.mem_append_left _ hd)
  refine ⟨hlast, fun hon => ?_⟩
  have hon : s.lastCtx ∈ front := by
    rcases List.mem_append.mp hon with hon | hon
    · exact hon
    · exact absurd (List.mem_singleton.mp hon) hlc
  obtain ⟨front', rest, rfl⟩ := List.append_of_mem hon
  have hcons := (List.nodup_append.mp (List.nodup_append.mp hnd).1).2.1
  rw [eq_nil_of_wake hlc hcf hcons hlist']
  exact ⟨front', rfl⟩

end Sched

/-! ## When a tick is right -/

section Tick

variable {s : Sched} {sleeping : List CtxPtr}

theorem filter_of_none (hno : ∀ c ∈ sleeping, s.alarm c ≠ 1#32) :
    sleeping.filter (fun c => s.alarm c - 1#32 ≠ 0#32) = sleeping := by
  refine List.filter_eq_self.mpr fun c hc => ?_
  have hzero : s.alarm c - 1#32 ≠ 0#32 := fun hz => hno c hc (sub_one_eq_zero_iff.mp hz)
  exact decide_eq_true hzero

theorem filter_of_last {front : List CtxPtr} {c : CtxPtr}
    (hno : ∀ d ∈ front, s.alarm d ≠ 1#32) (hone : s.alarm c = 1#32) :
    (front ++ [c]).filter (fun c => s.alarm c - 1#32 ≠ 0#32) = front := by
  have hzero : s.alarm c - 1#32 = 0#32 := sub_one_eq_zero_iff.mpr hone
  rw [List.filter_append, filter_of_none hno, List.filter_cons_of_neg (by simp [hzero]),
    List.filter_nil, List.append_nil]

/-- A tick that is right is clean. -/
theorem TickRight.clean (hlist : Chain s.next 0#32 s.firstSleepingCtx sleeping)
    (h : TickRight s sleeping) : TickClean s sleeping := by
  obtain ⟨s', hs', halarm, hlist'⟩ := h
  rcases s.sleepTick_cases hlist with ⟨hno, -⟩ | ⟨front, c, rest, rfl, hno, hone, hc, htick⟩
  · exact .inl hno
  · have hnd := hlist.nodup
    rw [htick] at hs'
    have hlower : s'.alarm = (s.lower (front ++ [c])).alarm := Sched.wake_alarm hc hs'
    cases rest with
    | cons d rest =>
        -- the alarm behind the woken context is not lowered
        have hd := halarm d (by simp)
        have hdf : d ∉ front ++ [c] := by
          have hcat : front ++ c :: d :: rest = front ++ [c] ++ d :: rest := by simp
          rw [hcat] at hnd
          exact fun hm => (List.nodup_append.mp hnd).2.2 d hm d List.mem_cons_self rfl
        rw [hlower, Sched.lower_alarm, if_neg hdf] at hd
        have hnum := congrArg BitVec.toNat hd
        rw [BitVec.toNat_sub, BitVec.toNat_ofNat] at hnum
        have := (s.alarm d).isLt
        omega
    | nil =>
        rw [filter_of_last hno hone] at hlist'
        obtain ⟨hlast, hon⟩ :=
          Sched.on_list_of_wake (s := s.lower (front ++ [c])) hlist hs' hlist'
        exact .inr ⟨front, c, rfl, hone, hno, hlast, hon⟩

/-- What a clean tick does: besides the list, the active context and the head of the ready list
    are known. -/
theorem TickClean.tick (hlist : Chain s.next 0#32 s.firstSleepingCtx sleeping)
    (h : TickClean s sleeping) : ∃ s', s.sleepTick = some s' ∧
      (∀ c ∈ sleeping, s'.alarm c = s.alarm c - 1#32) ∧ s'.activeCtx = s.activeCtx ∧
      s'.nextCtx = s.nextCtx ∧
      Chain s'.next 0#32 s'.firstSleepingCtx
        (sleeping.filter fun c => s.alarm c - 1#32 ≠ 0#32) := by
  rcases s.sleepTick_cases hlist with ⟨hno, htick⟩ | ⟨front, c, rest, rfl, hno, hone, hc, htick⟩
  · refine ⟨_, htick, fun c hc => ?_, rfl, rfl, ?_⟩
    · rw [Sched.lower_alarm, if_pos hc]
    · rw [filter_of_none hno]
      exact hlist
  · rcases h with hnone | ⟨front', c', hsplit, hone', hno', hlast, hon⟩
    · exact absurd hone (hnone c (by simp))
    · have hrest : rest = [] := by
        rcases List.eq_nil_or_concat rest with rfl | ⟨init, d, rfl⟩
        · rfl
        · -- the last context would be in front of the one that wakes first
          exfalso
          rw [List.concat_eq_append, ← List.cons_append, ← List.append_assoc] at hsplit
          have hc' : c ∈ front' := by
            rw [← (List.append_inj' hsplit rfl).1]
            simp
          exact hno' c hc' hone
      subst hrest
      obtain ⟨rfl, hcc⟩ := List.append_inj' hsplit rfl
      obtain ⟨s', hs', halarm, hact, hnext, hlist'⟩ :=
        Sched.wake_last (s := s.lower (front ++ [c])) hlist hlast hon
      refine ⟨s', htick.trans hs', fun d hd => ?_, hact, hnext, ?_⟩
      · rw [halarm, Sched.lower_alarm, if_pos hd]
      · rw [filter_of_last hno hone]
        exact hlist'

/-- A tick is right exactly when it is clean. -/
theorem tickRight_iff_clean (hlist : Chain s.next 0#32 s.firstSleepingCtx sleeping) :
    TickRight s sleeping ↔ TickClean s sleeping := by
  refine ⟨fun h => h.clean hlist, fun h => ?_⟩
  obtain ⟨s', hs', halarm, -, -, hlist'⟩ := h.tick hlist
  exact ⟨s', hs', halarm, hlist'⟩

end Tick

end Muse.Scheduler
