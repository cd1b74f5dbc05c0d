import Muse.Scheduler.Proofs.SleepTick

/-!
# When a sleeping context wakes

In a run whose ticks are clean, the alarm of a context that sleeps counts the ticks until it
is taken off the sleeping list, whatever the other contexts do.
-/

namespace Muse.Scheduler

open Muse.Library

/-- The context is on the sleeping list. -/
def Sleeping (s : Sched) (c : CtxPtr) : Prop :=
  ∃ sleeping, Chain s.next 0#32 s.firstSleepingCtx sleeping ∧ c ∈ sleeping

/-- The steps with clean ticks: `kmalloc` returns a block of its own for every new context, and
    a context only sleeps while another one is ready. -/
def Timely (r : Run) : Op → Prop
  | .createContext ctxNew _ => ctxNew ≠ 0#32 ∧ ctxNew ∉ r.live
  | .sleepMillis _ => r.sched.nextCtx ≠ 0#32
  | .sleepTick => ∃ sleeping, Chain r.sched.next 0#32 r.sched.firstSleepingCtx sleeping ∧
      TickClean r.sched sleeping
  | .preempt | .terminate => True

/-- The contexts of both lists are live ones. A woken context that finds no ready list is live and
    on neither of them. -/
structure Awaiting (r : Run) (ready sleeping : List CtxPtr) : Prop where
  lists : Lists r.sched ready sleeping
  live : r.sched.activeCtx :: (ready ++ sleeping) ⊆ r.live

/-- What a step does to the sleeping contexts: a tick lowers their alarms and takes those off the
    list whose alarm was 1, any other step keeps them. -/
def Waits (op : Op) (s s' : Sched) (sleeping sleeping' : List CtxPtr) : Prop :=
  ∀ c ∈ sleeping, if op = .sleepTick then
    s'.alarm c = s.alarm c - 1#32 ∧ (c ∈ sleeping' ↔ s.alarm c ≠ 1#32)
  else s'.alarm c = s.alarm c ∧ c ∈ sleeping'

/-! ## One step -/

section Step

variable {s s' : Sched} {r : Run} {ready sleeping : List CtxPtr}

theorem waits_of_kept {op : Op} {sleeping' : List CtxPtr} (hop : op ≠ .sleepTick)
    (halarm : ∀ c ∈ sleeping, s'.alarm c = s.alarm c) (hsub : sleeping ⊆ sleeping') :
    Waits op s s' sleeping sleeping' := by
  intro c hc
  rw [if_neg hop]
  exact ⟨halarm c hc, hsub hc⟩

theorem setNext_alarm {p v : CtxPtr} (hs : s.setNext p v = some s') : s'.alarm = s.alarm := by
  unfold Sched.setNext at hs
  split at hs
  · cases hs
  · rw [← Option.some.inj hs]

theorem createContext_alarm {ctxNew : CtxPtr} {priority : BitVec 8}
    (hs : s.createContext ctxNew priority = some s') : s'.alarm = s.alarm := by
  unfold Sched.createContext at hs
  dsimp only at hs
  -- in front of the ready list or behind it
  split at hs
  all_goals
    obtain ⟨t, ht, hs⟩ := Option.bind_eq_some_iff.mp hs
    have halarm := setNext_alarm ht
    rw [← Option.some.inj hs]
    exact halarm

theorem preempt_alarm (hs : s.preempt = some s') : s'.alarm = s.alarm := by
  unfold Sched.preempt at hs
  split at hs
  · obtain ⟨t, ht, hs⟩ := Option.bind_eq_some_iff.mp hs
    obtain ⟨u, hu, hs⟩ := Option.bind_eq_some_iff.mp hs
    rw [← Option.some.inj hs]
    exact (setNext_alarm hu).trans (setNext_alarm ht)
  · rw [← Option.some.inj hs]

theorem schedule_alarm (s : Sched) : s.schedule.alarm = s.alarm := by
  unfold Sched.schedule
  split <;> rfl

/-- A clean tick keeps both lists lists. -/
theorem TickClean.lists (hl : Lists s ready sleeping) (h : TickClean s sleeping) :
    ∃ s' ready', s.sleepTick = some s' ∧ s'.activeCtx = s.activeCtx ∧
      (∀ c ∈ sleeping, s'.alarm c = s.alarm c - 1#32) ∧
      Lists s' ready' (sleeping.filter fun c => s.alarm c - 1#32 ≠ 0#32) ∧
      ready' ⊆ ready ++ sleeping := by
  obtain ⟨s', hs', halarm, hact, hnext, hlist'⟩ := h.tick hl.sleeping_chain
  by_cases hready : s.nextCtx = 0#32
  · refine ⟨s', [], hs', hact, halarm, ⟨?_, .inl rfl, hlist', ?_, ?_⟩, List.nil_subset _⟩
    · rw [hnext]
      exact hready
    · rw [hact]
      exact hl.active_ne
    · rw [hact, List.nil_append]
      refine hl.nodup.sublist (List.Sublist.cons_cons _ ?_)
      exact List.filter_sublist.trans (List.sublist_append_right ..)
  · obtain ⟨s'', ready', sleeping', hs'', hact', hl', hperm, -⟩ := sleepTick_lists hl (.inl hready)
    obtain rfl : s' = s'' := Option.some.inj (hs'.symm.trans hs'')
    obtain rfl := hl'.sleeping_chain.unique hlist'
    exact ⟨s', ready', hs', hact, halarm, hl',
      fun c hc => hperm.subset (List.mem_append_left _ hc)⟩

/-- The active context goes to sleep in front of the others. -/
theorem sleepMillis_awaiting (h : Awaiting r ready sleeping) {millis : BitVec 32}
    (hok : Timely r (.sleepMillis millis)) : ∃ r' ready', step r (.sleepMillis millis) = some r' ∧
      Awaiting r' ready' (r.sched.activeCtx :: sleeping) ∧
      r'.sched.alarm = Function.update r.sched.alarm r.sched.activeCtx millis := by
  obtain ⟨hl, hlive⟩ := h
  obtain ⟨c, rest, rfl⟩ := List.exists_cons_of_ne_nil
    fun he => hok (hl.nextCtx_eq_zero_iff.mpr he)
  obtain ⟨s', hs', hact, halarm, hl'⟩ := sleepMillis_lists hl millis
  refine ⟨⟨s', r.live⟩, rest, by simp [step, hs'], ⟨hl', ?_⟩, halarm⟩
  rw [hact]
  have hmid := @List.perm_middle _ r.sched.activeCtx (c :: rest) sleeping
  exact fun d hd => hlive (hmid.mem_iff.mp hd)

/-- A step that satisfies the guard returns, and the contexts that sleep go on waiting. -/
theorem step_waits {op : Op} (h : Awaiting r ready sleeping) (hok : Timely r op) :
    ∃ r' ready' sleeping', step r op = some r' ∧ Awaiting r' ready' sleeping' ∧
      Waits op r.sched r'.sched sleeping sleeping' := by
  have hl := h.lists
  have hlive := h.live
  cases op with
  | createContext ctxNew priority =>
      obtain ⟨hne, hnew⟩ := hok
      obtain ⟨s', hs', hact, hl'⟩ := createContext_lists priority hl hne fun hm => hnew (hlive hm)
      refine ⟨⟨s', ctxNew :: r.live⟩, _, sleeping, by simp [step, hs'], ⟨hl', ?_⟩,
        waits_of_kept (by simp) (fun c _ => by rw [createContext_alarm hs']) (List.Subset.refl _)⟩
      have hmid := @List.perm_middle _ ctxNew (r.sched.activeCtx :: ready) sleeping
      rw [hact]
      intro c hc
      have hc' : c ∈ ctxNew :: (r.sched.activeCtx :: ready ++ sleeping) :=
        hmid.mem_iff.mp (by simpa using hc)
      exact List.cons_subset_cons _ hlive hc'
  | preempt =>
      obtain ⟨s', ready', hs', hl', hperm⟩ := preempt_lists hl
      exact ⟨⟨s', r.live⟩, ready', sleeping, by simp [step, hs'],
        ⟨hl', fun c hc => hlive (hperm.mem_iff.mp hc)⟩,
        waits_of_kept (by simp) (fun c _ => by rw [preempt_alarm hs']) (List.Subset.refl _)⟩
  | terminate =>
      have halarm : ∀ c ∈ sleeping, r.sched.terminate.alarm c = r.sched.alarm c := fun c _ => by
        rw [Sched.terminate, schedule_alarm]
      by_cases hnext : r.sched.nextCtx = 0#32
      · have hnone : r.sched.terminate = r.sched := by
          simp [Sched.terminate, Sched.schedule, hnext]
        refine ⟨_, ready, sleeping, rfl, ⟨?_, ?_⟩,
          waits_of_kept (by simp) halarm (List.Subset.refl _)⟩
        · rw [hnone]
          exact hl
        · simpa [hnone, hnext] using hlive
      · obtain ⟨c, rest, rfl⟩ := List.exists_cons_of_ne_nil
          fun he => hnext (hl.nextCtx_eq_zero_iff.mpr he)
        obtain ⟨hactm, hnd⟩ := List.nodup_cons.mp hl.nodup
        obtain ⟨hact, hl'⟩ := schedule_lists hl.ready_chain (hl.ready_last.resolve_left (by simp))
          hl.sleeping_chain hnd
        refine ⟨_, rest, sleeping, rfl, ⟨hl', ?_⟩,
          waits_of_kept (by simp) halarm (List.Subset.refl _)⟩
        intro d hd
        have hd' : d ∈ c :: rest ++ sleeping := by
          rw [Sched.terminate, hact] at hd
          exact hd
        have hda : d ≠ r.sched.activeCtx := fun he => hactm (he ▸ hd')
        simp only [hnext, ne_eq, not_false_eq_true, if_true]
        exact (List.mem_erase_of_ne hda).mpr (hlive (List.mem_cons_of_mem _ hd'))
  | sleepMillis millis =>
      obtain ⟨r', ready', hr', h', halarm⟩ := sleepMillis_awaiting h hok
      refine ⟨r', ready', _, hr', h', waits_of_kept (by simp) (fun d hd => ?_)
        (List.subset_cons_self ..)⟩
      rw [halarm, Function.update_of_ne]
      rintro rfl
      exact (List.nodup_cons.mp hl.nodup).1 (List.mem_append_right _ hd)
  | sleepTick =>
      obtain ⟨sleeping₀, hlist, hclean⟩ := hok
      obtain rfl := hlist.unique hl.sleeping_chain
      obtain ⟨s', ready', hs', hact, halarm, hl', hsub⟩ := hclean.lists hl
      refine ⟨⟨s', r.live⟩, ready', _, by simp [step, hs'], ⟨hl', ?_⟩, fun c hc => ?_⟩
      · rw [hact]
        refine fun d hd => hlive ?_
        rcases List.mem_cons.mp hd with rfl | hd
        · exact List.mem_cons_self
        · rcases List.mem_append.mp hd with hd | hd
          · exact List.mem_cons_of_mem _ (hsub hd)
          · exact List.mem_cons_of_mem _ (List.mem_append_right _ (List.mem_filter.mp hd).1)
      · rw [if_pos rfl, List.mem_filter, decide_eq_true_iff, ne_eq, sub_one_eq_zero_iff]
        exact ⟨halarm c hc, fun hm => hm.2, fun hm => ⟨hc, hm⟩⟩

end Step

/-! ## Whole runs -/

/-- The ticks of a run. -/
def ticks (ops : List Op) : Nat := ops.count .sleepTick

theorem ticks_snoc (ops : List Op) (op : Op) :
    ticks (ops ++ [op]) = ticks ops + if op = .sleepTick then 1 else 0 := by
  rw [ticks, List.count_append, List.count_singleton, ticks]
  simp

/-- The alarm of a context that sleeps is what is left of the ticks. -/
theorem trace_waits {r r' : Run} {ready sleeping : List CtxPtr} {c : CtxPtr} {ops : List Op}
    (h : Awaiting r ready sleeping) (hc : c ∈ sleeping) (hr : Trace step Timely r ops r') :
    ∃ ready' sleeping', Awaiting r' ready' sleeping' ∧
      (ticks ops < (r.sched.alarm c).toNat → c ∈ sleeping' ∧
        (r'.sched.alarm c).toNat = (r.sched.alarm c).toNat - ticks ops) := by
  induction hr with
  | nil => exact ⟨ready, sleeping, h, fun _ => ⟨hc, rfl⟩⟩
  | @snoc ops t u op _ hok hs ih =>
      obtain ⟨ready₁, sleeping₁, h₁, hwait⟩ := ih
      obtain ⟨u', ready', sleeping', hs', h', heffect⟩ := step_waits h₁ hok
      obtain rfl : u = u' := Option.some.inj (hs.symm.trans hs')
      refine ⟨ready', sleeping', h', fun hlt => ?_⟩
      rw [ticks_snoc] at hlt ⊢
      by_cases htick : op = .sleepTick
      · rw [if_pos htick] at hlt ⊢
        obtain ⟨hmem, halarm⟩ := hwait (by omega)
        have heff := heffect c hmem
        rw [if_pos htick] at heff
        have hone : t.sched.alarm c ≠ 1#32 := by
          intro hone
          rw [hone, BitVec.toNat_ofNat] at halarm
          omega
        refine ⟨heff.2.mpr hone, ?_⟩
        rw [heff.1, BitVec.toNat_sub, halarm, BitVec.toNat_ofNat]
        have := (r.sched.alarm c).isLt
        omega
      · rw [if_neg htick] at hlt ⊢
        obtain ⟨hmem, halarm⟩ := hwait hlt
        have heff := heffect c hmem
        rw [if_neg htick] at heff
        rw [heff.1]
        exact ⟨heff.2, halarm⟩

/-- At the tick that makes the alarm zero the context leaves the list. -/
theorem trace_leaves {r r' : Run} {ready sleeping : List CtxPtr} {c : CtxPtr} {ops : List Op}
    (h : Awaiting r ready sleeping) (hc : c ∈ sleeping)
    (hr : Trace step Timely r (ops ++ [.sleepTick]) r')
    (hticks : ticks (ops ++ [.sleepTick]) = (r.sched.alarm c).toNat) : ¬ Sleeping r'.sched c := by
  obtain ⟨t, ht, hok, hs⟩ : ∃ t, Trace step Timely r ops t ∧ Timely t .sleepTick ∧
      step t .sleepTick = some r' := by
    generalize hall : ops ++ [Op.sleepTick] = all at hr
    cases hr with
    | nil => simp at hall
    | snoc ht hok hs =>
        obtain ⟨rfl, hop⟩ := List.append_inj' hall rfl
        obtain rfl := List.singleton_inj.mp hop
        exact ⟨_, ht, hok, hs⟩
  rw [ticks_snoc, if_pos rfl] at hticks
  obtain ⟨ready₁, sleeping₁, h₁, hwait⟩ := trace_waits h hc ht
  obtain ⟨hmem, halarm⟩ := hwait (by omega)
  obtain ⟨u, ready', sleeping', hs', h', heffect⟩ := step_waits h₁ hok
  obtain rfl : r' = u := Option.some.inj (hs.symm.trans hs')
  have heff := heffect c hmem
  rw [if_pos rfl] at heff
  have hone : t.sched.alarm c = 1#32 := by
    apply BitVec.eq_of_toNat_eq
    rw [halarm, BitVec.toNat_ofNat]
    omega
  rintro ⟨sleeping₂, hlist, hc₂⟩
  rw [hlist.unique h'.lists.sleeping_chain] at hc₂
  exact heff.2.mp hc₂ hone

theorem initial_awaiting {s : Sched} {firstCtx : CtxPtr} (hfirst : firstCtx ≠ 0#32)
    (hnext : s.nextCtx = 0#32) (hsleep : s.firstSleepingCtx = 0#32) :
    Awaiting (initial s firstCtx) [] [] where
  lists := ⟨hnext, .inl rfl, hsleep, hfirst, List.nodup_singleton _⟩
  live := List.Subset.refl _

theorem reaches_awaiting {init r : Run} {ready sleeping : List CtxPtr}
    (h : Awaiting init ready sleeping) (hr : Reaches step Timely init r) :
    ∃ ready' sleeping', Awaiting r ready' sleeping' := by
  induction hr with
  | refl => exact ⟨ready, sleeping, h⟩
  | tail _ hok hs ih =>
      obtain ⟨ready₁, sleeping₁, h₁⟩ := ih
      obtain ⟨t, ready', sleeping', ht, h', -⟩ := step_waits h₁ hok
      obtain rfl := Option.some.inj (ht.symm.trans hs)
      exact ⟨ready', sleeping', h'⟩

/-- A tick is right exactly when it is clean. In a run with clean ticks every step returns, and a
    context that goes to sleep for `millis` ticks is on the sleeping list until the last of them,
    and not on it after that one. -/
theorem sleep_timing (next : CtxPtr → CtxPtr) (priority : CtxPtr → BitVec 8)
    (alarm slicesRemaining id : CtxPtr → BitVec 32) (firstCtx : CtxPtr)
    (hfirst : firstCtx ≠ 0#32) :
    (∀ (s : Sched) (sleeping : List CtxPtr), Chain s.next 0#32 s.firstSleepingCtx sleeping →
      (TickRight s sleeping ↔ TickClean s sleeping)) ∧
    ∀ r, Reaches step Timely
        (initial (Sched.boot next priority alarm slicesRemaining id) firstCtx) r →
      (∀ op, Timely r op → (step r op).isSome) ∧
      ∀ (millis : BitVec 32) (r₁ : Run), Timely r (.sleepMillis millis) →
        step r (.sleepMillis millis) = some r₁ → ∀ ops r₂, Trace step Timely r₁ ops r₂ →
          (ticks ops < millis.toNat → Sleeping r₂.sched r.sched.activeCtx) ∧
          ∀ ops', ops = ops' ++ [.sleepTick] → ticks ops = millis.toNat →
            ¬ Sleeping r₂.sched r.sched.activeCtx := by
  refine ⟨fun s sleeping hlist => tickRight_iff_clean hlist, fun r hr => ?_⟩
  obtain ⟨ready, sleeping, h⟩ := reaches_awaiting (initial_awaiting hfirst rfl rfl) hr
  refine ⟨fun op hok => ?_, fun millis r₁ hok hs ops r₂ hrun => ?_⟩
  · obtain ⟨r', -, -, hr', -⟩ := step_waits h hok
    rw [hr']
    rfl
  · obtain ⟨r', ready', hr', h', halarm⟩ := sleepMillis_awaiting h hok
    obtain rfl : r₁ = r' := Option.some.inj (hs.symm.trans hr')
    have hmillis : r₁.sched.alarm r.sched.activeCtx = millis := by
      rw [halarm, Function.update_self]
    constructor
    · intro hlt
      obtain ⟨ready₂, sleeping₂, h₂, hwait⟩ := trace_waits h' List.mem_cons_self hrun
      exact ⟨sleeping₂, h₂.lists.sleeping_chain, (hwait (by rw [hmillis]; exact hlt)).1⟩
    · rintro ops' rfl hticks
      exact trace_leaves h' List.mem_cons_self hrun (by rw [hmillis]; exact hticks)

/-- Context 2 sleeps for one tick while context 3 is ready. -/
theorem sleep_timing_one : ∃ r r₁ r₂, Reaches step Timely zeroBoot r ∧
    step r (.sleepMillis 1#32) = some r₁ ∧ Sleeping r₁.sched 2#32 ∧
    step r₁ .sleepTick = some r₂ ∧ ¬ Sleeping r₂.sched 2#32 := by
  have hrun : (runChecked step (fun r op => Allowed 1#32 r op ∧
      (op = .createContext 2#32 1#8 ∨ op = .createContext 3#32 1#8 ∨ op = .preempt)) zeroBoot
      [.createContext 2#32 1#8, .createContext 3#32 1#8, .preempt]).any (fun r =>
      decide (r.sched.activeCtx = 2#32 ∧ r.sched.nextCtx = 3#32) &&
        (step r (.sleepMillis 1#32)).any fun r₁ =>
          decide (r₁.sched.firstSleepingCtx = 2#32 ∧ r₁.sched.next 2#32 = 0#32 ∧
            r₁.sched.alarm 2#32 = 1#32 ∧ r₁.sched.lastCtx = 1#32)) = true := by
    decide +kernel
  obtain ⟨r, hr, hobs⟩ := exists_reaches_of_any hrun
  rw [Bool.and_eq_true, decide_eq_true_iff, Option.any_eq_true] at hobs
  obtain ⟨⟨hact, hnext⟩, r₁, hr₁, hobs⟩ := hobs
  obtain ⟨hfirst, hnull, halarm, hlast⟩ := of_decide_eq_true hobs
  have hr : Reaches step Timely zeroBoot r := hr.mono fun s op hok => by
    obtain ⟨hallowed, rfl | rfl | rfl⟩ := hok
    · exact hallowed
    · exact hallowed
    · trivial
  have hsleep : Timely r (.sleepMillis 1#32) := by
    intro he
    rw [hnext] at he
    exact absurd he (by decide)
  have hclean : Timely r₁ .sleepTick := by
    refine ⟨[2#32], ⟨hfirst, by decide, hnull⟩, .inr ⟨[], 2#32, rfl, halarm, nofun, ?_, ?_⟩⟩
    · rw [hlast]
      decide
    · rw [hlast]
      exact fun hon => absurd hon (by decide)
  have htiming := (sleep_timing (fun _ => 0#32) (fun _ => 0#8) (fun _ => 0#32) (fun _ => 0#32)
    (fun _ => 0#32) 1#32 (by decide)).2
  obtain ⟨r₂, hr₂⟩ := Option.isSome_iff_exists.mp
    ((htiming r₁ (.tail hr hsleep hr₁)).1 .sleepTick hclean)
  have hruns := (htiming r hr).2 1#32 r₁ hsleep hr₁
  rw [hact] at hruns
  refine ⟨r, r₁, r₂, hr, hr₁, (hruns [] r₁ .nil).1 (by decide), hr₂, ?_⟩
  exact (hruns [.sleepTick] r₂ (.snoc .nil hclean hr₂)).2 [] rfl (by decide)

/-- Contexts 2 and 3 both sleep for one tick: the tick wakes context 3 and leaves the alarm of
    context 2 as it is. -/
theorem sleep_tick_stops : ¬ ∀ (r : Run) (sleeping : List CtxPtr),
    Reaches step (Allowed 1#32) zeroBoot r →
    Chain r.sched.next 0#32 r.sched.firstSleepingCtx sleeping →
    (∀ c ∈ sleeping, r.sched.alarm c ≠ 0#32) → TickRight r.sched sleeping := by
  intro hall
  have hrun : (runChecked step (Allowed 1#32) zeroBoot
      [.createContext 2#32 1#8, .createContext 3#32 1#8, .createContext 4#32 1#8, .preempt,
        .sleepMillis 1#32, .sleepMillis 1#32]).any (fun r =>
      decide (r.sched.firstSleepingCtx = 3#32 ∧ r.sched.next 3#32 = 2#32 ∧
        r.sched.next 2#32 = 0#32 ∧ r.sched.alarm 3#32 = 1#32 ∧ r.sched.alarm 2#32 = 1#32 ∧
        (r.sched.sleepTick.map fun s => s.alarm 2#32) = some 1#32)) = true := by decide +kernel
  obtain ⟨r, hr, hobs⟩ := exists_reaches_of_any hrun
  obtain ⟨hfirst, hnext₃, hnext₂, halarm₃, halarm₂, htick⟩ := of_decide_eq_true hobs
  have hlist : Chain r.sched.next 0#32 r.sched.firstSleepingCtx [3#32, 2#32] :=
    ⟨hfirst, by decide, hnext₃, by decide, hnext₂⟩
  obtain ⟨s', hs', halarm, -⟩ := hall r _ hr hlist (by simp [halarm₂, halarm₃])
  rw [hs', Option.map_some, Option.some.injEq] at htick
  have hlow := halarm 2#32 (by simp)
  rw [htick, halarm₂] at hlow
  exact absurd hlow (by decide)

end Muse.Scheduler
