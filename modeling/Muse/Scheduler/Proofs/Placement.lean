import Mathlib.Data.List.Perm.Basic
import Mathlib.Data.List.Count
import Mathlib.Data.Fintype.Card
import Muse.Library.Links
import Muse.Library.Transition
import Muse.Scheduler.Context

/-!
# Where a context is

A live context is active, on the ready list or on the sleeping list. All three share the
single `next` field, so the invariant `Lists` names the nodes of both lists and says that
together with the active context they are a permutation of the live contexts. Each
operation is one edit of the two lists; `sleep_tick` appends the context it wakes behind
`last_ctx`, which is the end of the ready list only while that list is not empty.
-/

namespace Muse.Scheduler

open Muse.Library

/-- The scheduler together with the contexts that were created and did not terminate yet. -/
structure Run where
  sched : Sched
  live : List CtxPtr

/-- The operations of a run. -/
inductive Op where
  | createContext (ctxNew : CtxPtr) (priority : BitVec 8)
  | preempt
  | terminate
  | sleepMillis (millis : BitVec 32)
  | sleepTick
  deriving DecidableEq, Repr

/-- One operation. `terminate` takes the active context off the live ones when it switches;
    with no context to switch to it returns to its caller. -/
def step (r : Run) : Op → Option Run
  | .createContext ctxNew priority =>
      (r.sched.createContext ctxNew priority).map fun s => ⟨s, ctxNew :: r.live⟩
  | .preempt => r.sched.preempt.map fun s => ⟨s, r.live⟩
  | .terminate =>
      some ⟨r.sched.terminate,
        if r.sched.nextCtx ≠ 0#32 then r.live.erase r.sched.activeCtx else r.live⟩
  | .sleepMillis millis => (r.sched.sleepMillis millis).map fun s => ⟨s, r.live⟩
  | .sleepTick => r.sched.sleepTick.map fun s => ⟨s, r.live⟩

/-- The runs the lists are meant for: `kmalloc` returns a block of its own for every new
    context, and the context `idle` neither terminates nor sleeps. -/
def Allowed (idle : CtxPtr) (r : Run) : Op → Prop
  | .createContext ctxNew _ => ctxNew ≠ 0#32 ∧ ctxNew ∉ r.live
  | .terminate | .sleepMillis _ => idle ∈ r.live ∧ r.sched.activeCtx ≠ idle
  | .preempt | .sleepTick => True

instance (idle : CtxPtr) (r : Run) : ∀ op, Decidable (Allowed idle r op)
  | .createContext _ _ => inferInstanceAs (Decidable (_ ∧ _))
  | .terminate => inferInstanceAs (Decidable (_ ∧ _))
  | .sleepMillis _ => inferInstanceAs (Decidable (_ ∧ _))
  | .preempt => inferInstanceAs (Decidable True)
  | .sleepTick => inferInstanceAs (Decidable True)

/-- The state after `init_first_ctx`. -/
def initial (s : Sched) (firstCtx : CtxPtr) : Run := ⟨s.initFirstCtx firstCtx, [firstCtx]⟩

/-- Every live context is in exactly one place: it is active, or it occurs once on the list
    from `next_ctx` to `last_ctx`, or it occurs once on the list from `first_sleeping_ctx`. -/
def Placed (r : Run) : Prop :=
  ∃ ready sleeping : List CtxPtr,
    Chain r.sched.next 0#32 r.sched.nextCtx ready ∧
    (∀ c ∈ ready.getLast?, c = r.sched.lastCtx) ∧
    Chain r.sched.next 0#32 r.sched.firstSleepingCtx sleeping ∧
    ∀ c ∈ r.live, (r.sched.activeCtx :: ready ++ sleeping).count c = 1

/-- A wake-up finds the ready list non-empty. -/
def WakeFindsReady (s : Sched) : Prop :=
  s.nextCtx ≠ 0#32 ∨
    ∀ sleeping, Chain s.next 0#32 s.firstSleepingCtx sleeping → ∀ c ∈ sleeping, s.alarm c ≠ 1#32

/-- The steps that keep every context: at a tick that wakes a context the ready list is not
    empty. -/
def Keeps (idle : CtxPtr) (r : Run) (op : Op) : Prop :=
  Allowed idle r op ∧ (op = .sleepTick → WakeFindsReady r.sched)

/-- The nodes of the two lists of `s`, ending in `last_ctx` and in null. -/
structure Lists (s : Sched) (ready sleeping : List CtxPtr) : Prop where
  ready_chain : Chain s.next 0#32 s.nextCtx ready
  ready_last : ready = [] ∨ ∃ front, ready = front ++ [s.lastCtx]
  sleeping_chain : Chain s.next 0#32 s.firstSleepingCtx sleeping
  active_ne : s.activeCtx ≠ 0#32
  nodup : (s.activeCtx :: (ready ++ sleeping)).Nodup

/-- The invariant of a run. -/
def Inv (idle : CtxPtr) (r : Run) : Prop :=
  ∃ ready sleeping, Lists r.sched ready sleeping ∧
    (r.sched.activeCtx :: (ready ++ sleeping)).Perm r.live ∧ idle ∉ sleeping

theorem Lists.nextCtx_eq_zero_iff {s : Sched} {ready sleeping : List CtxPtr}
    (h : Lists s ready sleeping) : s.nextCtx = 0#32 ↔ ready = [] :=
  h.ready_chain.eq_null_iff

/-- `last_ctx` is not null while the ready list is not empty. -/
theorem Lists.lastCtx_ne {s : Sched} {front sleeping : List CtxPtr}
    (h : Lists s (front ++ [s.lastCtx]) sleeping) : s.lastCtx ≠ 0#32 :=
  h.ready_chain.ne_null _ (by simp)

theorem inv_placed {idle : CtxPtr} {r : Run} (h : Inv idle r) : Placed r := by
  obtain ⟨ready, sleeping, hl, hperm, -⟩ := h
  refine ⟨ready, sleeping, hl.ready_chain, ?_, hl.sleeping_chain, ?_⟩
  · intro c hc
    rcases hl.ready_last with rfl | ⟨front, hfront⟩
    · cases hc
    · rw [hfront] at hc
      simpa using hc.symm
  · intro c hc
    have hmem : c ∈ r.sched.activeCtx :: (ready ++ sleeping) := hperm.mem_iff.mpr hc
    exact List.count_eq_one_of_mem hl.nodup hmem

/-! ## `create_context` -/

/-- The fields of the new context, before it is linked. -/
def withNew (s : Sched) (ctxNew : CtxPtr) (priority : BitVec 8) (next : CtxPtr → CtxPtr) :
    Sched :=
  { s with
    priority := Function.update s.priority ctxNew priority
    id := Function.update s.id ctxNew s.ctxId
    ctxId := s.ctxId + 1#32
    slicesRemaining := Function.update s.slicesRemaining ctxNew 0#32
    next := next }

theorem createContext_empty {s : Sched} {ctxNew : CtxPtr} {priority : BitVec 8}
    (hnext : s.nextCtx = 0#32) (hact : s.activeCtx ≠ 0#32) :
    s.createContext ctxNew priority = some { withNew s ctxNew priority
      (Function.update (Function.update s.next ctxNew 0#32) s.activeCtx ctxNew) with
      nextCtx := ctxNew, lastCtx := ctxNew } := by
  simp [Sched.createContext, Sched.setNext, hnext, hact, withNew]

theorem createContext_nonempty {s : Sched} {ctxNew : CtxPtr} {priority : BitVec 8}
    (hnext : s.nextCtx ≠ 0#32) (hlast : s.lastCtx ≠ 0#32) :
    s.createContext ctxNew priority = some { withNew s ctxNew priority
      (Function.update (Function.update s.next ctxNew 0#32) s.lastCtx ctxNew) with
      lastCtx := ctxNew } := by
  simp [Sched.createContext, Sched.setNext, hnext, hlast, withNew]

/-- `create_context` appends the new context to the ready list. -/
theorem createContext_lists {s : Sched} {ready sleeping : List CtxPtr} {ctxNew : CtxPtr}
    (priority : BitVec 8) (h : Lists s ready sleeping) (hne : ctxNew ≠ 0#32)
    (hnew : ctxNew ∉ s.activeCtx :: (ready ++ sleeping)) :
    ∃ s', s.createContext ctxNew priority = some s' ∧ s'.activeCtx = s.activeCtx ∧
      Lists s' (ready ++ [ctxNew]) sleeping := by
  simp only [List.mem_cons, List.mem_append, not_or] at hnew
  obtain ⟨hact, hready, hsleep⟩ := hnew
  obtain ⟨hactm, hnd⟩ := List.nodup_cons.mp h.nodup
  have hnodup : (s.activeCtx :: (ready ++ [ctxNew] ++ sleeping)).Nodup := by
    have hp : (s.activeCtx :: (ready ++ [ctxNew] ++ sleeping)).Perm
        (ctxNew :: s.activeCtx :: (ready ++ sleeping)) := by
      have := @List.perm_middle _ ctxNew (s.activeCtx :: ready) sleeping
      simpa using this
    rw [hp.nodup_iff, List.nodup_cons]
    exact ⟨by simp [hact, hready, hsleep], h.nodup⟩
  have hready0 : Chain (Function.update s.next ctxNew 0#32) 0#32 s.nextCtx ready :=
    h.ready_chain.update 0#32 hready
  have hsleep0 : Chain (Function.update s.next ctxNew 0#32) 0#32 s.firstSleepingCtx sleeping :=
    h.sleeping_chain.update 0#32 hsleep
  by_cases hnext : s.nextCtx = 0#32
  · obtain rfl : ready = [] := h.nextCtx_eq_zero_iff.mp hnext
    refine ⟨_, createContext_empty hnext h.active_ne, rfl, ?_⟩
    have hactsl : s.activeCtx ∉ sleeping := by simpa using hactm
    refine ⟨?_, .inr ⟨[], rfl⟩, hsleep0.update _ hactsl, h.active_ne, hnodup⟩
    -- the store to `active_ctx->next` does not touch the new node
    refine ⟨rfl, hne, ?_⟩
    simp [withNew, Function.update_of_ne hact]
  · have hne' : ready ≠ [] := fun e => hnext (h.nextCtx_eq_zero_iff.mpr e)
    rcases h.ready_last with rfl | ⟨front, hfront⟩
    · exact absurd rfl hne'
    subst hfront
    have hlast : s.lastCtx ≠ 0#32 := h.lastCtx_ne
    refine ⟨_, createContext_nonempty hnext hlast, rfl, ?_⟩
    have hrnd : (front ++ [s.lastCtx]).Nodup := (List.nodup_append.mp hnd).1
    have hlsl : s.lastCtx ∉ sleeping := fun hm =>
      (List.nodup_append.mp hnd).2.2 s.lastCtx (by simp) s.lastCtx hm rfl
    refine ⟨?_, .inr ⟨_, rfl⟩, hsleep0.update _ hlsl, h.active_ne, hnodup⟩
    exact hready0.snoc_update hrnd hne hready (by simp)

/-! ## `schedule` and `preempt` -/

/-- `schedule` drops the active context and activates the head of the ready list. -/
theorem schedule_lists {s : Sched} {c : CtxPtr} {rest sleeping : List CtxPtr}
    (hready : Chain s.next 0#32 s.nextCtx (c :: rest))
    (hlast : ∃ front, c :: rest = front ++ [s.lastCtx])
    (hsleep : Chain s.next 0#32 s.firstSleepingCtx sleeping)
    (hnd : (c :: (rest ++ sleeping)).Nodup) :
    s.schedule.activeCtx = c ∧ Lists s.schedule rest sleeping := by
  obtain ⟨hc, hc0, hrest⟩ := hready
  have hsched : s.schedule = { s with nextCtx := s.next c, activeCtx := c } := by
    simp [Sched.schedule, Sched.contextSwitch, hc, hc0]
  rw [hsched]
  refine ⟨rfl, hrest, ?_, hsleep, hc0, hnd⟩
  obtain ⟨front, hfront⟩ := hlast
  cases front with
  | nil =>
      left
      simp only [List.nil_append, List.cons.injEq] at hfront
      exact hfront.2
  | cons d front =>
      right
      simp only [List.cons_append, List.cons.injEq] at hfront
      exact ⟨front, hfront.2⟩

/-- `preempt` appends the active context to the ready list and activates the head. -/
theorem preempt_rotates {s : Sched} {c : CtxPtr} {rest sleeping : List CtxPtr}
    (h : Lists s (c :: rest) sleeping) :
    ∃ s', s.preempt = some s' ∧ s'.activeCtx = c ∧ s'.priority = s.priority ∧
      s'.slicesRemaining = s.slicesRemaining ∧ Lists s' (rest ++ [s.activeCtx]) sleeping := by
  obtain ⟨hc, hc0, hrest⟩ := h.ready_chain
  obtain ⟨hactm, hnd⟩ := List.nodup_cons.mp h.nodup
  obtain ⟨front, hfront⟩ := h.ready_last.resolve_left (by simp)
  have hlast0 : s.lastCtx ≠ 0#32 := by
    have : s.lastCtx ∈ c :: rest := by rw [hfront]; simp
    exact h.ready_chain.ne_null _ this
  have hactr : s.activeCtx ∉ c :: rest := fun hm => hactm (List.mem_append_left _ hm)
  have hacts : s.activeCtx ∉ sleeping := fun hm => hactm (List.mem_append_right _ hm)
  have hal : s.activeCtx ≠ s.lastCtx := by
    intro e
    apply hactr
    rw [hfront, e]
    simp
  have hrnd : (c :: rest).Nodup := (List.nodup_append.mp hnd).1
  have hlsl : s.lastCtx ∉ sleeping := fun hm =>
    (List.nodup_append.mp hnd).2.2 s.lastCtx (by rw [hfront]; simp) s.lastCtx hm rfl
  -- the ready list with the active context behind its last node, still headed by `c`
  let next₁ := Function.update s.next s.activeCtx 0#32
  let next₂ := Function.update next₁ s.lastCtx s.activeCtx
  have hlong : Chain next₂ 0#32 c (c :: rest ++ [s.activeCtx]) := by
    have h₁ : Chain next₁ 0#32 c (c :: rest) := by
      have := h.ready_chain.update 0#32 hactr
      rwa [hc] at this
    rw [hfront] at h₁ hrnd hactr ⊢
    exact h₁.snoc_update hrnd h.active_ne hactr (by simp [next₁])
  have hsl : Chain next₂ 0#32 s.firstSleepingCtx sleeping :=
    (h.sleeping_chain.update 0#32 hacts).update _ hlsl
  refine ⟨{ s with next := next₂, lastCtx := s.activeCtx, nextCtx := next₂ c, activeCtx := c },
    ?_, rfl, rfl, rfl, hlong.2.2, .inr ⟨rest, rfl⟩, hsl, hc0, ?_⟩
  · simp [Sched.preempt, Sched.setNext, Sched.contextSwitch, hc, hc0, h.active_ne, hlast0,
      next₁, next₂]
  · have hp : (c :: (rest ++ [s.activeCtx] ++ sleeping)).Perm
        (s.activeCtx :: (c :: rest ++ sleeping)) := by
      have := @List.perm_middle _ s.activeCtx (c :: rest) sleeping
      simpa using this
    exact hp.nodup_iff.mpr h.nodup

/-- `preempt` with an empty ready list changes nothing. -/
theorem preempt_empty {s : Sched} {sleeping : List CtxPtr} (h : Lists s [] sleeping) :
    s.preempt = some s := by
  have hnext : s.nextCtx = 0#32 := h.nextCtx_eq_zero_iff.mpr rfl
  simp [Sched.preempt, hnext]

theorem preempt_lists {s : Sched} {ready sleeping : List CtxPtr} (h : Lists s ready sleeping) :
    ∃ s' ready', s.preempt = some s' ∧ Lists s' ready' sleeping ∧
      (s'.activeCtx :: (ready' ++ sleeping)).Perm (s.activeCtx :: (ready ++ sleeping)) := by
  rcases ready with _ | ⟨c, rest⟩
  · exact ⟨s, [], preempt_empty h, h, List.Perm.refl _⟩
  · obtain ⟨s', hs', hact, -, -, hl'⟩ := preempt_rotates h
    refine ⟨s', rest ++ [s.activeCtx], hs', hl', ?_⟩
    rw [hact]
    have := @List.perm_middle _ s.activeCtx (c :: rest) sleeping
    simpa using this

/-- `sleep_millis` puts the active context in front of the sleeping list and activates the head of
    the ready list. -/
theorem sleepMillis_lists {s : Sched} {c : CtxPtr} {rest sleeping : List CtxPtr}
    (h : Lists s (c :: rest) sleeping) (millis : BitVec 32) :
    ∃ s', s.sleepMillis millis = some s' ∧ s'.activeCtx = c ∧
      s'.alarm = Function.update s.alarm s.activeCtx millis ∧
      Lists s' rest (s.activeCtx :: sleeping) := by
  obtain ⟨hactm, hnd⟩ := List.nodup_cons.mp h.nodup
  have hactr : s.activeCtx ∉ c :: rest := fun hm => hactm (List.mem_append_left _ hm)
  have hacts : s.activeCtx ∉ sleeping := fun hm => hactm (List.mem_append_right _ hm)
  obtain ⟨hc, hc0, -⟩ := h.ready_chain
  let s₁ : Sched := { s with
    next := Function.update s.next s.activeCtx s.firstSleepingCtx
    firstSleepingCtx := s.activeCtx
    alarm := Function.update s.alarm s.activeCtx millis }
  have hmid := @List.perm_middle _ s.activeCtx (c :: rest) sleeping
  obtain ⟨hact, hl'⟩ := @schedule_lists s₁ c rest (s.activeCtx :: sleeping)
    (h.ready_chain.update _ hactr) (h.ready_last.resolve_left (by simp))
    (h.sleeping_chain.cons_update h.active_ne hacts) (hmid.nodup_iff.mpr h.nodup)
  refine ⟨s₁.schedule, ?_, hact, ?_, hl'⟩
  · simp [Sched.sleepMillis, Sched.setNext, h.active_ne, s₁]
  · simp [Sched.schedule, Sched.contextSwitch, hc, hc0, s₁]

/-! ## `sleep_tick` -/

theorem wake_head {s : Sched} {c : CtxPtr} (hlast : s.lastCtx ≠ 0#32) (hc : c ≠ 0#32)
    (hne : c ≠ s.lastCtx) :
    s.wake 0#32 c = some { s with
      next := Function.update (Function.update s.next s.lastCtx c) c 0#32
      lastCtx := c
      firstSleepingCtx := s.next c } := by
  simp [Sched.wake, Sched.setNext, Sched.unlinkSleeping, hlast, hc, Function.update_of_ne hne]

theorem wake_behind {s : Sched} {prev c : CtxPtr} (hlast : s.lastCtx ≠ 0#32) (hc : c ≠ 0#32)
    (hprev : prev ≠ 0#32) (hne : c ≠ s.lastCtx) :
    s.wake prev c = some { s with
      next := Function.update (Function.update (Function.update s.next s.lastCtx c) prev (s.next c))
        c 0#32
      lastCtx := c } := by
  simp [Sched.wake, Sched.setNext, Sched.unlinkSleeping, hlast, hc, hprev,
    Function.update_of_ne hne]

/-- Waking the context `c` behind `pre` on the sleeping list moves it to the end of the
    ready list, if that list is not empty. -/
theorem wake_lists {s : Sched} {front pre rest : List CtxPtr} {prev c : CtxPtr}
    (h : Lists s (front ++ [s.lastCtx]) (pre ++ c :: rest))
    (hprev : (pre = [] ∧ prev = 0#32) ∨ ∃ p₀, pre = p₀ ++ [prev]) :
    ∃ s', s.wake prev c = some s' ∧ s'.activeCtx = s.activeCtx ∧ s'.next c = 0#32 ∧
      Lists s' (front ++ [s.lastCtx] ++ [c]) (pre ++ rest) := by
  have hlast : s.lastCtx ≠ 0#32 := h.lastCtx_ne
  have hc : c ≠ 0#32 := h.sleeping_chain.ne_null c (by simp)
  obtain ⟨hactm, hnd⟩ := List.nodup_cons.mp h.nodup
  obtain ⟨hrnd, hsnd, hdisj⟩ := List.nodup_append.mp hnd
  have hcready : c ∉ front ++ [s.lastCtx] := fun hm => hdisj c hm c (by simp) rfl
  have hne : c ≠ s.lastCtx := fun e => hcready (by simp [e])
  have hlsleep : ∀ d ∈ pre ++ c :: rest, d ≠ s.lastCtx := fun d hd e =>
    hdisj d (by simp [e]) d hd rfl
  have hcrest : c ∉ pre ++ rest := by
    have := (@List.perm_middle _ c pre rest).nodup_iff.mp hsnd
    exact (List.nodup_cons.mp this).1
  have hsub : ∀ d ∈ pre ++ rest, d ∈ pre ++ c :: rest := by
    intro d hd
    rcases List.mem_append.mp hd with hd | hd <;> simp [hd]
  have hnodup : (s.activeCtx :: (front ++ [s.lastCtx] ++ [c] ++ (pre ++ rest))).Nodup := by
    have hp : (s.activeCtx :: (front ++ [s.lastCtx] ++ [c] ++ (pre ++ rest))).Perm
        (s.activeCtx :: (front ++ [s.lastCtx] ++ (pre ++ c :: rest))) := by
      refine List.Perm.cons _ ?_
      rw [List.append_assoc _ [c]]
      refine List.Perm.append_left _ ?_
      exact (@List.perm_middle _ c pre rest).symm
    exact hp.nodup_iff.mpr h.nodup
  -- the ready list is the same whatever the sleeping list's links become
  have hready : ∀ next', (∀ d ∈ front ++ [s.lastCtx], next' d =
      Function.update s.next s.lastCtx c d) → next' c = 0#32 →
      Chain next' 0#32 s.nextCtx (front ++ [s.lastCtx] ++ [c]) := by
    intro next' hag hnull
    have h₁ : Chain (Function.update s.next c 0#32) 0#32 s.nextCtx (front ++ [s.lastCtx]) :=
      h.ready_chain.update _ hcready
    refine (h₁.snoc_update hrnd hc hcready (by simp)).congr fun d hd => ?_
    rcases List.mem_append.mp hd with hd | hd
    · rw [hag d hd]
      have hdc : d ≠ c := fun e => hcready (e ▸ hd)
      by_cases hdl : d = s.lastCtx
      · simp [hdl]
      · simp [Function.update_of_ne hdl, Function.update_of_ne hdc]
    · obtain rfl : d = c := by simpa using hd
      simp [hnull, Function.update_of_ne hne]
  rcases hprev with ⟨rfl, rfl⟩ | ⟨p₀, rfl⟩
  · refine ⟨_, wake_head hlast hc hne, rfl, by simp, ?_⟩
    obtain ⟨-, -, hrest⟩ : Chain s.next 0#32 s.firstSleepingCtx (c :: rest) := h.sleeping_chain
    refine ⟨hready _ (fun d hd => ?_) (by simp), .inr ⟨_, rfl⟩, ?_, h.active_ne, hnodup⟩
    · have hdc : d ≠ c := fun e => hcready (e ▸ hd)
      exact Function.update_of_ne hdc _ _
    · exact (hrest.update c fun hm => hlsleep _ (hsub _ hm) rfl).update _ (by simpa using hcrest)
  · have hprev0 : prev ≠ 0#32 := h.sleeping_chain.ne_null prev (by simp)
    refine ⟨_, wake_behind hlast hc hprev0 hne, rfl, by simp, ?_⟩
    have hpready : prev ∉ front ++ [s.lastCtx] := fun hm => hdisj prev hm prev (by simp) rfl
    refine ⟨hready _ (fun d hd => ?_) (by simp), .inr ⟨_, rfl⟩, ?_, h.active_ne, hnodup⟩
    · have hdc : d ≠ c := fun e => hcready (e ▸ hd)
      have hdp : d ≠ prev := fun e => hpready (e ▸ hd)
      simp only [Function.update_of_ne hdc, Function.update_of_ne hdp]
    · have hsl : Chain s.next 0#32 s.firstSleepingCtx (p₀ ++ prev :: c :: rest) := by
        simpa using h.sleeping_chain
      have hun := hsl.unlink_update (by simpa using hsnd)
      have heq : p₀ ++ [prev] ++ rest = p₀ ++ prev :: rest := by simp
      rw [heq] at hcrest hsub ⊢
      refine hun.congr fun d hd => ?_
      have hdl : d ≠ s.lastCtx := hlsleep d (hsub d hd)
      have hdc : d ≠ c := fun e => hcrest (e ▸ hd)
      simp only [Function.update_of_ne hdc]
      by_cases hdp : d = prev
      · simp [hdp]
      · simp only [Function.update_of_ne hdp, Function.update_of_ne hdl]

/-- Lowering an alarm changes neither list. -/
theorem Lists.setAlarm {s : Sched} {ready sleeping : List CtxPtr} (h : Lists s ready sleeping)
    (alarm : CtxPtr → BitVec 32) : Lists { s with alarm } ready sleeping :=
  ⟨h.ready_chain, h.ready_last, h.sleeping_chain, h.active_ne, h.nodup⟩

/-- The loop of `sleep_tick`, standing at `rest` behind `pre`: it returns, and it moves
    contexts from the sleeping list to the ready list only. A wake-up ends the loop, because
    the `next` of the woken context is null by then. -/
theorem sleepTickLoop_lists : ∀ (rest : List CtxPtr) {fuel : Nat} {s : Sched}
    {ready pre : List CtxPtr} {prev c : CtxPtr}, rest.length + 1 < fuel →
    Lists s ready (pre ++ rest) → Chain s.next 0#32 c rest →
    ((pre = [] ∧ prev = 0#32) ∨ ∃ p₀, pre = p₀ ++ [prev]) →
    (ready ≠ [] ∨ ∀ d ∈ rest, s.alarm d ≠ 1#32) →
    ∃ s' ready' sleeping', s.sleepTickLoop fuel prev c = some s' ∧
      s'.activeCtx = s.activeCtx ∧ Lists s' ready' sleeping' ∧
      (ready' ++ sleeping').Perm (ready ++ (pre ++ rest)) ∧ sleeping' ⊆ pre ++ rest
  | [], fuel + 1, s, ready, pre, prev, c, _, h, hc, _, _ => by
      obtain rfl : c = 0#32 := hc
      exact ⟨s, ready, pre ++ [], by simp [Sched.sleepTickLoop], rfl, h, List.Perm.refl _,
        List.Subset.refl _⟩
  | d :: rest, fuel + 1, s, ready, pre, prev, c, hfuel, h, hc, hprev, hwake => by
      obtain ⟨rfl, hc0, hrest⟩ := hc
      have hfuel' : rest.length + 1 < fuel := by
        simp only [List.length_cons] at hfuel
        omega
      let s₁ := { s with alarm := Function.update s.alarm c (s.alarm c - 1#32) }
      have h₁ : Lists s₁ ready (pre ++ c :: rest) := h.setAlarm _
      by_cases hzero : s.alarm c - 1#32 = 0#32
      · have hone : s.alarm c = 1#32 := by
          have := BitVec.sub_add_cancel (s.alarm c) 1#32
          rw [hzero] at this
          simpa using this.symm
        have hready : ready ≠ [] := hwake.resolve_right fun hno => hno c (by simp) hone
        obtain ⟨front, hfront⟩ := h.ready_last.resolve_left hready
        subst hfront
        obtain ⟨s', hw, hact, hnull, hl⟩ := wake_lists (s := s₁) h₁ hprev
        obtain ⟨k, rfl⟩ : ∃ k, fuel = k + 1 := ⟨fuel - 1, by omega⟩
        refine ⟨s', _, _, ?_, hact, hl, ?_, ?_⟩
        · have htick : s.tickCtx prev c = some s' := by
            simpa [Sched.tickCtx, hzero, s₁] using hw
          simp [Sched.sleepTickLoop, hc0, htick, hnull]
        · rw [List.append_assoc _ [c]]
          refine List.Perm.append_left _ ?_
          exact (@List.perm_middle _ c pre rest).symm
        · intro e he
          rcases List.mem_append.mp he with he | he <;> simp [he]
      · have hsplit : pre ++ c :: rest = pre ++ [c] ++ rest := by simp
        rw [hsplit] at h₁ ⊢
        have hwake' : ready ≠ [] ∨ ∀ e ∈ rest, s₁.alarm e ≠ 1#32 := by
          rcases hwake with hr | hno
          · exact .inl hr
          · right
            intro e he
            have hec : e ≠ c := by
              rintro rfl
              have hnd := (List.nodup_append.mp (List.nodup_cons.mp h.nodup).2).2.1
              have := (List.nodup_append.mp hnd).2.1
              exact (List.nodup_cons.mp this).1 he
            simpa [s₁, Function.update_of_ne hec] using hno e (List.mem_cons_of_mem _ he)
        obtain ⟨s', ready', sleeping', hloop, hact, hl, hperm, hsub⟩ :=
          sleepTickLoop_lists rest hfuel' h₁ hrest (.inr ⟨pre, rfl⟩) hwake'
        refine ⟨s', ready', sleeping', ?_, hact, hl, hperm, hsub⟩
        have htick : s.tickCtx prev c = some s₁ := by
          simp [Sched.tickCtx, hzero, s₁]
        rw [Sched.sleepTickLoop, if_neg hc0, htick]
        exact hloop

/-- `sleep_tick` returns, and what it wakes moves from the sleeping list to the ready
    list. -/
theorem sleepTick_lists {s : Sched} {ready sleeping : List CtxPtr} (h : Lists s ready sleeping)
    (hwake : WakeFindsReady s) :
    ∃ s' ready' sleeping', s.sleepTick = some s' ∧ s'.activeCtx = s.activeCtx ∧
      Lists s' ready' sleeping' ∧ (ready' ++ sleeping').Perm (ready ++ sleeping) ∧
      sleeping' ⊆ sleeping := by
  have hlen : sleeping.length ≤ 2 ^ 32 := by
    have hnd := (List.nodup_append.mp (List.nodup_cons.mp h.nodup).2).2.1
    have hinj : (sleeping.map BitVec.toFin).Nodup :=
      hnd.map fun a b hab => BitVec.eq_of_toFin_eq hab
    simpa using List.Nodup.length_le_card hinj
  have hwake' : ready ≠ [] ∨ ∀ d ∈ sleeping, s.alarm d ≠ 1#32 := by
    rcases hwake with hne | hno
    · exact .inl fun e => hne (h.nextCtx_eq_zero_iff.mpr e)
    · exact .inr (hno sleeping h.sleeping_chain)
  have hfuel : sleeping.length + 1 < 2 ^ 64 := by omega
  exact sleepTickLoop_lists sleeping hfuel h h.sleeping_chain (.inl ⟨rfl, rfl⟩) hwake'

/-! ## Whole runs -/

/-- A context other than `idle` that is active leaves `idle` on the ready list, so the ready
    list is not empty. -/
theorem ready_ne_nil {idle : CtxPtr} {r : Run} {ready sleeping : List CtxPtr}
    (hperm : (r.sched.activeCtx :: (ready ++ sleeping)).Perm r.live) (hidle : idle ∉ sleeping)
    (hlive : idle ∈ r.live) (hact : r.sched.activeCtx ≠ idle) : ready ≠ [] := by
  rintro rfl
  rcases List.mem_cons.mp (hperm.mem_iff.mpr hlive) with e | hm
  · exact hact e.symm
  · exact hidle (by simpa using hm)

/-- Every step that satisfies the guard returns and keeps the invariant. -/
theorem step_inv {idle : CtxPtr} {r : Run} {op : Op} (h : Inv idle r) (hk : Keeps idle r op) :
    ∃ r', step r op = some r' ∧ Inv idle r' := by
  obtain ⟨ready, sleeping, hl, hperm, hidle⟩ := h
  obtain ⟨hok, hwake⟩ := hk
  cases op with
  | createContext ctxNew priority =>
      obtain ⟨hne, hnew⟩ := hok
      have hnew' : ctxNew ∉ r.sched.activeCtx :: (ready ++ sleeping) :=
        fun hm => hnew (hperm.mem_iff.mp hm)
      obtain ⟨s', hs', hact, hl'⟩ := createContext_lists priority hl hne hnew'
      refine ⟨⟨s', ctxNew :: r.live⟩, by simp [step, hs'], _, _, hl', ?_, hidle⟩
      have hmid := @List.perm_middle _ ctxNew (r.sched.activeCtx :: ready) sleeping
      rw [hact]
      refine List.Perm.trans ?_ (hperm.cons ctxNew)
      simpa using hmid
  | preempt =>
      obtain ⟨s', ready', hs', hl', hp⟩ := preempt_lists hl
      exact ⟨⟨s', r.live⟩, by simp [step, hs'], ready', sleeping, hl', hp.trans hperm, hidle⟩
  | terminate =>
      have hne := ready_ne_nil hperm hidle hok.1 hok.2
      obtain ⟨c, rest, rfl⟩ := List.exists_cons_of_ne_nil hne
      have hnext : r.sched.nextCtx ≠ 0#32 := fun e => hne (hl.nextCtx_eq_zero_iff.mp e)
      obtain ⟨hact, hl'⟩ := schedule_lists hl.ready_chain
        (hl.ready_last.resolve_left hne) hl.sleeping_chain (List.nodup_cons.mp hl.nodup).2
      refine ⟨_, rfl, rest, sleeping, hl', ?_, hidle⟩
      simp only [Sched.terminate, hact, hnext, ne_eq, not_false_eq_true, if_true]
      have := hperm.erase r.sched.activeCtx
      simpa using this
  | sleepMillis millis =>
      have hne := ready_ne_nil hperm hidle hok.1 hok.2
      obtain ⟨c, rest, rfl⟩ := List.exists_cons_of_ne_nil hne
      obtain ⟨s', hs', hact, -, hl'⟩ := sleepMillis_lists hl millis
      refine ⟨⟨s', r.live⟩, by simp [step, hs'], rest, _, hl', ?_, ?_⟩
      · rw [hact]
        exact (@List.perm_middle _ r.sched.activeCtx (c :: rest) sleeping).trans hperm
      · simp [hidle, Ne.symm hok.2]
  | sleepTick =>
      obtain ⟨s', ready', sleeping', hs', hact, hl', hp, hsub⟩ :=
        sleepTick_lists hl (hwake rfl)
      refine ⟨⟨s', r.live⟩, by simp [step, hs'], ready', sleeping', hl', ?_,
        fun hm => hidle (hsub hm)⟩
      rw [hact]
      exact (hp.cons _).trans hperm

theorem initial_inv (idle : CtxPtr) {s : Sched} {firstCtx : CtxPtr} (hfirst : firstCtx ≠ 0#32)
    (hnext : s.nextCtx = 0#32) (hsleep : s.firstSleepingCtx = 0#32) :
    Inv idle (initial s firstCtx) :=
  ⟨[], [], ⟨hnext, .inl rfl, hsleep, hfirst, by simp⟩, by simp [initial, Sched.initFirstCtx],
    by simp⟩

/-- No context is lost or duplicated in a run whose wake-ups all find a non-empty ready
    list, and no operation of such a run fails to return. -/
theorem contexts_placed (idle : CtxPtr) (next : CtxPtr → CtxPtr) (priority : CtxPtr → BitVec 8)
    (alarm slicesRemaining id : CtxPtr → BitVec 32) (firstCtx : CtxPtr)
    (hfirst : firstCtx ≠ 0#32) (r : Run)
    (hr : Reaches step (Keeps idle)
      (initial (Sched.boot next priority alarm slicesRemaining id) firstCtx) r) :
    Placed r ∧ ∀ op, Keeps idle r op → (step r op).isSome := by
  have hinv : Inv idle r := by
    refine hr.invariant (initial_inv idle hfirst rfl rfl) fun s op s' hs hk hstep => ?_
    obtain ⟨r', hr', hinv'⟩ := step_inv hs hk
    rw [hr'] at hstep
    exact Option.some.inj hstep ▸ hinv'
  refine ⟨inv_placed hinv, fun op hk => ?_⟩
  obtain ⟨r', hr', -⟩ := step_inv hinv hk
  simp [hr']

/-- A boot state with all fields zero and the first context at address 1. -/
def zeroBoot : Run :=
  initial (Sched.boot (fun _ => 0#32) (fun _ => 0#8) (fun _ => 0#32) (fun _ => 0#32)
    fun _ => 0#32) 1#32

/-- The first context is preempted by a second one, comes back when that one sleeps, and
    the ready list is empty when the tick wakes the second one. -/
def lostWakeUp : List Op :=
  [.createContext 2#32 1#8, .preempt, .sleepMillis 1#32, .sleepTick]

/-- With a third context on the ready list the same wake-up puts the second one behind it. -/
theorem contexts_placed_woken : ∃ r, Reaches step (Keeps 1#32) zeroBoot r ∧
    r.sched.activeCtx = 3#32 ∧ r.sched.next 1#32 = 2#32 ∧ r.sched.lastCtx = 2#32 ∧ Placed r := by
  have hrun : (runChecked step (fun r op => Allowed 1#32 r op ∧
      (op = .sleepTick → r.sched.nextCtx ≠ 0#32)) zeroBoot
      [.createContext 2#32 1#8, .createContext 3#32 1#8, .preempt, .sleepMillis 1#32,
        .sleepTick]).any (fun r => decide (r.sched.activeCtx = 3#32 ∧
        r.sched.next 1#32 = 2#32 ∧ r.sched.lastCtx = 2#32)) = true := by decide +kernel
  obtain ⟨r, hr, hobs⟩ := exists_reaches_of_any hrun
  obtain ⟨hact, hnext, hlast⟩ := of_decide_eq_true hobs
  have hr' : Reaches step (Keeps 1#32) zeroBoot r :=
    hr.mono fun s op hok => ⟨hok.1, fun e => .inl (hok.2 e)⟩
  exact ⟨r, hr', hact, hnext, hlast,
    (contexts_placed 1#32 _ _ _ _ _ 1#32 (by decide) r hr').1⟩

/-- The context that slept is live but nowhere: neither active nor on one of the lists. -/
theorem contexts_lost : ¬ ∀ r : Run, Reaches step (Allowed 1#32) zeroBoot r → Placed r := by
  intro hall
  have hrun : (runChecked step (Allowed 1#32) zeroBoot lostWakeUp).any (fun r =>
      decide (r.sched.nextCtx = 0#32 ∧ r.sched.firstSleepingCtx = 0#32 ∧
        r.sched.activeCtx = 1#32 ∧ 2#32 ∈ r.live)) = true := by decide +kernel
  obtain ⟨r, hr, hobs⟩ := exists_reaches_of_any hrun
  obtain ⟨hnext, hsleep, hact, hlive⟩ := of_decide_eq_true hobs
  obtain ⟨ready, sleeping, hc, -, hs, hcount⟩ := hall r hr
  rw [hnext] at hc
  rw [hsleep] at hs
  obtain rfl : ready = [] := hc.eq_null_iff.mp rfl
  obtain rfl : sleeping = [] := hs.eq_null_iff.mp rfl
  have := hcount _ hlive
  simp [hact] at this

end Muse.Scheduler
