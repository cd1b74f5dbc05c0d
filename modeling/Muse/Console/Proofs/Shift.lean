import Mathlib.Logic.Function.Basic
import Muse.Console.Keyboard

/-!
# The shift keys

A keyboard sends the codes of its keys: the make code when a key is pressed and again as long as it
is held, and the break code when it is released. The driver counts the make codes of the shift keys
up and their break codes down. This is the number of held shift keys as long as no shift key repeats
its make code and no code with the prefix `E0` ends like one of a shift key.
-/

namespace Muse.Console

/-- The keys of scan code set 1: those with a code of one byte, those with the prefix `E0`, and
    Pause, which has no break code. -/
inductive Key where
  | plain (code : BitVec 7)
  | extended (code : BitVec 7)
  | pause
  deriving DecidableEq

namespace Key

def leftShift : Key := .plain 0x2A#7

def rightShift : Key := .plain 0x36#7

/-- The make code. -/
def makeCode : Key → List (BitVec 8)
  | .plain code => [code.setWidth 8]
  | .extended code => [0xE0#8, code.setWidth 8]
  | .pause => [0xE1#8, 0x1D#8, 0x45#8, 0xE1#8, 0x9D#8, 0xC5#8]

/-- The break code: the make code with the highest bit of the last byte set. -/
def breakCode : Key → List (BitVec 8)
  | .plain code => [0x80#8 ||| code.setWidth 8]
  | .extended code => [0xE0#8, 0x80#8 ||| code.setWidth 8]
  | .pause => []

/-- The key is one of the two shift keys. -/
def IsShift (k : Key) : Prop :=
  k = leftShift ∨ k = rightShift

/-- The codes of the key end like those of a shift key. -/
def FakeShift (k : Key) : Prop :=
  k = .extended 0x2A#7 ∨ k = .extended 0x36#7

end Key

/-- What happens to a key: it is pressed, or is held and repeated, or it is released. -/
inductive KeyEvent where
  | make (k : Key)
  | release (k : Key)
  deriving DecidableEq

namespace KeyEvent

/-- The codes that the keyboard sends. -/
def codes : KeyEvent → List (BitVec 8)
  | .make k => k.makeCode
  | .release k => k.breakCode

/-- The keys that are held afterwards. -/
def heldAfter (held : Key → Bool) : KeyEvent → Key → Bool
  | .make k => Function.update held k true
  | .release k => Function.update held k false

/-- A key that is not held is not released. -/
def Possible (held : Key → Bool) : KeyEvent → Prop
  | .make _ => True
  | .release k => held k = true

/-- The event is no repetition of a shift key, and its codes are no fake ones. -/
def Clean (held : Key → Bool) : KeyEvent → Prop
  | .make k => (k.IsShift → held k = false) ∧ ¬ k.FakeShift
  | .release k => ¬ k.FakeShift

end KeyEvent

/-- No key is held. -/
def noneHeld : Key → Bool := fun _ => false

/-- A shift key is held. -/
def shiftDown (held : Key → Bool) : Bool :=
  held .leftShift || held .rightShift

/-- Each event has the property `P` of the keys that are held before it. -/
def Along (P : (Key → Bool) → KeyEvent → Prop) : (Key → Bool) → List KeyEvent → Prop
  | _, [] => True
  | held, e :: es => P held e ∧ Along P (e.heldAfter held) es

/-- The states of the driver after each of a row of codes. -/
def codeStates : List (BitVec 8) → KeyboardDriver → List KeyboardDriver
  | [], _ => []
  | code :: codes, s =>
      s.handleKeypressInner code :: codeStates codes (s.handleKeypressInner code)

/-- The state after each code of the events, with the keys that are held then. -/
def runStates : (Key → Bool) → KeyboardDriver → List KeyEvent → List (KeyboardDriver × (Key → Bool))
  | _, _, [] => []
  | held, s, e :: es =>
      (codeStates e.codes s).map (fun t => (t, e.heldAfter held)) ++
        runStates (e.heldAfter held) (e.codes.foldl (fun s code => s.handleKeypressInner code) s) es

/-- The driver knows whether a shift key is held. -/
def Tracks (s : KeyboardDriver) (held : Key → Bool) : Prop :=
  s.shiftHeld ≠ 0#32 ↔ shiftDown held = true

/-- The number of shift keys that are held. -/
def shiftCount (held : Key → Bool) : BitVec 32 :=
  (if held .leftShift then 1#32 else 0#32) + (if held .rightShift then 1#32 else 0#32)

theorem tracks_of_count {s : KeyboardDriver} {held : Key → Bool}
    (h : s.shiftHeld = shiftCount held) : Tracks s held := by
  rw [Tracks, h, shiftCount, shiftDown]
  cases held .leftShift <;> cases held .rightShift <;> decide

/-- The codes that change `shift_held`. -/
def ShiftCode (code : BitVec 8) : Prop :=
  code = 0x2A#8 ∨ code = 0x36#8 ∨ code = 0xAA#8 ∨ code = 0xB6#8

instance : DecidablePred ShiftCode := fun code =>
  inferInstanceAs (Decidable (code = 0x2A#8 ∨ code = 0x36#8 ∨ code = 0xAA#8 ∨ code = 0xB6#8))

section Codes

variable {s : KeyboardDriver} {code : BitVec 8}

theorem handleKeypressInner_shiftHeld (code : BitVec 8) (s : KeyboardDriver) :
    (s.handleKeypressInner code).shiftHeld = (keycodeToCharLower code s.shiftHeld).2 := by
  have hchar : (keycodeToChar code s.shiftHeld).2 = (keycodeToCharLower code s.shiftHeld).2 := by
    unfold keycodeToChar
    dsimp only
    split
    · rfl
    · split <;> rfl
  rw [← hchar]
  unfold KeyboardDriver.handleKeypressInner
  dsimp only
  split <;> rfl

theorem shiftHeld_of_other (h : ¬ ShiftCode code) :
    (s.handleKeypressInner code).shiftHeld = s.shiftHeld := by
  rw [ShiftCode, not_or, not_or, not_or] at h
  obtain ⟨h2A, h36, hAA, hB6⟩ := h
  rw [handleKeypressInner_shiftHeld, keycodeToCharLower, if_neg h2A, if_neg h36, if_neg hAA,
    if_neg hB6]

/-- Codes of other keys leave `shift_held` alone. -/
theorem codeStates_of_other {codes : List (BitVec 8)} (h : ∀ code ∈ codes, ¬ ShiftCode code) :
    (∀ t ∈ codeStates codes s, t.shiftHeld = s.shiftHeld) ∧
      (codes.foldl (fun s code => s.handleKeypressInner code) s).shiftHeld = s.shiftHeld := by
  induction codes generalizing s with
  | nil => exact ⟨fun t ht => absurd ht List.not_mem_nil, rfl⟩
  | cons code codes ih =>
    have hcode := shiftHeld_of_other (s := s) (h code List.mem_cons_self)
    obtain ⟨hstates, hend⟩ := ih (s := s.handleKeypressInner code) fun c hc =>
      h c (List.mem_cons_of_mem code hc)
    constructor
    · intro t ht
      rcases List.mem_cons.mp ht with rfl | ht
      · exact hcode
      · rw [hstates t ht, hcode]
    · rw [List.foldl_cons, hend, hcode]

end Codes

section Keys

variable {k : Key} {held : Key → Bool} {s : KeyboardDriver} {e : KeyEvent}

/-- The last bytes of the codes of other keys. -/
theorem lastCode_other : ∀ code : BitVec 7, code ≠ 0x2A#7 → code ≠ 0x36#7 →
    ¬ ShiftCode (code.setWidth 8) ∧ ¬ ShiftCode (0x80#8 ||| code.setWidth 8) := by
  decide

theorem plain_not_fake (code : BitVec 7) : ¬ (Key.plain code).FakeShift := by
  rintro (h | h)
  · exact Key.noConfusion h
  · exact Key.noConfusion h

/-- The codes of a key that is no shift key, and no fake one, are no shift codes. -/
theorem codes_other (h : ¬ k.IsShift) (hfake : ¬ k.FakeShift) :
    (∀ code ∈ k.makeCode, ¬ ShiftCode code) ∧ ∀ code ∈ k.breakCode, ¬ ShiftCode code := by
  cases k with
  | plain code =>
    have hlast := lastCode_other code (fun heq => h (.inl (heq ▸ rfl)))
      (fun heq => h (.inr (heq ▸ rfl)))
    simpa [Key.makeCode, Key.breakCode] using hlast
  | extended code =>
    have hlast := lastCode_other code (fun heq => hfake (.inl (heq ▸ rfl)))
      (fun heq => hfake (.inr (heq ▸ rfl)))
    have hprefix : ¬ ShiftCode 0xE0#8 := by decide
    simpa [Key.makeCode, Key.breakCode, hprefix] using hlast
  | pause => exact ⟨by decide, fun code hcode => absurd hcode List.not_mem_nil⟩

/-- Other keys do not change the number of held shift keys. -/
theorem shiftCount_update (h : ¬ k.IsShift) (b : Bool) :
    shiftCount (Function.update held k b) = shiftCount held := by
  have hleft : Key.leftShift ≠ k := fun heq => h (.inl heq.symm)
  have hright : Key.rightShift ≠ k := fun heq => h (.inr heq.symm)
  rw [shiftCount, Function.update_of_ne hleft, Function.update_of_ne hright, shiftCount]

/-- A shift key that is pressed is counted. -/
theorem shiftCount_make (h : k.IsShift) (hup : held k = false) :
    shiftCount (Function.update held k true) = shiftCount held + 1#32 := by
  have hne : Key.leftShift ≠ Key.rightShift := by decide
  rcases h with rfl | rfl
  · rw [shiftCount, shiftCount, Function.update_self, Function.update_of_ne hne.symm, hup]
    cases held .rightShift <;> decide
  · rw [shiftCount, shiftCount, Function.update_self, Function.update_of_ne hne, hup]
    cases held .leftShift <;> decide

theorem shiftCount_release (h : k.IsShift) (hdown : held k = true) :
    shiftCount (Function.update held k false) = shiftCount held - 1#32 := by
  have hne : Key.leftShift ≠ Key.rightShift := by decide
  rcases h with rfl | rfl
  · rw [shiftCount, shiftCount, Function.update_self, Function.update_of_ne hne.symm, hdown]
    cases held .rightShift <;> decide
  · rw [shiftCount, shiftCount, Function.update_self, Function.update_of_ne hne, hdown]
    cases held .leftShift <;> decide

/-- The code of a shift key. -/
theorem shiftKey_codes (h : k.IsShift) :
    (∃ code, k.makeCode = [code] ∧
      ∀ s : KeyboardDriver, (s.handleKeypressInner code).shiftHeld = s.shiftHeld + 1#32) ∧
    ∃ code, k.breakCode = [code] ∧
      ∀ s : KeyboardDriver, (s.handleKeypressInner code).shiftHeld = s.shiftHeld - 1#32 := by
  rcases h with rfl | rfl
  · exact ⟨⟨0x2A#8, rfl, fun s => handleKeypressInner_shiftHeld _ s⟩,
      ⟨0xAA#8, rfl, fun s => handleKeypressInner_shiftHeld _ s⟩⟩
  · exact ⟨⟨0x36#8, rfl, fun s => handleKeypressInner_shiftHeld _ s⟩,
      ⟨0xB6#8, rfl, fun s => handleKeypressInner_shiftHeld _ s⟩⟩

/-- `shift_held` is the number of held shift keys, in all states that the codes lead to. -/
def Counts (codes : List (BitVec 8)) (s : KeyboardDriver) (held : Key → Bool) : Prop :=
  (∀ t ∈ codeStates codes s, t.shiftHeld = shiftCount held) ∧
    (codes.foldl (fun s code => s.handleKeypressInner code) s).shiftHeld = shiftCount held

theorem counts_singleton {code : BitVec 8}
    (h : (s.handleKeypressInner code).shiftHeld = shiftCount held) : Counts [code] s held := by
  refine ⟨fun t ht => ?_, h⟩
  rw [codeStates, codeStates, List.mem_singleton] at ht
  rw [ht, h]

/-- An event that is no repetition and no fake keeps the count. -/
theorem event_counts (hs : s.shiftHeld = shiftCount held) (hpossible : e.Possible held)
    (hclean : e.Clean held) : Counts e.codes s (e.heldAfter held) := by
  cases e with
  | make k =>
    obtain ⟨hfirst, hfake⟩ := hclean
    by_cases hk : k.IsShift
    · obtain ⟨⟨code, hcode, hup⟩, -⟩ := shiftKey_codes hk
      rw [KeyEvent.codes, hcode]
      apply counts_singleton
      rw [hup, hs, KeyEvent.heldAfter, shiftCount_make hk (hfirst hk)]
    · obtain ⟨hstates, hend⟩ := codeStates_of_other (s := s) (codes_other hk hfake).1
      rw [Counts, KeyEvent.heldAfter, shiftCount_update hk, ← hs]
      exact ⟨hstates, hend⟩
  | release k =>
    by_cases hk : k.IsShift
    · obtain ⟨-, code, hcode, hdown⟩ := shiftKey_codes hk
      rw [KeyEvent.codes, hcode]
      apply counts_singleton
      rw [hdown, hs, KeyEvent.heldAfter, shiftCount_release hk hpossible]
    · obtain ⟨hstates, hend⟩ := codeStates_of_other (s := s) (codes_other hk hclean).2
      rw [Counts, KeyEvent.heldAfter, shiftCount_update hk, ← hs]
      exact ⟨hstates, hend⟩

end Keys

/-- A run of events. -/
theorem runStates_count {held : Key → Bool} {s : KeyboardDriver} {events : List KeyEvent}
    (hs : s.shiftHeld = shiftCount held)
    (hpossible : Along (fun held e => e.Possible held) held events)
    (hclean : Along (fun held e => e.Clean held) held events) :
    ∀ p ∈ runStates held s events, p.1.shiftHeld = shiftCount p.2 := by
  induction events generalizing held s with
  | nil => exact fun p hp => absurd hp List.not_mem_nil
  | cons e es ih =>
    obtain ⟨hstates, hend⟩ := event_counts hs hpossible.1 hclean.1
    intro p hp
    rcases List.mem_append.mp hp with hp | hp
    · obtain ⟨t, ht, rfl⟩ := List.mem_map.mp hp
      exact hstates t ht
    · exact ih hend hpossible.2 hclean.2 p hp

theorem shift_tracked {events : List KeyEvent} (typed : List (BitVec 8))
    (hpossible : Along (fun held e => e.Possible held) noneHeld events)
    (hclean : Along (fun held e => e.Clean held) noneHeld events) :
    ∀ p ∈ runStates noneHeld ⟨0#32, typed⟩ events, Tracks p.1 p.2 := by
  intro p hp
  apply tracks_of_count
  exact runStates_count rfl hpossible hclean p hp

/-- Both shift keys, pressed and released one after the other. -/
theorem shift_tracked_both :
    (runStates noneHeld ⟨0#32, []⟩ [.make .leftShift, .make .rightShift, .release .leftShift,
      .release .rightShift]).length = 4 ∧
    ∀ p ∈ runStates noneHeld ⟨0#32, []⟩ [.make .leftShift, .make .rightShift, .release .leftShift,
      .release .rightShift], Tracks p.1 p.2 :=
  ⟨rfl, shift_tracked [] ⟨trivial, trivial, rfl, rfl, trivial⟩
    ⟨⟨fun _ => rfl, plain_not_fake _⟩, ⟨fun _ => rfl, plain_not_fake _⟩, plain_not_fake _,
      plain_not_fake _, trivial⟩⟩

/-- The left shift key repeats its make code once, and is released: the codes are `2A 2A AA`. -/
theorem shift_repeated :
    ¬ ∀ events : List KeyEvent, Along (fun held e => e.Possible held) noneHeld events →
      ∀ p ∈ runStates noneHeld ⟨0#32, []⟩ events, Tracks p.1 p.2 := by
  intro h
  have hrun := h [.make .leftShift, .make .leftShift, .release .leftShift]
    ⟨trivial, trivial, rfl, trivial⟩
  have hlast := hrun
    (((KeyboardDriver.handleKeypressInner 0x2A#8 ⟨0#32, []⟩).handleKeypressInner
      0x2A#8).handleKeypressInner 0xAA#8, KeyEvent.heldAfter
        (KeyEvent.heldAfter (KeyEvent.heldAfter noneHeld (.make .leftShift)) (.make .leftShift))
        (.release .leftShift))
    (List.mem_append_right _ (List.mem_append_right _ (List.mem_append_left _
      (List.mem_singleton.mpr rfl))))
  exact absurd (hlast.mp (by decide)) (by decide)

end Muse.Console
