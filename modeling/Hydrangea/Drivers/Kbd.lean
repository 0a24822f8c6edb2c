import Mathlib.Tactic

/-! The key states of `kernel/drivers/kbd.c`, under interrupts and `kbd_get`. -/

namespace Hydrangea

/-- The globals of `kbd.c`; the layouts are arrays of characters. -/
structure Kbd where
  keyStates : Nat → UInt8
  lastKey : UInt8
  curLayout : Nat → UInt8
  curLayoutCap : Nat → UInt8

namespace Kbd

/-- `kbd_event`, with the scancode that it reads from the port: the globals afterwards, and the
character that it writes to the file of the foreground task if there is one.
-/
def kbdEvent (s : Kbd) (fgTask : Bool) (scancode : UInt8) : Kbd × Option UInt8 :=
  let s := { s with
    keyStates := Function.update s.keyStates (scancode &&& 0xF).toNat
      (if scancode &&& 0x80 = 0 then 1 else 0) }
  if scancode &&& 0x80 ≠ 0 then
    (s, none)
  else
    let s := { s with lastKey := scancode }
    (s, if fgTask then some (s.curLayout s.lastKey.toNat) else none)

/-- The loop of `kbd_keydown`, with the `key` found so far. -/
def keydownFrom (s : Kbd) (i key : Nat) : Nat :=
  if i < 128 then
    if s.keyStates i ≠ 0 then
      if i ≠ 0xA then i else keydownFrom s (i + 1) i
    else
      keydownFrom s (i + 1) key
  else
    key
termination_by 128 - i

def kbdKeydown (s : Kbd) : UInt8 :=
  UInt8.ofNat (s.keydownFrom 0 0xFF)

/-- `kbd_get`: the character, and the globals afterwards. -/
def kbdGet (s : Kbd) : UInt8 × Kbd :=
  let c :=
    if s.keyStates 0xA ≠ 0 then s.curLayoutCap s.lastKey.toNat else s.curLayout s.lastKey.toNat
  (c, { s with keyStates := Function.update s.keyStates (s.lastKey &&& 0xF).toNat 0 })

/-- What happens to the keyboard. -/
inductive Call where
  | event (fgTask : Bool) (scancode : UInt8)
  | get

/-- The globals after some calls, the latest one first. -/
def run (s : Kbd) : List Call → Kbd
  | [] => s
  | .event fgTask scancode :: earlier => ((run s earlier).kbdEvent fgTask scancode).1
  | .get :: earlier => (run s earlier).kbdGet.2

-----------------------------------------------------------------------------------------
-- Histories
-----------------------------------------------------------------------------------------

def press (scancode : UInt8) : Bool :=
  scancode &&& 0x80 = 0

def key (scancode : UInt8) : Nat :=
  (scancode &&& 0x7F).toNat

def held (k : Nat) : List Call → Bool
  | [] => false
  | .event _ scancode :: earlier => if key scancode = k then press scancode else held k earlier
  | .get :: earlier => held k earlier

def lastPress (start : UInt8) : List Call → UInt8
  | [] => start
  | .event _ scancode :: earlier => if press scancode then scancode else lastPress start earlier
  | .get :: earlier => lastPress start earlier

/-- The last event among the keys with the same low four bits was a press, and no `kbd_get` cleared
its state after it.
-/
def slotSet (start : UInt8) (k : Nat) : List Call → Bool
  | [] => false
  | .event _ scancode :: earlier =>
      if (scancode &&& 0xF).toNat = k then press scancode else slotSet start k earlier
  | .get :: earlier =>
      if (lastPress start earlier &&& 0xF).toNat = k then false else slotSet start k earlier

def Idle (s : Kbd) : Prop :=
  ∀ k, s.keyStates k = 0

variable {s : Kbd}

/-- A state tells whether its key is down. -/
theorem state_inj : ∀ a b : Bool, ((if a then 1 else 0 : UInt8) = if b then 1 else 0) ↔ a = b := by
  decide

theorem kbdEvent_fst (s : Kbd) (fgTask : Bool) (scancode : UInt8)
    : (s.kbdEvent fgTask scancode).1
      = { s with
          keyStates := Function.update s.keyStates (scancode &&& 0xF).toNat
            (if press scancode then 1 else 0)
          lastKey := if press scancode then scancode else s.lastKey } := by
  rw [kbdEvent, press]
  by_cases pressed : scancode &&& 0x80 = 0 <;> simp [pressed]

/-- The last key pressed, by induction on the calls. -/
theorem lastKey_run (s : Kbd) (calls : List Call)
    : (s.run calls).lastKey = lastPress s.lastKey calls := by
  induction calls with
  | nil => rfl
  | cons call earlier ih =>
      cases call with
      | event fgTask scancode => rw [run, kbdEvent_fst, lastPress, ← ih]
      | get => exact ih

/-- The low four bits of a scancode. -/
theorem toNat_and_15 (scancode : UInt8) : (scancode &&& 0xF).toNat = scancode.toNat % 16 := by
  rw [UInt8.toNat_and]
  exact Nat.and_two_pow_sub_one_eq_mod _ 4

theorem key_eq (scancode : UInt8) : key scancode = scancode.toNat % 128 := by
  rw [key, UInt8.toNat_and]
  exact Nat.and_two_pow_sub_one_eq_mod _ 7

/-- Only 16 states are ever set, each by the keys with its low four bits, by induction on the calls.
-/
theorem keyStates_run (idle : s.Idle) (k : Nat) (calls : List Call)
    : (s.run calls).keyStates k = if slotSet s.lastKey k calls then 1 else 0 := by
  induction calls with
  | nil => exact idle k
  | cons call earlier ih =>
      cases call with
      | event fgTask scancode =>
          rw [run, kbdEvent_fst, slotSet]
          dsimp only
          by_cases same : (scancode &&& 0xF).toNat = k
          · rw [if_pos same, ← same, Function.update_self]
          · rw [if_neg same, Function.update_of_ne (Ne.symm same), ih]
      | get =>
          rw [run, kbdGet, slotSet, lastKey_run]
          dsimp only
          by_cases same : (lastPress s.lastKey earlier &&& 0xF).toNat = k
          · rw [if_pos same, ← same, Function.update_self]
            rfl
          · rw [if_neg same, Function.update_of_ne (Ne.symm same), ih]

/-- A state that is set is the one of a held key with its low four bits, by induction on the calls.
-/
theorem exists_held {start : UInt8} {k : Nat} {calls : List Call} (set : slotSet start k calls)
    : ∃ k' < 128, k' % 16 = k ∧ held k' calls := by
  induction calls with
  | nil => cases set
  | cons call earlier ih =>
      cases call with
      | event fgTask scancode =>
          rw [slotSet, toNat_and_15] at set
          by_cases same : scancode.toNat % 16 = k
          · rw [if_pos same] at set
            refine ⟨key scancode, ?_, ?_, by rwa [held, if_pos rfl]⟩
            · rw [key_eq]
              omega
            · rw [key_eq]
              omega
          · rw [if_neg same] at set
            obtain ⟨k', below, low, isHeld⟩ := ih set
            refine ⟨k', below, low, ?_⟩
            rw [held, if_neg, isHeld]
            rintro rfl
            rw [key_eq] at low
            omega
      | get =>
          rw [slotSet] at set
          split at set
          · cases set
          · exact ih set

/-- `kbd_keydown` goes on to find a key, by induction on the keys left. -/
theorem keydownFrom_eq_iff (s : Kbd) (i key : Nat)
    : s.keydownFrom i key = 0xFF ↔ key = 0xFF ∧ ∀ j, i ≤ j → j < 128 → s.keyStates j = 0 := by
  fun_induction keydownFrom s i key with
  | case1 i key inside down other =>
      refine iff_of_false (by omega) (fun h => ?_)
      exact down (h.2 i (le_refl i) inside)
  | case2 i key inside down shift ih =>
      rw [ih]
      refine iff_of_false (fun h => by omega) (fun h => ?_)
      exact down (h.2 i (le_refl i) inside)
  | case3 i key inside up ih =>
      rw [ih]
      refine and_congr_right (fun _ => ⟨fun h j low high => ?_, fun h j low => h j (by omega)⟩)
      rcases Nat.eq_or_lt_of_le low with rfl | further
      · exact not_not.mp up
      · exact h j further high
  | case4 i key outside =>
      exact (and_iff_left (fun j low high => absurd high (by omega))).symm

/-- `kbd_keydown` returns a byte, by induction on the keys left. -/
theorem keydownFrom_lt (s : Kbd) {i key : Nat} (small : key < 256) : s.keydownFrom i key < 256 := by
  fun_induction keydownFrom s i key with
  | case1 i key inside down other => omega
  | case2 i key inside down shift ih => exact ih (by omega)
  | case3 i key inside up ih => exact ih small
  | case4 => exact small

/-- `kbd_keydown` reports a key just when a state is set. -/
theorem kbdKeydown_ne_iff (s : Kbd) : s.kbdKeydown ≠ 0xFF ↔ ∃ k < 128, s.keyStates k ≠ 0 := by
  have byte := keydownFrom_lt s (i := 0) (show 0xFF < 256 by decide)
  have same : s.kbdKeydown = 0xFF ↔ s.keydownFrom 0 0xFF = 0xFF := by
    rw [kbdKeydown, ← UInt8.toNat_inj, UInt8.toNat_ofNat']
    exact ⟨fun h => (Nat.mod_eq_of_lt byte).symm.trans h, fun h => by rw [h]; rfl⟩
  rw [Ne, same, keydownFrom_eq_iff]
  simp

def StatesRecord (s : Kbd) (calls : List Call) : Prop :=
  ∀ k < 128, (s.run calls).keyStates k ≠ 0 ↔ held k calls

/-- `kbd_keydown` reports a key just when one is held. -/
def KeydownReports (s : Kbd) (calls : List Call) : Prop :=
  (s.run calls).kbdKeydown ≠ 0xFF ↔ ∃ k < 128, held k calls

/-- The next event changes the state of its own key only. -/
def KeepsOthers (s : Kbd) (calls : List Call) (fgTask : Bool) (scancode : UInt8) : Prop :=
  ∀ k < 128, k ≠ key scancode →
    (s.run (.event fgTask scancode :: calls)).keyStates k = (s.run calls).keyStates k

/-- The states tell which keys are held if every held key is one of the first sixteen, and its
state was not changed by another key or by `kbd_get` since, and in no other case. `kbd_keydown`
reports a key just when one is held if the state of one is set then, and in no other case. An event
changes the state of its own key only if this is one of the first sixteen, or the state that the
event sets does not change, and in no other case. The state of a slot is what the last event of the
keys that share it has left, by induction on the calls; all three parts compare that with the keys
held.
-/
theorem run_records_iff (idle : s.Idle) (calls : List Call)
    : (StatesRecord s calls ↔ ∀ k < 128, held k calls → k < 16 ∧ slotSet s.lastKey k calls)
      ∧ (KeydownReports s calls
        ↔ ((∃ k < 128, held k calls) → ∃ k < 16, slotSet s.lastKey k calls))
      ∧ ∀ fgTask scancode, KeepsOthers s calls fgTask scancode
        ↔ key scancode < 16 ∨ slotSet s.lastKey (key scancode % 16) calls = press scancode := by
  have set (k : Nat) : (s.run calls).keyStates k ≠ 0 ↔ slotSet s.lastKey k calls := by
    rw [keyStates_run idle]
    cases slotSet s.lastKey k calls <;> simp
  have low {k : Nat} (isSet : slotSet s.lastKey k calls) : k < 16 := by
    obtain ⟨k', -, rfl, -⟩ := exists_held isSet
    exact Nat.mod_lt _ (by decide)
  refine ⟨?_, ?_, fun fgTask scancode => ?_⟩
  · constructor
    · intro records k below isHeld
      have isSet := (set k).mp ((records k below).mpr isHeld)
      exact ⟨low isSet, isSet⟩
    · intro recorded k below
      rw [set]
      refine ⟨fun isSet => ?_, fun isHeld => (recorded k below isHeld).2⟩
      obtain ⟨k', below', same, isHeld⟩ := exists_held isSet
      have := (recorded k' below' isHeld).1
      rwa [← same, Nat.mod_eq_of_lt this]
  · have reported : (s.run calls).kbdKeydown ≠ 0xFF ↔ ∃ k < 16, slotSet s.lastKey k calls := by
      rw [kbdKeydown_ne_iff]
      constructor
      · exact fun ⟨k, _, isSet⟩ => ⟨k, low ((set k).mp isSet), (set k).mp isSet⟩
      · exact fun ⟨k, below, isSet⟩ => ⟨k, by omega, (set k).mpr isSet⟩
    rw [KeydownReports, reported]
    constructor
    · exact fun reports => reports.mpr
    · refine fun reports => ⟨fun ⟨k, _, isSet⟩ => ?_, reports⟩
      obtain ⟨k', below, -, isHeld⟩ := exists_held isSet
      exact ⟨k', below, isHeld⟩
  · have slot : (scancode &&& 0xF).toNat = key scancode % 16 := by
      rw [toNat_and_15, key_eq]
      omega
    have after (k : Nat) : (s.run (.event fgTask scancode :: calls)).keyStates k
        = if key scancode % 16 = k then (if press scancode then 1 else 0)
          else (s.run calls).keyStates k := by
      rw [keyStates_run idle, slotSet, slot, keyStates_run idle]
      split <;> rfl
    constructor
    · intro keeps
      by_contra neither
      obtain ⟨large, changes⟩ := not_or.mp neither
      have kept := keeps (key scancode % 16) (by omega) (by omega)
      rw [after, if_pos rfl, keyStates_run idle] at kept
      exact changes ((state_inj _ _).mp kept).symm
    · intro either k below other
      rw [after]
      split
      · next same =>
          rcases either with small | unchanged
          · exact absurd same (by omega)
          · rw [keyStates_run idle, ← same, unchanged]
      · rfl

/-- The globals before the first interrupt, for some layouts. -/
def initial (curLayout curLayoutCap : Nat → UInt8) : Kbd :=
  ⟨fun _ => 0, 0, curLayout, curLayoutCap⟩

/-- The keys 2 and 3 are pressed, 3 is released, `kbd_get` is called and 4 is pressed, latest first.
-/
def twoKeys : List Call :=
  [.event true 4, .get, .event false 0x83, .event false 3, .event false 2]

/-- The states tell that 2 and 4 are held, and a release of 2 would change no other one. -/
theorem run_records_iff_twoKeys
    : StatesRecord (initial (fun _ => 0) (fun _ => 0)) twoKeys
      ∧ KeydownReports (initial (fun _ => 0) (fun _ => 0)) twoKeys
      ∧ KeepsOthers (initial (fun _ => 0) (fun _ => 0)) twoKeys false 0x82 := by
  obtain ⟨states, keydown, others⟩ :=
    run_records_iff (s := initial (fun _ => 0) (fun _ => 0)) (fun _ => rfl) twoKeys
  refine ⟨states.mpr ?_, keydown.mpr (fun _ => ⟨2, by decide, by decide⟩), ?_⟩
  · decide +kernel
  · exact (others false 0x82).mpr (.inl (by decide))

/-- A press of the key 16 is recorded for the key 0. -/
theorem run_not_records
    : ¬ ∀ (s : Kbd) (calls : List Call), s.Idle → StatesRecord s calls := by
  intro always
  have records := always (initial (fun _ => 0) (fun _ => 0)) [.event false 16] (fun _ => rfl)
  exact absurd ((records 16 (by decide)).mpr (by decide)) (by decide)

end Kbd

end Hydrangea
