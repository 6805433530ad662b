import BadOS.Kernel.Keyboard
import BadOS.Libc.Printf

/-! # The shift state

`isr33_handler` keeps one flag for two shift keys. The flag agrees with the keys as
long as neither of them is released while the other one is held down.
-/

namespace BadOS.Kernel

open Libc

/-- `kbd_us`, without the zeros at its end. -/
def kbdUs : List UInt8 :=
  [0, 27] ++ ascii "1234567890-=\x08\tqwertyuiop[]\n" ++ [0] ++ ascii "asdfghjkl;'`" ++ [0] ++
    ascii "\\zxcvbnm,./" ++ [0] ++ ascii "*" ++ [0] ++ ascii " " ++ List.replicate 16 0 ++
    ascii "-" ++ List.replicate 3 0 ++ ascii "+"

/-- `kbd_us_shift`, without the zeros at its end. -/
def kbdUsShift : List UInt8 :=
  [0, 27] ++ ascii "!@#$%^&*()_+\x08\tQWERTYUIOP\x7b\x7d\n" ++ [0] ++
    ascii "ASDFGHJKL:\"~" ++ [0] ++ ascii "|ZXCVBNM<>?"

/-- The entry of the table for a shift state. -/
def translate (shift : Bool) (scancode : UInt8) : UInt8 :=
  (if shift then kbdUsShift else kbdUs).getD scancode.toNat 0

/-- `shift_pressed`, the queue and what was printed on the terminal. -/
structure KeyboardIsr where
  shiftPressed : Bool
  keyboard : Keyboard
  terminal : List UInt8

namespace KeyboardIsr

def isr33Handler (s : KeyboardIsr) (scancode : UInt8) : KeyboardIsr :=
  if scancode = 0x2A ∨ scancode = 0x36 then { s with shiftPressed := true }
  else if scancode = 0xAA ∨ scancode = 0xB6 then { s with shiftPressed := false }
  else if scancode &&& 0x80 = 0 then
    let c := translate s.shiftPressed scancode
    if c ≠ 0 then
      { s with keyboard := s.keyboard.keyboardPush c, terminal := s.terminal ++ [c] }
    else s
  else s

end KeyboardIsr

/-! ## Keys -/

/-- A key is known by the scancode of its press. A key that is held down is pressed
again by the auto-repeat. -/
inductive KeyEvent
  | press (key : Fin 128)
  | release (key : Fin 128)
deriving DecidableEq

def leftShift : Fin 128 := 0x2A

def rightShift : Fin 128 := 0x36

namespace KeyEvent

def scancode : KeyEvent → UInt8
  | press key => UInt8.ofNat key
  | release key => UInt8.ofNat (key + 0x80)

/-- The keys that are down after an event. -/
def apply (held : Finset (Fin 128)) : KeyEvent → Finset (Fin 128)
  | press key => insert key held
  | release key => held.erase key

end KeyEvent

/-- The keys that are down after a sequence of events. -/
def heldKeys (events : List KeyEvent) : Finset (Fin 128) := events.foldl KeyEvent.apply ∅

/-- Only keys that are down are released. -/
def Physical (held : Finset (Fin 128)) : List KeyEvent → Prop
  | [] => True
  | .press key :: events => Physical (insert key held) events
  | .release key :: events => key ∈ held ∧ Physical (held.erase key) events

instance decidablePhysical : ∀ held events, Decidable (Physical held events)
  | _, [] => inferInstanceAs (Decidable True)
  | held, .press key :: events => decidablePhysical (insert key held) events
  | held, .release key :: events =>
      have := decidablePhysical (held.erase key) events
      inferInstanceAs (Decidable (key ∈ held ∧ Physical (held.erase key) events))

/-- One of the shift keys is down. -/
def ShiftHeld (events : List KeyEvent) : Prop :=
  leftShift ∈ heldKeys events ∨ rightShift ∈ heldKeys events

instance (events : List KeyEvent) : Decidable (ShiftHeld events) :=
  inferInstanceAs (Decidable (_ ∨ _))

namespace KeyboardIsr

/-- No shift key has been pressed yet. -/
def boot (keyboard : Keyboard) (terminal : List UInt8) : KeyboardIsr := ⟨false, keyboard, terminal⟩

/-- The handler has processed the scancodes of a sequence of events. -/
def handle (s : KeyboardIsr) (events : List KeyEvent) : KeyboardIsr :=
  events.foldl (fun s event => s.isr33Handler event.scancode) s

/-- The flag is right after every event, and every key is translated with the table
for the shift keys that are down. -/
structure Tracks (s : KeyboardIsr) (events : List KeyEvent) : Prop where
  shiftPressed_iff : ∀ before, before <+: events →
    ((s.handle before).shiftPressed = true ↔ ShiftHeld before)
  translated : ∀ before key, before ++ [KeyEvent.press key] <+: events →
    key ≠ leftShift → key ≠ rightShift →
    let c := translate (decide (ShiftHeld before)) (KeyEvent.press key).scancode
    (s.handle (before ++ [.press key])).terminal =
        (s.handle before).terminal ++ (if c = 0 then [] else [c]) ∧
      (s.handle (before ++ [.press key])).keyboard =
        if c = 0 then (s.handle before).keyboard else (s.handle before).keyboard.keyboardPush c

/-- No shift key is released while the other one is down. -/
def Separate (events : List KeyEvent) : Prop :=
  ∀ before key other, before ++ [KeyEvent.release key] <+: events →
    key = leftShift ∧ other = rightShift ∨ key = rightShift ∧ other = leftShift →
    other ∉ heldKeys before

variable {s : KeyboardIsr} {events before : List KeyEvent} {key other : Fin 128} {event : KeyEvent}

/-! ## One event -/

theorem handle_concat : s.handle (before ++ [event]) =
    (s.handle before).isr33Handler event.scancode :=
  List.foldl_concat _ _ _ _

theorem heldKeys_concat : heldKeys (before ++ [event]) = event.apply (heldKeys before) :=
  List.foldl_concat _ _ _ _

/-- The key is one of the shift keys. -/
def IsShift (key : Fin 128) : Prop := key = leftShift ∨ key = rightShift

instance (key : Fin 128) : Decidable (IsShift key) := inferInstanceAs (Decidable (_ ∨ _))

theorem scancode_press (key : Fin 128) :
    ((KeyEvent.press key).scancode = 0x2A ∨ (KeyEvent.press key).scancode = 0x36 ↔ IsShift key) ∧
      ¬ ((KeyEvent.press key).scancode = 0xAA ∨ (KeyEvent.press key).scancode = 0xB6) ∧
      (KeyEvent.press key).scancode &&& 0x80 = 0 := by
  decide +revert

theorem scancode_release (key : Fin 128) :
    ¬ ((KeyEvent.release key).scancode = 0x2A ∨ (KeyEvent.release key).scancode = 0x36) ∧
      ((KeyEvent.release key).scancode = 0xAA ∨ (KeyEvent.release key).scancode = 0xB6 ↔
        IsShift key) ∧
      (KeyEvent.release key).scancode &&& 0x80 ≠ 0 := by
  decide +revert

theorem press_shift (hkey : IsShift key) :
    s.isr33Handler (KeyEvent.press key).scancode = { s with shiftPressed := true } := by
  unfold isr33Handler
  rw [if_pos ((scancode_press key).1.mpr hkey)]

theorem press_other (hkey : ¬ IsShift key) :
    let c := translate s.shiftPressed (KeyEvent.press key).scancode
    s.isr33Handler (KeyEvent.press key).scancode =
      if c ≠ 0 then
        { s with keyboard := s.keyboard.keyboardPush c, terminal := s.terminal ++ [c] }
      else s := by
  obtain ⟨hshift, hrelease, hbit⟩ := scancode_press key
  unfold isr33Handler
  rw [if_neg (mt hshift.mp hkey), if_neg hrelease, if_pos hbit]

theorem release_shift (hkey : IsShift key) :
    s.isr33Handler (KeyEvent.release key).scancode = { s with shiftPressed := false } := by
  obtain ⟨hpress, hshift, -⟩ := scancode_release key
  unfold isr33Handler
  rw [if_neg hpress, if_pos (hshift.mpr hkey)]

theorem release_other (hkey : ¬ IsShift key) :
    s.isr33Handler (KeyEvent.release key).scancode = s := by
  obtain ⟨hpress, hshift, hbit⟩ := scancode_release key
  unfold isr33Handler
  rw [if_neg hpress, if_neg (mt hshift.mp hkey), if_neg hbit]

theorem shiftPressed_press_other (hkey : ¬ IsShift key) :
    (s.isr33Handler (KeyEvent.press key).scancode).shiftPressed = s.shiftPressed := by
  rw [press_other hkey]
  split <;> rfl

/-! ## The flag -/

theorem Separate.shiftPressed_iff (hinit : s.shiftPressed = false) (hseparate : Separate events)
    (hbefore : before <+: events) :
    (s.handle before).shiftPressed = true ↔ ShiftHeld before := by
  induction before using List.reverseRecOn with
  | nil =>
      change s.shiftPressed = true ↔ _
      simp [hinit, ShiftHeld, heldKeys]
  | append_singleton before event ih =>
      have hflag := ih ((List.prefix_append before [event]).trans hbefore)
      unfold ShiftHeld at hflag ⊢
      rw [handle_concat, heldKeys_concat]
      cases event with
      | press key =>
          by_cases hkey : IsShift key
          · rw [press_shift hkey]
            unfold IsShift at hkey
            simp only [KeyEvent.apply, Finset.mem_insert, true_iff]
            tauto
          · rw [shiftPressed_press_other hkey, hflag]
            unfold IsShift at hkey
            simp only [KeyEvent.apply, Finset.mem_insert]
            tauto
      | release key =>
          by_cases hkey : IsShift key
          · rw [release_shift hkey]
            refine iff_of_false Bool.false_ne_true ?_
            rcases hkey with rfl | rfl
            · have hother := hseparate before leftShift rightShift hbefore (Or.inl ⟨rfl, rfl⟩)
              rintro (h | h)
              · exact Finset.notMem_erase _ _ h
              · exact hother (Finset.mem_of_mem_erase h)
            · have hother := hseparate before rightShift leftShift hbefore (Or.inr ⟨rfl, rfl⟩)
              rintro (h | h)
              · exact hother (Finset.mem_of_mem_erase h)
              · exact Finset.notMem_erase _ _ h
          · rw [release_other hkey, hflag]
            unfold IsShift at hkey
            simp only [KeyEvent.apply, Finset.mem_erase]
            tauto

/-- A shift key that is released while the other one is down clears the flag. -/
theorem separate_of_shiftPressed_iff
    (hflag : ∀ before, before <+: events →
      ((s.handle before).shiftPressed = true ↔ ShiftHeld before)) : Separate events := by
  intro before key other hbefore hkeys hheld
  have hkey : IsShift key := hkeys.imp And.left And.left
  have hcleared := hflag _ hbefore
  rw [handle_concat, release_shift hkey] at hcleared
  have hdown : other ∈ heldKeys (before ++ [.release key]) := by
    rw [heldKeys_concat]
    refine Finset.mem_erase.mpr ⟨?_, hheld⟩
    rintro rfl
    rcases hkeys with ⟨hleft, hright⟩ | ⟨hright, hleft⟩ <;>
      exact absurd (hleft.symm.trans hright) (by decide)
  have hother : IsShift other := hkeys.symm.imp And.right And.right
  refine absurd (hcleared.mpr (hother.imp ?_ ?_)) Bool.false_ne_true
  · exact fun h => h ▸ hdown
  · exact fun h => h ▸ hdown

theorem translated_of_shiftPressed_iff
    (hflag : ∀ before, before <+: events →
      ((s.handle before).shiftPressed = true ↔ ShiftHeld before))
    (hbefore : before ++ [.press key] <+: events) (hkey : ¬ IsShift key) :
    let c := translate (decide (ShiftHeld before)) (KeyEvent.press key).scancode
    (s.handle (before ++ [.press key])).terminal =
        (s.handle before).terminal ++ (if c = 0 then [] else [c]) ∧
      (s.handle (before ++ [.press key])).keyboard =
        if c = 0 then (s.handle before).keyboard
        else (s.handle before).keyboard.keyboardPush c := by
  have hshift : (s.handle before).shiftPressed = decide (ShiftHeld before) := by
    rw [Bool.eq_iff_iff, decide_eq_true_iff]
    exact hflag before ((List.prefix_append before _).trans hbefore)
  dsimp only
  rw [handle_concat, press_other hkey, hshift, ite_not]
  split
  · exact ⟨(List.append_nil _).symm, rfl⟩
  · exact ⟨rfl, rfl⟩

/-- From boot on the flag follows the shift keys, and every key is translated with the
table for them, if and only if no shift key is released while the other one is down. -/
theorem tracks_iff (keyboard : Keyboard) (terminal : List UInt8) (events : List KeyEvent) :
    (boot keyboard terminal).Tracks events ↔ Separate events := by
  constructor
  · exact fun htracks => separate_of_shiftPressed_iff htracks.shiftPressed_iff
  · intro hseparate
    have hflag := fun before (hbefore : before <+: events) =>
      hseparate.shiftPressed_iff (s := boot keyboard terminal) rfl hbefore
    refine ⟨hflag, fun before key hbefore hleft hright => ?_⟩
    exact translated_of_shiftPressed_iff hflag hbefore (not_or.mpr ⟨hleft, hright⟩)

/-- The right shift key is released while the left one is down. -/
def overlap : List KeyEvent := [.press leftShift, .press rightShift, .release rightShift]

/-- The left shift key is still down, but the flag is cleared and the key of `A` gives a
small letter. -/
theorem overlap_loses_shift : Physical ∅ overlap ∧ ShiftHeld overlap ∧
    ∀ keyboard, ((boot keyboard []).handle overlap).shiftPressed = false ∧
      ((boot keyboard []).handle (overlap ++ [.press 0x1E])).terminal = ascii "a" := by
  refine ⟨by decide, by decide, fun keyboard => ⟨rfl, ?_⟩⟩
  rfl

end KeyboardIsr

end BadOS.Kernel
