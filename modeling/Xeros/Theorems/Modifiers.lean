import Xeros.Lib.Held
import Xeros.Logic.Keys

/-!
# Modifier keys

The keyboard state has one bit for the two shift keys: pressing either sets it, releasing either
clears it. So it says whether one of them is held unless one has been released while the other
was held. The bits of the other modifiers have one key each.
-/

namespace Xeros

open Lib

variable {c : Byte} {cs : List Byte}

/-! ## Scan codes as events -/

/-- The key that a scan code is about. -/
def scanKey (c : Byte) : Byte := c &&& 0x7f

/-- The key goes down. -/
def goesDown (c : Byte) : Bool := c &&& keyUp = 0

/-- The two shift keys. -/
def isShift (key : Byte) : Bool := key = lshift ∨ key = rshift

/-- The latest event of the key is a press. -/
abbrev keyHeld (key : Byte) (cs : List Byte) : Bool := held scanKey goesDown key cs

theorem scanKey_of_down (h : c &&& keyUp = 0) : scanKey c = c := by
  have hall : ∀ n : Fin (2 ^ 8), BitVec.ofFin n &&& keyUp = 0 →
      BitVec.ofFin n &&& 0x7f = BitVec.ofFin n := by decide +kernel
  exact hall c.toFin h

/-! ## The state as flags -/

/-- The modifiers that the keyboard state keeps. -/
structure Flags where
  ctl : Bool
  shift : Bool
  caps : Bool
  alt : Bool

namespace Flags

/-- The word that `state` holds. -/
def state (m : Flags) : Word :=
  (if m.ctl then inctl else 0) ||| (if m.shift then inshift else 0) |||
    (if m.caps then capslock else 0) ||| (if m.alt then inmeta else 0)

/-- The flag of a key is set or cleared. -/
def put (m : Flags) (key : Byte) (d : Bool) : Flags where
  ctl := if key = lctl then d else m.ctl
  shift := if isShift key then d else m.shift
  caps := if key = capsl then d else m.caps
  alt := if key = lmeta then d else m.alt

section Bits

variable (m : Flags)

theorem state_ctl : m.state &&& inctl ≠ 0 ↔ m.ctl := by
  obtain ⟨ctl, shift, caps, alt⟩ := m
  revert ctl shift caps alt
  decide

theorem state_shift : m.state &&& inshift ≠ 0 ↔ m.shift := by
  obtain ⟨ctl, shift, caps, alt⟩ := m
  revert ctl shift caps alt
  decide

theorem state_alt : m.state &&& inmeta ≠ 0 ↔ m.alt := by
  obtain ⟨ctl, shift, caps, alt⟩ := m
  revert ctl shift caps alt
  decide

/-- Setting and clearing a bit. -/
theorem state_or : m.state ||| inctl = { m with ctl := true }.state ∧
    m.state ||| inshift = { m with shift := true }.state ∧
    m.state ||| capslock = { m with caps := true }.state ∧
    m.state ||| inmeta = { m with alt := true }.state := by
  obtain ⟨ctl, shift, caps, alt⟩ := m
  revert ctl shift caps alt
  decide

@[inherit_doc state_or]
theorem state_and : m.state &&& ~~~inctl = { m with ctl := false }.state ∧
    m.state &&& ~~~inshift = { m with shift := false }.state ∧
    m.state &&& ~~~capslock = { m with caps := false }.state ∧
    m.state &&& ~~~inmeta = { m with alt := false }.state := by
  obtain ⟨ctl, shift, caps, alt⟩ := m
  revert ctl shift caps alt
  decide

end Bits

/-- The cases of the two `switch` statements of `kbtoa`. -/
theorem put_state (m : Flags) (key : Byte) (d : Bool) : (m.put key d).state =
    if key = lshift ∨ key = rshift then { m with shift := d }.state
    else if key = capsl then { m with caps := d }.state
    else if key = lctl then { m with ctl := d }.state
    else if key = lmeta then { m with alt := d }.state
    else m.state := by
  unfold put isShift
  by_cases h₁ : key = lshift ∨ key = rshift
  · rw [if_pos h₁]
    rcases h₁ with rfl | rfl
    · rfl
    · rfl
  have hshift : ¬ decide (key = lshift ∨ key = rshift) = true := by
    rw [decide_eq_true_eq]
    exact h₁
  rw [if_neg h₁, if_neg hshift]
  by_cases h₂ : key = capsl
  · rw [if_pos h₂, h₂]
    rfl
  by_cases h₃ : key = lctl
  · rw [if_neg h₂, if_pos h₃, h₃]
    rfl
  by_cases h₄ : key = lmeta
  · rw [if_neg h₂, if_neg h₃, if_pos h₄, h₄]
    rfl
  · rw [if_neg h₂, if_neg h₃, if_neg h₄, if_neg h₂, if_neg h₃, if_neg h₄]

/-- A scan code sets or clears the flag of its key. -/
theorem kbtoa_state (m : Flags) (c : Byte) :
    (kbtoa m.state c).2 = (m.put (scanKey c) (goesDown c)).state := by
  rw [put_state]
  unfold kbtoa
  by_cases hup : c &&& keyUp = 0
  · have hdown : goesDown c = true := decide_eq_true hup
    have hext : c ≠ extesc := by
      rintro rfl
      exact absurd hup (by decide)
    obtain ⟨hctl, hshift, hcaps, halt⟩ := m.state_or
    rw [if_neg (not_not.mpr hup), hdown, scanKey_of_down hup, if_neg hext, hctl, hshift, hcaps,
      halt]
    simp only [apply_ite Prod.snd]
  · have hdown : goesDown c = false := decide_eq_false hup
    obtain ⟨hctl, hshift, hcaps, halt⟩ := m.state_and
    rw [if_pos hup, hdown, hctl, hshift, hcaps, halt]
    rfl

end Flags

/-- The flags that the driver has: each follows the latest event of its keys. -/
def flagsAfter (cs : List Byte) : Flags where
  ctl := keyHeld lctl cs
  shift := flagged scanKey goesDown isShift cs
  caps := keyHeld capsl cs
  alt := keyHeld lmeta cs

/-- The flags that say which keys are held. -/
def heldFlags (cs : List Byte) : Flags :=
  { flagsAfter cs with shift := keyHeld lshift cs || keyHeld rshift cs }

theorem flagsAfter_snoc (cs : List Byte) (c : Byte) :
    flagsAfter (cs ++ [c]) = (flagsAfter cs).put (scanKey c) (goesDown c) := by
  unfold flagsAfter Flags.put keyHeld
  rw [held_snoc, held_snoc, held_snoc, flagged_snoc]

/-- The keyboard state after any scan codes. -/
theorem statesAfter_zero (cs : List Byte) : statesAfter 0 cs = (flagsAfter cs).state := by
  induction cs using List.reverseRecOn with
  | nil => decide
  | append_singleton cs c ih => rw [statesAfter_snoc, ih, flagsAfter_snoc, Flags.kbtoa_state]

/-! ## What the flags say -/

/-- The flags say which modifier keys are held, and the translation of an ordinary key depends
on the keys that are held. -/
structure TracksHeld (cs : List Byte) : Prop where
  shift : statesAfter 0 cs &&& inshift ≠ 0 ↔ keyHeld lshift cs ∨ keyHeld rshift cs
  ctl : statesAfter 0 cs &&& inctl ≠ 0 ↔ keyHeld lctl cs
  alt : statesAfter 0 cs &&& inmeta ≠ 0 ↔ keyHeld lmeta cs
  translation : ∀ c, plainKey c →
    (kbtoa (statesAfter 0 cs) c).1 = translate (heldFlags cs).state c

/-- A shift key is held. -/
theorem exists_isShift {P : Byte → Prop} : (∃ key, isShift key ∧ P key) ↔ P lshift ∨ P rshift := by
  unfold isShift
  constructor
  · rintro ⟨key, hkey, h⟩
    rcases decide_eq_true_eq.mp hkey with rfl | rfl
    · exact .inl h
    · exact .inr h
  · rintro (h | h)
    · exact ⟨lshift, by decide, h⟩
    · exact ⟨rshift, by decide, h⟩

/-- For every sequence of scan codes from the initial state, the flags say which modifier keys
are held exactly if the last event of the shift keys is not the release of one while the other
is held. -/
theorem modifiers_tracked_iff (cs : List Byte) :
    TracksHeld cs ↔ ¬ Masked scanKey goesDown isShift cs := by
  have hiff : (flagged scanKey goesDown isShift cs ↔ ∃ key, isShift key ∧ keyHeld key cs) ↔
      ¬ Masked scanKey goesDown isShift cs := flagged_iff_held_iff
  rw [exists_isShift (P := fun key => keyHeld key cs)] at hiff
  have hshift : statesAfter 0 cs &&& inshift ≠ 0 ↔ flagged scanKey goesDown isShift cs := by
    rw [statesAfter_zero]
    exact Flags.state_shift _
  rw [← hiff]
  constructor
  · intro h
    rw [← hshift]
    exact h.shift
  · intro h
    have hflags : flagsAfter cs = heldFlags cs := by
      unfold heldFlags flagsAfter
      congr 1
      rw [Bool.eq_iff_iff, Bool.or_eq_true]
      exact h
    refine ⟨hshift.trans h, ?_, ?_, fun c hc => ?_⟩
    · rw [statesAfter_zero]
      exact Flags.state_ctl _
    · rw [statesAfter_zero]
      exact Flags.state_alt _
    · rw [kbtoa_eq hc, statesAfter_zero, hflags]

/-- The left shift key is held, and the right one has been pressed and released: an `a` comes out
as a small letter. -/
theorem shift_forgotten : ¬ ∀ cs, TracksHeld cs := by
  intro h
  have hheld : keyHeld lshift [0x2a, 0x36, 0xb6] := by decide
  exact (h [0x2a, 0x36, 0xb6]).shift.mpr (.inl hheld) (by decide)

end Xeros
