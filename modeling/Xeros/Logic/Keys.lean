import Xeros.Logic.Safe

/-!
# What is typed

The characters of a sequence of scan codes, and how they pass through the two buffers of a
read. `Kernel.line` is what a read has collected: the characters in the buffer of the reader
followed by those still in the buffer of the driver. Each function of the driver has one
lemma that says what it does to the line and where it writes.
-/

namespace Xeros

open Lib

variable {k k' k₁ : Kernel} {r : Slot} {a : Ambient} {c : Byte} {st : Word}

/-! ## Characters -/

/-- The key goes down and is not a modifier. -/
def plainKey (c : Byte) : Prop := c &&& keyUp = 0 ∧ isControlCode c = false

instance (c : Byte) : Decidable (plainKey c) := inferInstanceAs (Decidable (_ ∧ _))

/-- The character that is stored for a scan code: the low byte of `kbtoa`. -/
def charOf (st : Word) (c : Byte) : Byte := (kbtoa st c).1.setWidth 8

/-- The keyboard state after a sequence of scan codes. -/
def statesAfter (st : Word) (cs : List Byte) : Word := cs.foldl (fun st c => (kbtoa st c).2) st

/-- The characters of a sequence of scan codes, key-up and modifier codes left out. -/
def typed : Word → List Byte → List Byte
  | _, [] => []
  | st, c :: cs =>
    if plainKey c then charOf st c :: typed (kbtoa st c).2 cs else typed (kbtoa st c).2 cs

theorem statesAfter_snoc (st : Word) (cs : List Byte) (c : Byte) :
    statesAfter st (cs ++ [c]) = (kbtoa (statesAfter st cs) c).2 := by
  unfold statesAfter
  rw [List.foldl_append]
  rfl

theorem typed_snoc (st : Word) (cs : List Byte) (c : Byte) :
    typed st (cs ++ [c])
      = typed st cs ++ if plainKey c then [charOf (statesAfter st cs) c] else [] := by
  induction cs generalizing st with
  | nil =>
      simp only [List.nil_append, typed, statesAfter, List.foldl_nil]
  | cons d cs ih =>
      simp only [List.cons_append, typed, ih]
      split <;> rfl

/-- A key that is no modifier is translated and leaves the keyboard state alone. -/
theorem kbtoa_eq (h : plainKey c) (st : Word) : kbtoa st c = (translate st c, st) := by
  obtain ⟨hup, hctl⟩ := h
  unfold isControlCode at hctl
  simp only [decide_eq_false_iff_not, not_or] at hctl
  obtain ⟨h₁, h₂, h₃, h₄, h₅, h₆⟩ := hctl
  unfold kbtoa
  rw [if_neg (not_not.mpr hup), if_neg (not_or.mpr ⟨h₁, h₂⟩), if_neg h₅, if_neg h₄, if_neg h₃,
    if_neg h₆]

theorem kbtoa_plain (h : plainKey c) (st : Word) : (kbtoa st c).2 = st := by
  rw [kbtoa_eq h]

/-- The test for `NOCHAR` never succeeds: it compares a byte with 256. -/
theorem keyIgnored_iff (c ascii : Byte) : keyIgnored c ascii ↔ ¬ plainKey c := by
  have hbyte : ascii.setWidth 32 ≠ nochar := by
    intro h
    have hlt := ascii.isLt
    have := congrArg BitVec.toNat h
    rw [BitVec.toNat_setWidth, Nat.mod_eq_of_lt (Nat.lt_trans hlt (by decide))] at this
    rw [this] at hlt
    exact absurd hlt (by decide)
  unfold keyIgnored plainKey
  constructor
  · rintro (h | h | h) ⟨hup, hctl⟩
    · exact hbyte h
    · exact h hup
    · rw [hctl] at h
      cases h
  · intro h
    by_cases hup : c &&& keyUp = 0
    · refine .inr (.inr ?_)
      by_contra hctl
      exact h ⟨hup, Bool.eq_false_iff.mpr hctl⟩
    · exact .inr (.inl hup)

/-! ## The two buffers -/

/-- The driver with other indices. -/
@[simps] def Kbd.atIdx (b : Kbd) (i j : Int) : Kbd := { b with applbufidx := i, kbdbufidx := j }

namespace Kernel

/-- The characters passed to the buffer of the reader. -/
def passed (k : Kernel) : List Byte := k.mem.slice k.kbd.applbuffer k.kbd.applbufidx.toNat

/-- The characters in the buffer of the driver. -/
def kept (k : Kernel) : List Byte := k.mem.slice k.kbd.kbdbuffer k.kbd.kbdbufidx.toNat

/-- What the read has collected. -/
def line (k : Kernel) : List Byte := k.passed ++ k.kept

@[simp] theorem length_passed (k : Kernel) : k.passed.length = k.kbd.applbufidx.toNat :=
  Bytes.length_slice

@[simp] theorem length_kept (k : Kernel) : k.kept.length = k.kbd.kbdbufidx.toNat :=
  Bytes.length_slice

theorem applAddr_eq {i : Int} (hi : 0 ≤ i) (k : Kernel) :
    k.applAddr i = k.kbd.applbuffer + BitVec.ofNat 32 i.toNat := by
  obtain ⟨n, rfl⟩ := Int.eq_ofNat_of_zero_le hi
  unfold applAddr
  rw [BitVec.ofInt_natCast, Int.toNat_natCast]

theorem kbdAddr_eq {i : Int} (hi : 0 ≤ i) (k : Kernel) :
    k.kbdAddr i = k.kbd.kbdbuffer + BitVec.ofNat 32 i.toNat := by
  obtain ⟨n, rfl⟩ := Int.eq_ofNat_of_zero_le hi
  unfold kbdAddr
  rw [BitVec.ofInt_natCast, Int.toNat_natCast]

/-- The size of the buffer of the reader. A read terminates what it returns, so at least one
byte is written whatever size was asked for. -/
def bufSize (k : Kernel) : Nat := (max k.kbd.applbufsize 1).toNat

end Kernel

/-- The indices of the driver are in their buffers, and these lie apart. -/
structure Fits (k : Kernel) : Prop where
  passed : 0 ≤ k.kbd.applbufidx
  kept : 0 ≤ k.kbd.kbdbufidx
  short : k.kbd.kbdbufidx < kbdbufsz
  room : k.kbd.applbufidx + k.kbd.kbdbufidx < max k.kbd.applbufsize 1
  apart : Apart k.kbd.applbuffer k.bufSize k.kbd.kbdbuffer 4

/-- A step of the driver writes to the two buffers only. -/
def WritesBuffers (k k' : Kernel) : Prop :=
  ∀ x, ¬ InRange k.kbd.applbuffer k.bufSize x → ¬ InRange k.kbd.kbdbuffer 4 x → k'.mem x = k.mem x

/-- The buffer of the reader does not fill the address space. -/
theorem Fits.bufSize_lt (h : Fits k) : k.bufSize < 0x100000000 := by
  have hx : ¬ InRange k.kbd.applbuffer k.bufSize k.kbd.kbdbuffer := by
    intro hx
    refine h.apart _ hx ?_
    unfold InRange
    simp
  unfold InRange at hx
  have hlt := (k.kbd.kbdbuffer - k.kbd.applbuffer).isLt
  omega

/-- Only the indices matter. -/
theorem Fits.of_atIdx (h : Fits k) {i j : Int} (hkbd : k'.kbd = k.kbd.atIdx i j) (hi : 0 ≤ i)
    (hj : 0 ≤ j) (hlt : j < kbdbufsz) (hroom : i + j < max k.kbd.applbufsize 1) : Fits k' := by
  refine ⟨?_, ?_, ?_, ?_, ?_⟩
  · rwa [hkbd]
  · rwa [hkbd]
  · rwa [hkbd]
  · rwa [hkbd]
  · unfold Kernel.bufSize
    rw [hkbd]
    exact h.apart

theorem passKeys_kbd (n i : Nat) (k : Kernel) :
    (passKeys n i k).kbd = k.kbd.atIdx (k.kbd.applbufidx + n) k.kbd.kbdbufidx := by
  induction n generalizing i k with
  | zero => simp [passKeys, Kbd.atIdx]
  | succ n ih =>
      refine (ih (i + 1) (passKey k i)).trans ?_
      have hidx : (passKey k i).kbd.applbufidx = k.kbd.applbufidx + 1 := rfl
      rw [hidx, Int.natCast_succ, Int.add_comm (n : Int), ← Int.add_assoc]
      rfl

/-- `passKeys` appends characters of the driver's buffer to those of the reader. -/
theorem passKeys_spec (n i : Nat) (k : Kernel) (h₀ : 0 ≤ k.kbd.applbufidx)
    (hn : k.kbd.applbufidx.toNat + n ≤ k.bufSize) (hi : i + n ≤ 4)
    (hlt : k.bufSize < 0x100000000)
    (hapart : Apart k.kbd.applbuffer k.bufSize k.kbd.kbdbuffer 4) :
    (passKeys n i k).passed
      = k.passed ++ k.mem.slice (k.kbd.kbdbuffer + BitVec.ofNat 32 i) n ∧
    ∀ x, ¬ InRange k.kbd.applbuffer k.bufSize x → (passKeys n i k).mem x = k.mem x := by
  induction n generalizing i k with
  | zero =>
      refine ⟨?_, fun x _ => rfl⟩
      simp [passKeys]
  | succ n ih =>
      have haddr := k.applAddr_eq h₀
      have hput : InRange k.kbd.applbuffer k.bufSize (k.applAddr k.kbd.applbufidx) := by
        rw [haddr]
        exact inRange_add (by omega)
      have hmem : ∀ x, ¬ InRange k.kbd.applbuffer k.bufSize x → (passKey k i).mem x = k.mem x :=
        fun x hx => Bytes.putByte_ne fun he => hx (he ▸ hput)
      have hidx : (passKey k i).kbd.applbufidx = k.kbd.applbufidx + 1 := rfl
      obtain ⟨h₂, h₃⟩ := ih (i + 1) (passKey k i) (by omega)
        (by rw [hidx]; show _ ≤ k.bufSize; omega) (by omega) hlt hapart
      refine ⟨?_, fun x hx => (h₃ x hx).trans (hmem x hx)⟩
      have hlast : (passKey k i).passed = k.passed ++ [k.mem (k.kbdAddr i)] := by
        unfold Kernel.passed
        rw [hidx, show (k.kbd.applbufidx + 1).toNat = k.kbd.applbufidx.toNat + 1 by omega]
        show (k.mem.putByte (k.applAddr k.kbd.applbufidx) _).slice k.kbd.applbuffer _ = _
        rw [haddr]
        exact Bytes.slice_putByte_snoc (by omega)
      have hrest : (passKey k i).mem.slice (k.kbd.kbdbuffer + BitVec.ofNat 32 (i + 1)) n
          = k.mem.slice (k.kbd.kbdbuffer + BitVec.ofNat 32 (i + 1)) n := by
        refine Bytes.slice_congr fun x hx => hmem x fun hin => hapart x hin ?_
        refine hx.of_part ?_
        rw [BitVec.toNat_ofNat, Nat.mod_eq_of_lt (by omega)]
        omega
      have hnext : k.kbd.kbdbuffer + BitVec.ofNat 32 i + 1
          = k.kbd.kbdbuffer + BitVec.ofNat 32 (i + 1) := by
        rw [BitVec.ofNat_add]
        bv_omega
      calc (passKeys (n + 1) i k).passed
          = (passKey k i).passed ++ (passKey k i).mem.slice
              (k.kbd.kbdbuffer + BitVec.ofNat 32 (i + 1)) n := h₂
        _ = k.passed ++ (k.mem (k.kbd.kbdbuffer + BitVec.ofNat 32 i) ::
              k.mem.slice (k.kbd.kbdbuffer + BitVec.ofNat 32 (i + 1)) n) := by
            rw [hlast, hrest, k.kbdAddr_eq (by omega), List.append_assoc]
            rfl
        _ = _ := by rw [Bytes.slice_succ, hnext]

/-- `deliverKeys` leaves the whole line in the buffer of the reader, terminated. -/
theorem deliverKeys_spec (h : Fits k) :
    (deliverKeys k).mem.slice k.kbd.applbuffer k.line.length = k.line ∧
    (deliverKeys k).mem (k.kbd.applbuffer + BitVec.ofNat 32 k.line.length) = 0 ∧
    (deliverKeys k).kbd = k.kbd.atIdx (k.kbd.applbufidx + k.kbd.kbdbufidx) 0 ∧
    ∀ x, ¬ InRange k.kbd.applbuffer k.bufSize x → (deliverKeys k).mem x = k.mem x := by
  obtain ⟨h₀, hk, hshort, hroom, hapart⟩ := h
  have hlt := Fits.bufSize_lt ⟨h₀, hk, hshort, hroom, hapart⟩
  have hsize : k.kbd.applbufidx.toNat + k.kbd.kbdbufidx.toNat < k.bufSize := by
    unfold Kernel.bufSize
    omega
  have h₁ := passKeys_kbd k.kbd.kbdbufidx.toNat 0 k
  obtain ⟨h₂, h₃⟩ := passKeys_spec k.kbd.kbdbufidx.toNat 0 k h₀ (by omega)
    (by have hfour : kbdbufsz = 4 := rfl
        omega) hlt hapart
  have hidx : (passKeys k.kbd.kbdbufidx.toNat 0 k).kbd.applbufidx
      = k.kbd.applbufidx + k.kbd.kbdbufidx := by
    rw [h₁, Kbd.atIdx_applbufidx, Int.toNat_of_nonneg hk]
  have hlen : k.line.length = k.kbd.applbufidx.toNat + k.kbd.kbdbufidx.toNat := by
    unfold Kernel.line
    rw [List.length_append, k.length_passed, k.length_kept]
  -- the terminator goes right behind the line
  have hend : (passKeys k.kbd.kbdbufidx.toNat 0 k).applAddr
      (passKeys k.kbd.kbdbufidx.toNat 0 k).kbd.applbufidx
      = k.kbd.applbuffer + BitVec.ofNat 32 k.line.length := by
    rw [Kernel.applAddr_eq (by omega), hidx, h₁, hlen, Kbd.atIdx_applbuffer,
      show (k.kbd.applbufidx + k.kbd.kbdbufidx).toNat
        = k.kbd.applbufidx.toNat + k.kbd.kbdbufidx.toNat by omega]
  have hmem : (deliverKeys k).mem = (passKeys k.kbd.kbdbufidx.toNat 0 k).mem.putByte
      (k.kbd.applbuffer + BitVec.ofNat 32 k.line.length) 0 := by
    rw [← hend]
    rfl
  have hline : (passKeys k.kbd.kbdbufidx.toNat 0 k).mem.slice k.kbd.applbuffer k.line.length
      = k.line := by
    have hbuf : (passKeys k.kbd.kbdbufidx.toNat 0 k).passed
        = (passKeys k.kbd.kbdbufidx.toNat 0 k).mem.slice k.kbd.applbuffer k.line.length := by
      unfold Kernel.passed
      rw [hidx, h₁, hlen, Kbd.atIdx_applbuffer, show (k.kbd.applbufidx + k.kbd.kbdbufidx).toNat
        = k.kbd.applbufidx.toNat + k.kbd.kbdbufidx.toNat by omega]
    rw [← hbuf, h₂]
    unfold Kernel.line Kernel.kept
    rw [show k.kbd.kbdbuffer + BitVec.ofNat 32 0 = k.kbd.kbdbuffer by simp]
  have hlt' : k.line.length < 0x100000000 := by omega
  refine ⟨?_, ?_, ?_, fun x hx => ?_⟩
  · rw [hmem, Bytes.slice_putByte_end hlt', hline]
  · rw [hmem, Bytes.putByte_self]
  · have hkbd : (deliverKeys k).kbd = (passKeys k.kbd.kbdbufidx.toNat 0 k).kbd.atIdx
        (passKeys k.kbd.kbdbufidx.toNat 0 k).kbd.applbufidx 0 := rfl
    rw [hkbd, hidx, h₁]
    rfl
  · rw [hmem, Bytes.putByte_ne, h₃ x hx]
    rintro rfl
    exact hx (inRange_add (by omega))

/-- `storeKey` appends a character to those of the driver. -/
theorem storeKey_kept (hk : 0 ≤ k.kbd.kbdbufidx) (hlt : k.kbd.kbdbufidx < kbdbufsz)
    (hc : plainKey c) :
    (storeKey k c).kbd = k.kbd.atIdx k.kbd.applbufidx (k.kbd.kbdbufidx + 1) ∧
    (storeKey k c).kept = k.kept ++ [charOf k.kbd.keyState c] ∧
    ∀ x, ¬ InRange k.kbd.kbdbuffer 4 x → (storeKey k c).mem x = k.mem x := by
  have hshort : k.kbd.kbdbufidx < 4 := hlt
  have hkbd : (storeKey k c).kbd = k.kbd.atIdx k.kbd.applbufidx (k.kbd.kbdbufidx + 1) := by
    show { k.kbd with
      kbdbufidx := k.kbd.kbdbufidx + 1, keyState := (kbtoa k.kbd.keyState c).2 } = _
    rw [kbtoa_plain hc]
    rfl
  have hput : InRange k.kbd.kbdbuffer 4 (k.kbdAddr k.kbd.kbdbufidx) := by
    rw [k.kbdAddr_eq hk]
    exact inRange_add (by omega)
  refine ⟨hkbd, ?_, fun x hx => Bytes.putByte_ne fun he => hx (he ▸ hput)⟩
  unfold Kernel.kept
  rw [hkbd, Kbd.atIdx_kbdbuffer, Kbd.atIdx_kbdbufidx,
    show (k.kbd.kbdbufidx + 1).toNat = k.kbd.kbdbufidx.toNat + 1 by omega]
  show (k.mem.putByte (k.kbdAddr k.kbd.kbdbufidx) _).slice k.kbd.kbdbuffer _ = _
  rw [k.kbdAddr_eq hk]
  exact Bytes.slice_putByte_snoc (by omega)

/-- It does not reach the buffer of the reader. -/
theorem storeKey_passed (h : Fits k) (hc : plainKey c) : (storeKey k c).passed = k.passed := by
  obtain ⟨hkbd, -, hmem⟩ := storeKey_kept h.kept h.short hc
  have hroom := h.room
  have hp := h.passed
  have hk := h.kept
  unfold Kernel.passed
  rw [hkbd, Kbd.atIdx_applbuffer, Kbd.atIdx_applbufidx]
  refine Bytes.slice_congr fun x hx => hmem x (h.apart x ?_)
  unfold InRange at hx ⊢
  unfold Kernel.bufSize
  omega

/-- The loop that empties the buffer of the driver passes all characters when they fit and
none is a newline: its own tests can only succeed at the last one. -/
theorem flushKeys_eq (n i : Nat) (k : Kernel) (h₀ : 0 ≤ k.kbd.applbufidx)
    (hn : k.kbd.applbufidx + n < k.kbd.applbufsize) (hi : i + n ≤ 4)
    (hapart : Apart k.kbd.applbuffer k.bufSize k.kbd.kbdbuffer 4)
    (hline : (10 : Byte) ∉ k.mem.slice (k.kbd.kbdbuffer + BitVec.ofNat 32 i) n) :
    ∃ j, flushKeys n i k = ((passKeys n i k).setKbd
      ((passKeys n i k).kbd.atIdx (passKeys n i k).kbd.applbufidx j), false) := by
  induction n generalizing i k with
  | zero => exact ⟨k.kbd.kbdbufidx, rfl⟩
  | succ n ih =>
      have hput : InRange k.kbd.applbuffer k.bufSize (k.applAddr k.kbd.applbufidx) := by
        rw [k.applAddr_eq h₀]
        refine inRange_add ?_
        unfold Kernel.bufSize
        omega
      have hmem : ∀ x, InRange k.kbd.kbdbuffer 4 x → (passKey k i).mem x = k.mem x :=
        fun x hx => Bytes.putByte_ne fun he => hapart x (he ▸ hput) hx
      have hin : InRange k.kbd.kbdbuffer 4 (k.kbdAddr i) := by
        rw [k.kbdAddr_eq (by omega)]
        exact inRange_add (by omega)
      have hnext : k.kbd.kbdbuffer + BitVec.ofNat 32 i + 1
          = k.kbd.kbdbuffer + BitVec.ofNat 32 (i + 1) := by
        rw [BitVec.ofNat_add]
        bv_omega
      rw [Bytes.slice_succ, List.mem_cons, not_or, hnext] at hline
      have hchar : (passKey k i).mem ((passKey k i).kbdAddr i) ≠ 10 := by
        show (passKey k i).mem (k.kbdAddr i) ≠ 10
        rw [hmem _ hin, k.kbdAddr_eq (by omega)]
        exact Ne.symm hline.1
      have hidx : (passKey k i).kbd.applbufidx = k.kbd.applbufidx + 1 := rfl
      have hsize : (passKey k i).kbd.applbufsize = k.kbd.applbufsize := rfl
      unfold flushKeys
      dsimp only
      split
      · rename_i hfull
        -- the buffer of the reader is full: this is the last character
        obtain rfl : n = 0 := by
          rcases hfull with hfull | hfull
          · rw [hidx, hsize] at hfull
            omega
          · exact absurd hfull hchar
        exact ⟨0, rfl⟩
      · refine ih (i + 1) (passKey k i) (by omega) (by omega) (by omega) hapart ?_
        show (10 : Byte) ∉ (passKey k i).mem.slice (k.kbd.kbdbuffer + BitVec.ofNat 32 (i + 1)) n
        rw [Bytes.slice_congr fun x hx => hmem x (hx.of_part ?_)]
        · exact hline.2
        · rw [BitVec.toNat_ofNat, Nat.mod_eq_of_lt (by omega)]
          omega

/-- A full buffer of the driver without a newline is passed to a reader with room for more, and
the index of the driver starts again. -/
theorem flushKeys_full (h₀ : 0 ≤ k.kbd.applbufidx) (hfull : k.kbd.kbdbufidx = 4)
    (hroom : k.kbd.applbufidx + 4 < k.kbd.applbufsize) (hlt : k.bufSize < 0x100000000)
    (hapart : Apart k.kbd.applbuffer k.bufSize k.kbd.kbdbuffer 4) (hno : (10 : Byte) ∉ k.kept) :
    ∃ k₁, flushKeys 4 0 k = (k₁, false) ∧
      { k₁.kbd with kbdbufidx := 0 } = k.kbd.atIdx (k.kbd.applbufidx + 4) 0 ∧
      k₁.mem.slice k.kbd.applbuffer (k.kbd.applbufidx + 4).toNat = k.line ∧
      ∀ x, ¬ InRange k.kbd.applbuffer k.bufSize x → k₁.mem x = k.mem x := by
  have hkept : k.mem.slice (k.kbd.kbdbuffer + BitVec.ofNat 32 0) 4 = k.kept := by
    unfold Kernel.kept
    rw [hfull]
    simp
  have hfits : k.kbd.applbufidx.toNat + 4 ≤ k.bufSize := by
    unfold Kernel.bufSize
    omega
  obtain ⟨j, hflush⟩ := flushKeys_eq 4 0 k h₀ hroom (by omega) hapart (by rw [hkept]; exact hno)
  have hkbd := passKeys_kbd 4 0 k
  obtain ⟨hpass, hmem⟩ := passKeys_spec 4 0 k h₀ hfits (by omega) hlt hapart
  refine ⟨_, hflush, ?_, ?_, hmem⟩
  · show { (passKeys 4 0 k).kbd with kbdbufidx := 0 } = _
    rw [hkbd]
    rfl
  · have hidx : (passKeys 4 0 k).passed
        = (passKeys 4 0 k).mem.slice k.kbd.applbuffer (k.kbd.applbufidx + 4).toNat := by
      unfold Kernel.passed
      rw [hkbd]
      rfl
    show (passKeys 4 0 k).mem.slice _ _ = _
    rw [← hidx, hpass, hkept]
    rfl

/-- A key that does not complete the read is appended to its line, whether or not the buffer
of the driver is full then. -/
theorem storeAndFlush_spec (h : Fits k) (hb : k.kbd.applbuffer ≠ 0)
    (hroom : k.kbd.applbufidx + k.kbd.kbdbufidx + 1 < k.kbd.applbufsize)
    (hkept : (10 : Byte) ∉ k.kept) (hc : plainKey c) (hch : charOf k.kbd.keyState c ≠ 10) :
    ∃ k', storeAndFlush k c = (k', false) ∧ (∃ i j, k'.kbd = k.kbd.atIdx i j ∧
        (i = k.kbd.applbufidx ∨ i = k.kbd.applbufidx + 4)) ∧ Fits k' ∧
      (10 : Byte) ∉ k'.kept ∧ k'.line = k.line ++ [charOf k.kbd.keyState c] ∧
      WritesBuffers k k' := by
  obtain ⟨hkbd, hkept', hmem⟩ := storeKey_kept h.kept h.short hc
  have hpassed := storeKey_passed h hc
  have hstore : keepKey k c = storeKey k c := if_pos h.short
  have hno : (10 : Byte) ∉ (storeKey k c).kept := by
    rw [hkept', List.mem_append, not_or]
    exact ⟨hkept, fun hin => hch (List.mem_singleton.mp hin).symm⟩
  have hline : (storeKey k c).line = k.line ++ [charOf k.kbd.keyState c] := by
    unfold Kernel.line
    rw [hpassed, hkept', List.append_assoc]
  have hbuf : (storeKey k c).bufSize = k.bufSize := by
    unfold Kernel.bufSize
    rw [hkbd, Kbd.atIdx_applbufsize]
  have hk := h.kept
  have hp := h.passed
  have hshort : k.kbd.kbdbufidx < 4 := h.short
  unfold storeAndFlush
  rw [hstore]
  dsimp only
  split
  · rename_i hfull
    -- the key is the fourth one
    have hidx : k.kbd.kbdbufidx = 3 := by
      have hle : (4 : Int) ≤ (storeKey k c).kbd.kbdbufidx := hfull.1
      rw [hkbd, Kbd.atIdx_kbdbufidx] at hle
      omega
    obtain ⟨k₁, hflush, hkbd₁, hline₁, hmem₁⟩ : ∃ k₁, flushKeys 4 0 (storeKey k c) = (k₁, false) ∧
        { k₁.kbd with kbdbufidx := 0 } = k.kbd.atIdx (k.kbd.applbufidx + 4) 0 ∧
        k₁.mem.slice k.kbd.applbuffer (k.kbd.applbufidx + 4).toNat = (storeKey k c).line ∧
        ∀ x, ¬ InRange k.kbd.applbuffer k.bufSize x → k₁.mem x = (storeKey k c).mem x := by
      have hflush := @flushKeys_full (storeKey k c)
      rw [hbuf, hkbd] at hflush
      have hfour : k.kbd.kbdbufidx + 1 = 4 := by omega
      have hmore : k.kbd.applbufidx + 4 < k.kbd.applbufsize := by omega
      exact hflush hp hfour hmore h.bufSize_lt h.apart hno
    rw [hflush]
    refine ⟨k₁.setKbd { k₁.kbd with kbdbufidx := 0 }, rfl, ⟨_, _, hkbd₁, .inr rfl⟩, ?_, ?_, ?_, ?_⟩
    · exact h.of_atIdx hkbd₁ (by omega) (by omega) (by decide) (by omega)
    · exact List.not_mem_nil
    · rw [← hline, ← hline₁]
      unfold Kernel.line Kernel.passed Kernel.kept
      show k₁.mem.slice { k₁.kbd with kbdbufidx := 0 }.applbuffer
        { k₁.kbd with kbdbufidx := 0 }.applbufidx.toNat ++ [] = _
      rw [hkbd₁, List.append_nil]
      rfl
    · exact fun x hx hx' => (hmem₁ x hx).trans (hmem x hx')
  · rename_i hfull
    have hlt : k.kbd.kbdbufidx + 1 < kbdbufsz := by
      rcases Int.lt_or_le (k.kbd.kbdbufidx + 1) kbdbufsz with hlt | hle
      · exact hlt
      · refine absurd ⟨?_, ?_⟩ hfull
        · rw [hkbd]
          exact hle
        · rw [hkbd]
          exact hb
    refine ⟨storeKey k c, rfl, ⟨_, _, hkbd, .inl rfl⟩, ?_, hno, hline, fun x _ hx => hmem x hx⟩
    exact h.of_atIdx hkbd hp (by omega) hlt (by omega)

/-! ## A reader that waits -/

/-- The process is blocked, and the links of `blocked_q` lead to it. -/
def Waits (k : Kernel) (r : Slot) : Prop :=
  (k.proctab r).state = .blocked ∧ ∃ l, Seg k.link k.blockedQ l (some r)

theorem Waits.kbdOnly (h : Waits k r) (hk : KbdOnly k k') : Waits k' r := by
  obtain ⟨m, b, rfl, -⟩ := hk
  exact h

/-- A walk of `remove` that leads to the pcb it looks for ends. -/
theorem removeLoop_finds {pid : Word} {x : Option Slot} {l : List Slot} {fuel : Nat} {Q : QRef}
    (hs : Seg k.link x l (some r)) (hr : (k.proctab r).pid = pid) (hf : l.length < fuel) :
    ∃ k' n, removeLoop Q pid fuel k x = .ok (k', n) := by
  induction l generalizing k x fuel with
  | nil =>
      obtain ⟨fuel, rfl⟩ := Nat.exists_eq_succ_of_ne_zero (Nat.ne_zero_of_lt hf)
      obtain rfl : x = some r := hs
      simp only [removeLoop]
      rw [if_pos hr]
      exact ⟨_, _, rfl⟩
  | cons b l ih =>
      obtain ⟨fuel, rfl⟩ := Nat.exists_eq_succ_of_ne_zero (Nat.ne_zero_of_lt hf)
      obtain ⟨rfl, hs'⟩ := hs
      simp only [removeLoop]
      split
      · exact ⟨_, _, rfl⟩
      · refine ih ?_ ?_ (Nat.lt_of_succ_lt_succ hf)
        · rw [QRef.set_link]
          exact hs'
        · rw [QRef.set_proctab]
          exact hr

/-- A blocked reader is notified if `blocked_q` can be searched for it. -/
theorem notifyReader_back {fuel : Nat} (hg : Good k) (hr : k.kbd.reader = some r)
    (hb : (k.proctab r).state = .blocked)
    (hq : ∃ k₁ n, remove k fuel (some .blockedQ) (k.proctab r).pid = .ok (k₁, n)) :
    ∃ k', notifyReader k fuel = .ok (k', true) := by
  obtain ⟨k₁, n, h₁⟩ := hq
  have hu : (k₁.setRet r (toWord k₁.kbd.applbufidx)).Used r := by
    refine Kernel.Used.upd rfl ?_
    exact (hg.reader r hr).congr ((Relinked.remove h₁).pid r)
  have hready := ready_of_used hu
  unfold notifyReader notify
  rw [hr]
  simp only [hb, kassert, if_true, h₁, hready, bind, Except.bind, pure, Except.pure]
  exact ⟨_, rfl⟩

/-- The driver once it has forgotten a read. -/
@[simps] def Kbd.forget (b : Kbd) : Kbd :=
  { b with applbuffer := 0, applbufsize := 0, applbufidx := 0, reader := none }

theorem notifyReader_kbd {fuel : Nat} (h : notifyReader k fuel = .ok (k', true)) :
    k'.kbd = k.kbd.forget := by
  unfold notifyReader at h
  split at h
  · simp [pure, Except.pure] at h
  · split at h
    · simp only [notify, Run.bind_eq_ok, pure, Except.pure, Except.ok.injEq, Prod.mk.injEq] at h
      obtain ⟨k₁, ⟨_, -, ⟨k₂, n⟩, h₂, h₁⟩, rfl, -⟩ := h
      have hrest := ((Rest.remove h₂).trans (.setRet _ _ _)).trans (.ready h₁)
      show k₁.kbd.forget = _
      rw [hrest.kbd]
    · simp [pure, Except.pure] at h

/-! ## Keys while a read is collected -/

/-- The reader is blocked, and the driver collects its line. -/
structure Collecting (k : Kernel) (r : Slot) : Prop extends Fits k where
  good : Good k
  reader : k.kbd.reader = some r
  blocked : (k.proctab r).state = .blocked
  buffer : k.kbd.applbuffer ≠ 0
  noNewline : (10 : Byte) ∉ k.kept

/-- The key ends the line: it is a newline, or the buffer of the reader is full. -/
def Finishes (k : Kernel) (c : Byte) : Prop :=
  charOf k.kbd.keyState c = 10 ∨ k.kbd.applbufsize ≤ k.line.length + 1

instance (k : Kernel) (c : Byte) : Decidable (Finishes k c) :=
  inferInstanceAs (Decidable (_ ∨ _))

/-- The end-of-file key arrives. -/
def Kernel.atEof (k : Kernel) (a : Ambient) : Prop := eofKey (k.noteKey a).kbd a.datasrc

instance (k : Kernel) (a : Ambient) : Decidable (k.atEof a) :=
  inferInstanceAs (Decidable (eofKey _ _))

theorem Fits.length_line (h : Fits k) :
    (k.line.length : Int) = k.kbd.applbufidx + k.kbd.kbdbufidx := by
  have h₁ := h.passed
  have h₂ := h.kept
  unfold Kernel.line
  rw [List.length_append, k.length_passed, k.length_kept]
  omega

theorem KbdOnly.noteKey (k : Kernel) (a : Ambient) : KbdOnly k (k.noteKey a) :=
  ⟨k.mem, _, rfl, rfl⟩

/-- A key while no read is registered is stored, or there is no room for it. -/
theorem processKey_idle (hb : k.kbd.applbuffer = 0) (a : Ambient) :
    (kbdbufsz ≤ k.kbd.kbdbufidx ∧ processKey k a = .ok (k.noteKey a)) ∨
    (k.kbd.kbdbufidx < kbdbufsz ∧
      processKey k a = .ok (storeKey (k.noteKey a) a.datasrc)) := by
  show (_ ∧ handleKey (k.noteKey a) a.fuel a.datasrc (charOf k.kbd.keyState a.datasrc) = _) ∨
    (_ ∧ handleKey (k.noteKey a) a.fuel a.datasrc (charOf k.kbd.keyState a.datasrc) = _)
  unfold handleKey
  rcases Int.lt_or_le k.kbd.kbdbufidx kbdbufsz with hlt | hle
  · refine .inr ⟨hlt, ?_⟩
    rw [if_neg fun h => absurd h.1 (Int.not_le.mpr hlt), if_pos ⟨hlt, hb⟩]
    rfl
  · refine .inl ⟨hle, ?_⟩
    rw [if_pos ⟨hle, hb⟩]
    rfl

/-- Noting the control keys changes neither buffer. -/
theorem Collecting.noteKey (h : Collecting k r) (a : Ambient) : Collecting (k.noteKey a) r where
  toFits := { h.toFits with }
  good := { h.good with }
  reader := h.reader
  blocked := h.blocked
  buffer := h.buffer
  noNewline := h.noNewline

/-- `process_key` for a registered buffer: its first two branches are not taken. -/
theorem processKey_eq (hb : k.kbd.applbuffer ≠ 0) (a : Ambient) :
    processKey k a =
      if readCompletes (k.noteKey a).kbd a.datasrc (charOf k.kbd.keyState a.datasrc) then do
        let (k₁, woken) ← notifyReader (completeRead (k.noteKey a) a.datasrc) a.fuel
        if woken then return k₁
        else bufferKey k₁ a.fuel a.datasrc (charOf k.kbd.keyState a.datasrc)
      else bufferKey (k.noteKey a) a.fuel a.datasrc (charOf k.kbd.keyState a.datasrc) := by
  unfold processKey handleKey
  dsimp only
  rw [if_neg fun h => hb h.2, if_neg fun h => hb h.2]
  rfl

theorem Collecting.readCompletes_of (h : Collecting k r) (hf : Finishes k a.datasrc) :
    readCompletes (k.noteKey a).kbd a.datasrc (charOf k.kbd.keyState a.datasrc) := by
  rcases hf with hnl | hfull
  · exact .inr (.inl hnl)
  · rw [h.length_line] at hfull
    exact .inr (.inr hfull)

theorem Collecting.readCompletes_iff (h : Collecting k r) (he : ¬ k.atEof a) :
    readCompletes (k.noteKey a).kbd a.datasrc (charOf k.kbd.keyState a.datasrc)
      ↔ Finishes k a.datasrc := by
  refine ⟨?_, h.readCompletes_of⟩
  rintro (⟨-, heof⟩ | hnl | hfull)
  · exact absurd heof he
  · exact .inl hnl
  · refine .inr ?_
    rw [h.length_line]
    exact hfull

theorem completeRead_eq (he : ¬ k.atEof a) :
    completeRead (k.noteKey a) a.datasrc = deliverKeys (k.noteKey a) := by
  unfold completeRead
  exact congrArg deliverKeys (if_neg he)

/-- The read is over: the line is in the buffer of the reader, terminated, and the reader is
ready with the number of its characters. -/
structure Finished (k : Kernel) (a : Ambient) (r : Slot) (k' : Kernel) : Prop where
  ready : (k'.proctab r).state = .ready
  ret : (k'.proctab r).ret = toWord k.line.length
  line : k'.mem.slice k.kbd.applbuffer k.line.length = k.line
  terminated : k'.mem (k.kbd.applbuffer + BitVec.ofNat 32 k.line.length) = 0
  kbd : ∃ i, k'.kbd = ((k.noteKey a).kbd.atIdx i 0).forget
  writes : WritesBuffers k k'

/-- A key that completes the read makes the reader ready, with what has been passed to it. -/
theorem Collecting.wakes (h : Collecting k r)
    (hc : readCompletes (k.noteKey a).kbd a.datasrc (charOf k.kbd.keyState a.datasrc))
    (hk : processKey k a = .ok k') :
    (k'.proctab r).state = .ready ∧
      (k'.proctab r).ret = toWord (completeRead (k.noteKey a) a.datasrc).kbd.applbufidx ∧
      k'.kbd = (completeRead (k.noteKey a) a.datasrc).kbd.forget ∧
      k'.mem = (completeRead (k.noteKey a) a.datasrc).mem := by
  have hn := h.noteKey a
  have honly : KbdOnly (k.noteKey a) (completeRead (k.noteKey a) a.datasrc) := .completeRead _ _
  have hg := (honly.quiet (X := nobody) hn.good).good
  have hreader : (completeRead (k.noteKey a) a.datasrc).kbd.reader = some r :=
    honly.reader.trans h.reader
  rw [processKey_eq h.buffer, if_pos hc] at hk
  simp only [Run.bind_eq_ok] at hk
  obtain ⟨⟨k₁, woken⟩, h₁, hk⟩ := hk
  rcases notifyReader_cases hg h₁ with ⟨-, -, hnot⟩ | ⟨rfl, r', hr', -, hst, hret, -, -, -, hm⟩
  · refine absurd ?_ (hnot r hreader)
    rw [honly.proctab]
    exact h.blocked
  · obtain rfl : r = r' := Option.some.inj (hreader.symm.trans hr')
    rw [if_pos rfl] at hk
    simp only [pure, Except.pure, Except.ok.injEq] at hk
    subst hk
    exact ⟨hst, hret, notifyReader_kbd h₁, hm⟩

/-- A key after which the reader still waits has not completed the read. -/
theorem Collecting.not_completes (h : Collecting k r) (hk : processKey k a = .ok k')
    (hw : Waits k' r) :
    ¬ readCompletes (k.noteKey a).kbd a.datasrc (charOf k.kbd.keyState a.datasrc) := by
  intro hc
  have hst := (h.wakes hc hk).1
  rw [hw.1] at hst
  cases hst

/-- A key that ends the line finishes the read. -/
theorem Collecting.finish (h : Collecting k r) (he : ¬ k.atEof a) (hf : Finishes k a.datasrc)
    (hk : processKey k a = .ok k') : Finished k a r k' := by
  obtain ⟨hst, hret, hkbd', hm⟩ := h.wakes ((h.readCompletes_iff he).mpr hf) hk
  obtain ⟨hline, hnul, hkbd, hmem⟩ := deliverKeys_spec (h.noteKey a).toFits
  rw [completeRead_eq he] at hret hkbd' hm
  refine ⟨hst, ?_, ?_, ?_, ⟨_, hkbd'.trans (congrArg _ hkbd)⟩, ?_⟩
  · rw [hret, hkbd, Kbd.atIdx_applbufidx]
    exact congrArg toWord (h.noteKey a).length_line.symm
  · rw [hm]
    exact hline
  · rw [hm]
    exact hnul
  · intro x hx _
    rw [hm]
    exact hmem x hx

/-- A key that does not complete the read is appended to its line, if it has a character. -/
theorem Collecting.goOn (h : Collecting k r)
    (hc : ¬ readCompletes (k.noteKey a).kbd a.datasrc (charOf k.kbd.keyState a.datasrc)) :
    ∃ k', processKey k a = .ok k' ∧ Collecting k' r ∧ KbdOnly k k' ∧
      (∃ i j, k'.kbd = (k.noteKey a).kbd.atIdx i j ∧
        (i = k.kbd.applbufidx ∨ i = k.kbd.applbufidx + 4)) ∧ WritesBuffers k k' ∧
      k'.line = k.line ++
        if plainKey a.datasrc then [charOf k.kbd.keyState a.datasrc] else [] := by
  have hn := h.noteKey a
  rw [processKey_eq h.buffer, if_neg hc]
  obtain ⟨-, hc⟩ := not_or.mp hc
  obtain ⟨hnl, hfull⟩ := not_or.mp hc
  unfold bufferKey
  by_cases hc : plainKey a.datasrc
  · rw [if_neg fun hi => (keyIgnored_iff _ _).mp hi hc, if_pos hc]
    have hst : (k.noteKey a).kbd.keyState = k.kbd.keyState := kbtoa_plain hc _
    have hnl' : charOf (k.noteKey a).kbd.keyState a.datasrc ≠ 10 := by
      rw [hst]
      exact hnl
    have hroom : (k.noteKey a).kbd.applbufidx + (k.noteKey a).kbd.kbdbufidx + 1
        < (k.noteKey a).kbd.applbufsize := by
      exact Int.not_le.mp hfull
    obtain ⟨k', hs, ⟨i, j, hkbd, hi⟩, hfits, hkept, hline, hw⟩ :=
      storeAndFlush_spec hn.toFits hn.buffer hroom hn.noNewline hc hnl'
    have honly : KbdOnly (k.noteKey a) k' := by
      have := KbdOnly.storeAndFlush (k.noteKey a) a.datasrc
      rwa [hs] at this
    rw [hs]
    refine ⟨k', rfl, ⟨hfits, (honly.quiet (X := nobody) hn.good).good, ?_, ?_, ?_, hkept⟩,
      (KbdOnly.noteKey k a).trans honly, ⟨i, j, hkbd, hi⟩, hw, ?_⟩
    · exact honly.reader.trans h.reader
    · rw [honly.proctab]
      exact h.blocked
    · rw [hkbd]
      exact h.buffer
    · rw [hline, hst]
      rfl
  · rw [if_pos ((keyIgnored_iff _ _).mpr hc), if_neg hc]
    refine ⟨k.noteKey a, rfl, hn, .noteKey k a, ⟨_, _, rfl, .inl rfl⟩, fun _ _ _ => rfl, ?_⟩
    rw [List.append_nil]
    rfl

/-- Every key is processed, given enough iterations. -/
theorem Collecting.processKey_ok (h : Collecting k r) (hw : Waits k r) :
    ∃ m, ∀ a : Ambient, m ≤ a.fuel → ∃ k', processKey k a = .ok k' := by
  obtain ⟨hb, l, hl⟩ := hw
  refine ⟨l.length + 1, fun a hm => ?_⟩
  by_cases hc : readCompletes (k.noteKey a).kbd a.datasrc (charOf k.kbd.keyState a.datasrc)
  · have hn := h.noteKey a
    have honly : KbdOnly (k.noteKey a) (completeRead (k.noteKey a) a.datasrc) := .completeRead _ _
    have hlink : Seg (completeRead (k.noteKey a) a.datasrc).link
        (completeRead (k.noteKey a) a.datasrc).blockedQ l (some r) := by
      obtain ⟨m, b, hm, -⟩ := honly
      rw [hm]
      exact hl
    obtain ⟨k', h₁⟩ := notifyReader_back (r := r) (honly.quiet (X := nobody) hn.good).good
      (honly.reader.trans h.reader) (by rw [honly.proctab]; exact hb)
      (removeLoop_finds (Q := .blockedQ) hlink rfl hm)
    rw [processKey_eq h.buffer, if_pos hc, h₁]
    exact ⟨k', rfl⟩
  · obtain ⟨k', h₁, -⟩ := h.goOn hc
    exact ⟨k', h₁⟩

end Xeros
