import Xeros.Logic.History
import Xeros.Theorems.Overrun

/-!
# Flushing the buffer of the driver

The loop that empties a full `kbdbuffer` can be left before the last byte: by a newline, or when
the buffer of the reader is full. The bytes behind are moved to the front, but `kbdbufidx` is set
to the distance of the move instead of their number.
-/

namespace Xeros

open Lib

variable {k k' k₁ : Kernel} {s : Disp} {t : Trap} {a : Ambient} {c ascii : Byte} {x : Word}
  {d i j m n fuel : Nat}

/-! ## Where the loop is left -/

/-- The byte after which the loop of `flushKeys` finds that it is a newline, or that the buffer
of the reader is full. -/
def flushStop : Nat → Nat → Kernel → Option Nat
  | 0, _, _ => none
  | n + 1, i, k =>
    let k := passKey k i
    if k.kbd.applbufsize - 1 ≤ k.kbd.applbufidx ∨ k.mem (k.kbdAddr i) = 10 then some i
    else flushStop n (i + 1) k

/-- What is then done, with `left` bytes behind the byte `i`. -/
def leaveFlush (i left : Nat) (k : Kernel) : Kernel × Bool :=
  if left = 0 then (k.setKbd { k.kbd with kbdbufidx := 0 }, false)
  else
    let k := shiftKeys (i + 1) left 0 k
    (k.setKbd { k.kbd with kbdbufidx := kbdbufsz - left }, true)

/-- The state in which `storeAndFlush` enters the loop, and the byte after which it is left. -/
def storeStop (k : Kernel) (c : Byte) : Option (Kernel × Nat) :=
  let k := keepKey k c
  if kbdbufsz ≤ k.kbd.kbdbufidx ∧ k.kbd.applbuffer ≠ 0 then
    (flushStop 4 0 k).map fun i => (k, i)
  else none

@[inherit_doc storeStop]
def bufferStop (k : Kernel) (c ascii : Byte) : Option (Kernel × Nat) :=
  if keyIgnored c ascii then none else storeStop k c

@[inherit_doc storeStop]
def handleStop (k : Kernel) (fuel : Nat) (c ascii : Byte) : Option (Kernel × Nat) :=
  if kbdbufsz ≤ k.kbd.kbdbufidx ∧ k.kbd.applbuffer = 0 then none
  else if k.kbd.kbdbufidx < kbdbufsz ∧ k.kbd.applbuffer = 0 then none
  else if readCompletes k.kbd c ascii then
    match notifyReader (completeRead k c) fuel with
    | .ok (k, false) => bufferStop k c ascii
    | _ => none
  else bufferStop k c ascii

/-- The state in which `process_key` enters the loop, and the byte after which it is left. -/
def keyStop (k : Kernel) (a : Ambient) : Option (Kernel × Nat) :=
  let (ch, st) := kbtoa k.kbd.keyState a.datasrc
  handleStop (k.setKbd { k.kbd with keyState := st }) a.fuel a.datasrc (ch.setWidth 8)

/-- The loop is left after `d` turns more, and why. -/
theorem flushStop_some (h : flushStop n i k = some j) : ∃ d, j = i + d ∧ d < n ∧
    flushKeys n i k = leaveFlush j (n - 1 - d) (passKeys (d + 1) i k) ∧
    (k.kbd.applbufsize - 1 ≤ k.kbd.applbufidx + (d + 1 : ℕ) ∨
      (passKeys (d + 1) i k).mem (k.kbdAddr j) = 10) := by
  induction n generalizing i k with
  | zero => cases h
  | succ n ih =>
      unfold flushStop at h
      unfold flushKeys
      dsimp only at h ⊢
      split at h
      · rename_i hstop
        obtain rfl : i = j := Option.some.inj h
        refine ⟨0, rfl, Nat.succ_pos n, ?_, hstop⟩
        rw [if_pos hstop]
        unfold leaveFlush
        cases n with
        | zero => rfl
        | succ n => rfl
      · rename_i hgo
        obtain ⟨d, rfl, hd, he, hcause⟩ := ih h
        refine ⟨d + 1, by omega, Nat.succ_lt_succ hd, ?_, hcause.imp (fun hfull => ?_) id⟩
        · rw [if_neg hgo, he, show n + 1 - 1 - (d + 1) = n - 1 - d by omega]
          rfl
        · have hidx : (passKey k i).kbd.applbufidx = k.kbd.applbufidx + 1 := rfl
          have hsize : (passKey k i).kbd.applbufsize = k.kbd.applbufsize := rfl
          rw [hidx, hsize] at hfull
          omega

theorem bufferStop_some (h : bufferStop k c ascii = some (k₁, i)) :
    ¬ keyIgnored c ascii ∧ k₁ = keepKey k c ∧
      (kbdbufsz ≤ (keepKey k c).kbd.kbdbufidx ∧ (keepKey k c).kbd.applbuffer ≠ 0) ∧
      flushStop 4 0 (keepKey k c) = some i := by
  unfold bufferStop storeStop at h
  split at h
  · cases h
  rename_i hstored
  dsimp only at h
  split at h
  · rename_i hfull
    obtain ⟨j, hj, he⟩ := Option.map_eq_some_iff.mp h
    obtain ⟨rfl, rfl⟩ := Prod.mk.inj he
    exact ⟨hstored, rfl, hfull, hj⟩
  · cases h

/-- The loop is entered when the read has not been completed, or nobody has been notified. -/
theorem handleStop_some (h : handleStop k fuel c ascii = some (k₁, i)) : k.kbd.applbuffer ≠ 0 ∧
    ((¬ readCompletes k.kbd c ascii ∧ bufferStop k c ascii = some (k₁, i)) ∨
      (readCompletes k.kbd c ascii ∧
        notifyReader (completeRead k c) fuel = .ok (completeRead k c, false) ∧
        bufferStop (completeRead k c) c ascii = some (k₁, i))) := by
  unfold handleStop at h
  split at h
  · cases h
  rename_i hfull
  split at h
  · cases h
  rename_i hroom
  refine ⟨Kbd.applbuffer_ne hfull hroom, ?_⟩
  split at h
  · rename_i hc
    split at h
    · rename_i k₂ h₂
      obtain ⟨rfl, -⟩ := notifyReader_quits h₂
      exact .inr ⟨hc, h₂, h⟩
    · cases h
  · rename_i hc
    exact .inl ⟨hc, h⟩

/-! ## What the key leaves -/

/-- The kernel `k'` has the buffer of the driver as `k` leaves it. -/
structure SameKept (k k' : Kernel) : Prop where
  mem : k'.mem = k.mem
  buffer : k'.kbd.kbdbuffer = k.kbd.kbdbuffer
  idx : k'.kbd.kbdbufidx = k.kbd.kbdbufidx

theorem SameKept.notifyReader {w : Bool} (hg : Good k) (h : notifyReader k fuel = .ok (k', w)) :
    SameKept k k' := by
  cases w with
  | false =>
      rw [(notifyReader_quits h).1]
      exact ⟨rfl, rfl, rfl⟩
  | true =>
      have hkbd := notifyReader_kbd h
      rcases notifyReader_cases hg h with ⟨hf, -⟩ | ⟨-, r, -, -, -, -, -, -, -, hm⟩
      · cases hf
      · exact ⟨hm, by rw [hkbd]; rfl, by rw [hkbd]; rfl⟩

/-- The loop is left without a notification once all bytes have been passed. -/
theorem leaveFlush_empty (h : (leaveFlush i m k).2 = false) :
    (leaveFlush i m k).1.kbd.kbdbufidx = 0 := by
  unfold leaveFlush at h ⊢
  split
  · rfl
  · rename_i hleft
    rw [if_neg hleft] at h
    cases h

theorem bufferKey_stop (hg : Good k) (hk : bufferKey k fuel c ascii = .ok k')
    (hs : bufferStop k c ascii = some (k₁, i)) :
    i < 4 ∧ SameKept (leaveFlush i (3 - i) (passKeys (i + 1) 0 k₁)).1 k' := by
  obtain ⟨hstored, rfl, hfull, hstop⟩ := bufferStop_some hs
  obtain ⟨d, hd, hlt, hflush, -⟩ := flushStop_some hstop
  obtain rfl : i = d := hd.trans (Nat.zero_add d)
  refine ⟨hlt, ?_⟩
  have hleft : 4 - 1 - i = 3 - i := rfl
  rw [hleft] at hflush
  have hg₁ := ((KbdOnly.storeAndFlush k c).quiet (X := nobody) hg).good
  have hempty := leaveFlush_empty (i := i) (m := 3 - i) (k := passKeys (i + 1) 0 (keepKey k c))
  unfold bufferKey storeAndFlush at hk
  unfold storeAndFlush at hg₁
  dsimp only at hk hg₁
  rw [if_neg hstored, if_pos hfull, hflush] at hk
  rw [if_pos hfull, hflush] at hg₁
  generalize leaveFlush i (3 - i) (passKeys (i + 1) 0 (keepKey k c)) = r at hk hg₁ hempty ⊢
  obtain ⟨k₂, notified⟩ := r
  cases notified with
  | false =>
      obtain rfl : k₂.setKbd { k₂.kbd with kbdbufidx := 0 } = k' := Except.ok.inj hk
      exact ⟨rfl, rfl, (hempty rfl).symm⟩
  | true =>
      simp only [if_true, Run.bind_eq_ok, pure, Except.pure, Except.ok.injEq] at hk
      obtain ⟨⟨k₃, w⟩, h₃, rfl⟩ := hk
      exact .notifyReader hg₁ h₃

theorem handleKey_stop (hg : Good k) (hk : handleKey k fuel c ascii = .ok k')
    (hs : handleStop k fuel c ascii = some (k₁, i)) :
    i < 4 ∧ SameKept (leaveFlush i (3 - i) (passKeys (i + 1) 0 k₁)).1 k' := by
  obtain ⟨hb, hs⟩ := handleStop_some hs
  unfold handleKey at hk
  rw [if_neg fun h => hb h.2, if_neg fun h => hb h.2] at hk
  rcases hs with ⟨hc, hs⟩ | ⟨hc, hquit, hs⟩
  · rw [if_neg hc] at hk
    exact bufferKey_stop hg hk hs
  · rw [if_pos hc, hquit] at hk
    have hg₁ := ((KbdOnly.completeRead k c).quiet (X := nobody) hg).good
    have hk₁ : bufferKey (completeRead k c) fuel c ascii = .ok k' := hk
    exact bufferKey_stop hg₁ hk₁ hs

/-- What `process_key` leaves when it has left the loop after the byte `i`. -/
theorem processKey_stop (hg : Good k) (hk : processKey k a = .ok k')
    (hs : keyStop k a = some (k₁, i)) :
    i < 4 ∧ SameKept (leaveFlush i (3 - i) (passKeys (i + 1) 0 k₁)).1 k' := by
  have hgn : Good (k.noteKey a) := { hg with }
  exact handleKey_stop hgn hk hs

/-! ## The bytes behind -/

theorem Kernel.kbdAddr_natCast (k : Kernel) (j : Nat) :
    k.kbdAddr j = k.kbd.kbdbuffer + BitVec.ofNat 32 j :=
  k.kbdAddr_eq (Int.natCast_nonneg j)

/-- The bytes move `d` places to the front, and nothing else changes. -/
theorem shiftKeys_mem (hd : 0 < d) (hn : j + d + n ≤ 0x100000000) :
    (∀ e, j ≤ e → e < j + n →
      (shiftKeys d n j k).mem (k.kbdAddr e) = k.mem (k.kbdAddr (e + d : ℕ))) ∧
    ∀ x, (∀ e : ℕ, j ≤ e → e < j + n → x ≠ k.kbdAddr e) → (shiftKeys d n j k).mem x = k.mem x := by
  induction n generalizing j k with
  | zero => exact ⟨fun e hje hen => absurd hen (Nat.not_lt.mpr hje), fun x _ => rfl⟩
  | succ n ih =>
      obtain ⟨hmoved, hkept⟩ := ih (j := j + 1)
        (k := k.setMem (k.mem.putByte (k.kbdAddr j) (k.mem (k.kbdAddr (j + d))))) (by omega)
      refine ⟨fun e hje hen => ?_, fun x hx => ?_⟩
      · rcases Nat.eq_or_lt_of_le hje with rfl | hje
        · refine (hkept _ fun e hje hen => ?_).trans Bytes.putByte_self
          rw [Kernel.kbdAddr_natCast, Kernel.kbdAddr_natCast]
          exact add_ofNat_ne (by omega) (by omega) (by omega)
        · refine (hmoved e hje (by omega)).trans (Bytes.putByte_ne ?_)
          rw [Kernel.kbdAddr_natCast, Kernel.kbdAddr_natCast]
          exact add_ofNat_ne (by omega) (by omega) (by omega)
      · refine (hkept x fun e hje hen => hx e (by omega) (by omega)).trans ?_
        exact Bytes.putByte_ne (hx j (Nat.le_refl j) (by omega))

/-- The bytes passed are written from `applbuffer[applbufidx]` on. -/
theorem passKeys_ne (hx : ∀ e : ℕ, e < n → x ≠ k.applAddr (k.kbd.applbufidx + e)) :
    (passKeys n i k).mem x = k.mem x := by
  induction n generalizing i k with
  | zero => rfl
  | succ n ih =>
      refine (ih (i := i + 1) (k := passKey k i) fun e he => ?_).trans (Bytes.putByte_ne ?_)
      · have hidx : (passKey k i).kbd.applbufidx + e = k.kbd.applbufidx + (e + 1 : ℕ) := by
          show k.kbd.applbufidx + 1 + e = _
          omega
        rw [hidx]
        exact hx (e + 1) (Nat.succ_lt_succ he)
      · have h₀ := hx 0 (Nat.succ_pos n)
        rwa [Int.natCast_zero, Int.add_zero] at h₀

/-- The buffer of the driver holds the bytes behind the byte `i` of `k`, in order, and
`kbdbufidx` is their number. -/
structure KeepsRest (k : Kernel) (i : Nat) (k' : Kernel) : Prop where
  number : k'.kbd.kbdbufidx = kbdbufsz - 1 - i
  rest : ∀ j : ℕ, i + 1 + j < 4 → k'.mem (k'.kbdAddr j) = k.mem (k.kbdAddr (i + 1 + j : ℕ))

/-- Passing the first two bytes leaves the other two as they are. -/
def SparesRest (k : Kernel) : Prop :=
  ∀ j : ℕ, 2 ≤ j → j < 4 → (passKeys 2 0 k).mem (k.kbdAddr j) = k.mem (k.kbdAddr j)

/-- They are passed to other places. -/
theorem SparesRest.of_ne (h : ∀ e j : ℕ, e < 2 → 2 ≤ j → j < 4 →
    k.kbdAddr j ≠ k.applAddr (k.kbd.applbufidx + e)) : SparesRest k :=
  fun j hj hj4 => passKeys_ne fun e he => h e j he hj hj4

theorem leaveFlush_kbd : (leaveFlush i m k).1.kbd.kbdbuffer = k.kbd.kbdbuffer ∧
    (leaveFlush i m k).1.kbd.kbdbufidx = if m = 0 then 0 else kbdbufsz - m := by
  unfold leaveFlush
  split
  · exact ⟨rfl, rfl⟩
  · refine ⟨?_, rfl⟩
    show (shiftKeys (i + 1) m 0 k).kbd.kbdbuffer = _
    rw [shiftKeys_kbd]

theorem leaveFlush_mem (hj : i + 1 + j < 4) :
    (leaveFlush i (3 - i) k).1.mem (k.kbdAddr j) = k.mem (k.kbdAddr (i + 1 + j : ℕ)) := by
  unfold leaveFlush
  rw [if_neg (by omega)]
  have hmoved := (shiftKeys_mem (k := k) (d := i + 1) (n := 3 - i) (j := 0) (Nat.succ_pos i)
    (by omega)).1 j (Nat.zero_le j) (by omega)
  rw [Nat.add_comm j (i + 1)] at hmoved
  exact hmoved

/-- Left after the last byte, the buffer is empty, as it should be; after the second one, the
distance of the move is the number of the bytes. -/
theorem keepsRest_iff (hi : i < 4)
    (h : SameKept (leaveFlush i (3 - i) (passKeys (i + 1) 0 k)).1 k') :
    KeepsRest k i k' ↔ i = 3 ∨ (i = 1 ∧ SparesRest k) := by
  obtain ⟨hbuf, hidx⟩ := leaveFlush_kbd (i := i) (m := 3 - i) (k := passKeys (i + 1) 0 k)
  rw [← h.buffer, passKeys_kbd, Kbd.atIdx_kbdbuffer] at hbuf
  rw [← h.idx] at hidx
  have haddr : ∀ j : ℕ, k'.kbdAddr j = k.kbdAddr j := fun j => by
    rw [Kernel.kbdAddr_natCast, Kernel.kbdAddr_natCast, hbuf]
  have haddr₁ : ∀ j : ℕ, (passKeys (i + 1) 0 k).kbdAddr j = k.kbdAddr j := fun j => by
    rw [Kernel.kbdAddr_natCast, Kernel.kbdAddr_natCast, passKeys_kbd, Kbd.atIdx_kbdbuffer]
  have hmem : ∀ j : ℕ, i + 1 + j < 4 →
      k'.mem (k'.kbdAddr j) = (passKeys (i + 1) 0 k).mem (k.kbdAddr (i + 1 + j : ℕ)) := by
    intro j hj
    rw [h.mem, haddr, ← haddr₁, leaveFlush_mem hj, haddr₁]
  constructor
  · rintro ⟨hnumber, hrest⟩
    rw [hidx] at hnumber
    by_cases h3 : i = 3
    · exact .inl h3
    have h1 : i = 1 := by
      rw [if_neg (by omega)] at hnumber
      omega
    subst h1
    refine .inr ⟨rfl, fun j hj hj4 => ?_⟩
    have hj₂ : 1 + 1 + (j - 2) = j := by omega
    have hbyte := hrest (j - 2) (by omega)
    rw [hmem (j - 2) (by omega), hj₂] at hbyte
    exact hbyte
  · rintro (rfl | ⟨rfl, hspares⟩)
    · exact ⟨hidx, fun j hj => absurd hj (by omega)⟩
    · exact ⟨hidx, fun j hj => (hmem j hj).trans (hspares _ (by omega) hj)⟩

/-! ## Why the loop is left -/

theorem bufferStop_newline (hroom : k.kbd.applbufidx + k.kbd.kbdbufidx + 1 < k.kbd.applbufsize ∨
      k.kbd.kbdbufidx = 0) (hs : bufferStop k c ascii = some (k₁, i)) :
    i = 3 ∨ (passKeys (i + 1) 0 k₁).mem (k₁.kbdAddr i) = 10 := by
  have hkeep : (keepKey k c).kbd.applbufidx = k.kbd.applbufidx ∧
      (keepKey k c).kbd.applbufsize = k.kbd.applbufsize ∧
      (keepKey k c).kbd.kbdbufidx ≤ k.kbd.kbdbufidx + 1 := by
    unfold keepKey
    split
    · exact ⟨rfl, rfl, Int.le_refl _⟩
    · exact ⟨rfl, rfl, by omega⟩
  obtain ⟨hidx, hsize, hnext⟩ := hkeep
  obtain ⟨-, rfl, hfull, hstop⟩ := bufferStop_some hs
  have hfour : (4 : Int) ≤ (keepKey k c).kbd.kbdbufidx := hfull.1
  obtain ⟨d, hd, hlt, -, hcause⟩ := flushStop_some hstop
  obtain rfl : i = d := hd.trans (Nat.zero_add d)
  rw [hidx, hsize] at hcause
  rcases hcause with hcause | hnl
  · exact .inl (by omega)
  · exact .inr hnl

/-- Before the last byte, only a newline has the loop left: the buffer of the reader has room for
all four. -/
theorem keyStop_newline (hs : keyStop k a = some (k₁, i)) :
    i = 3 ∨ (passKeys (i + 1) 0 k₁).mem (k₁.kbdAddr i) = 10 := by
  have hs' : handleStop (k.noteKey a) a.fuel a.datasrc (charOf k.kbd.keyState a.datasrc)
      = some (k₁, i) := hs
  obtain ⟨-, ⟨hc, hs⟩ | ⟨-, -, hs⟩⟩ := handleStop_some hs'
  · exact bufferStop_newline (.inl (Int.not_le.mp fun hle => hc (.inr (.inr hle)))) hs
  · refine bufferStop_newline (.inr ?_) hs
    unfold completeRead
    split
    · rfl
    · rfl

/-! ## A key -/

/-- In every reachable state, when a key fills the buffer of the driver while a buffer of a
reader is registered, and the loop is left after the byte `i`, `process_key` keeps the bytes
behind and their number if and only if it is the last byte, or the second one and the reader's
copy of the first two has not overwritten the others. -/
theorem flush_keeps_rest_iff (hs : dispatcher.Reachable s)
    (hk : processKey (contextswitch s.k s.p t) t.ambient = .ok k')
    (hstop : keyStop (contextswitch s.k s.p t) t.ambient = some (k₁, i)) :
    KeepsRest k₁ i k' ↔ i = 3 ∨ (i = 1 ∧ SparesRest k₁) := by
  have hsane := sane_of_reachable hs
  have hg := contextswitch_good hsane.good hsane.used t
  obtain ⟨hi, hleft⟩ := processKey_stop hg hk hstop
  exact keepsRest_iff hi hleft

/-- The root process installs a handler and reads ten bytes; its read is interrupted. Enter, an
`a` and a `b` are then typed. -/
def interrupted : Disp :=
  ([sampleInstall 5, sampleCall .openDev [0], sampleCall .read [0, 0x60100, 10], samplePost 1 5,
    sampleTyping 0x1c, sampleTyping 0x1e, sampleTyping 0x30].foldlM turn sampleBoot).getD sampleBoot

theorem interrupted_reachable : dispatcher.Reachable interrupted :=
  reachable_foldlM ⟨_, sampleBoot_init, .refl⟩ (Run.eq_getD (by decide +kernel))

/-- The root process reads five bytes, and three characters are typed. -/
def almostFull : Disp :=
  ([sampleCall .openDev [0], sampleCall .read [0, 0x60100, 5], sampleTyping 0x1e,
    sampleTyping 0x30, sampleTyping 0x2e].foldlM turn sampleBoot).getD sampleBoot

theorem almostFull_reachable : dispatcher.Reachable almostFull :=
  reachable_foldlM ⟨_, sampleBoot_init, .refl⟩ (Run.eq_getD (by decide +kernel))

/-- A key arrives in the state `s`. -/
def keyed (s : Disp) (c : Byte) : Kernel := contextswitch s.k s.p (sampleTyping c)

/-- A fourth one fills both buffers, and nothing is left over. -/
theorem flush_keeps_rest_of_four : ∃ k₁ k', keyStop (keyed almostFull 0x20)
      (sampleTyping 0x20).ambient = some (k₁, 3) ∧
    processKey (keyed almostFull 0x20) (sampleTyping 0x20).ambient = .ok k' ∧
    KeepsRest k₁ 3 k' := by
  have hk : processKey (keyed almostFull 0x20) (sampleTyping 0x20).ambient
      = .ok ((processKey (keyed almostFull 0x20) (sampleTyping 0x20).ambient).getD
          (keyed almostFull 0x20)) := Run.eq_getD (by decide +kernel)
  have hs : (keyStop (keyed almostFull 0x20) (sampleTyping 0x20).ambient).map Prod.snd
      = some 3 := by
    decide +kernel
  obtain ⟨⟨k₁, i⟩, hstop, hi⟩ := Option.map_eq_some_iff.mp hs
  obtain rfl : i = 3 := hi
  exact ⟨k₁, _, hstop, hk, (flush_keeps_rest_iff almostFull_reachable hk hstop).mpr (.inl rfl)⟩

/-- After a newline in front, the `a`, `b` and `c` behind it are kept, but counted as one. -/
theorem flush_loses_rest : ¬ ∀ (s : Disp) (t : Trap) (k₁ k' : Kernel) (i : Nat),
    dispatcher.Reachable s → processKey (contextswitch s.k s.p t) t.ambient = .ok k' →
    keyStop (contextswitch s.k s.p t) t.ambient = some (k₁, i) → KeepsRest k₁ i k' := by
  intro h
  have hk : processKey (keyed interrupted 0x2e) (sampleTyping 0x2e).ambient
      = .ok ((processKey (keyed interrupted 0x2e) (sampleTyping 0x2e).ambient).getD
          (keyed interrupted 0x2e)) := Run.eq_getD (by decide +kernel)
  have hfacts : (keyStop (keyed interrupted 0x2e) (sampleTyping 0x2e).ambient).map Prod.snd
        = some 0 ∧
      ((processKey (keyed interrupted 0x2e) (sampleTyping 0x2e).ambient).getD
        (keyed interrupted 0x2e)).kbd.kbdbufidx = 1 := by
    constructor
    · decide +kernel
    · decide +kernel
  obtain ⟨hs, hidx⟩ := hfacts
  obtain ⟨⟨k₁, i⟩, hstop, hi⟩ := Option.map_eq_some_iff.mp hs
  obtain rfl : i = 0 := hi
  have hnumber := (h interrupted (sampleTyping 0x2e) k₁ _ 0 interrupted_reachable hk hstop).number
  rw [hidx] at hnumber
  exact absurd hnumber (by decide)

end Xeros
