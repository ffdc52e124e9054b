import Xeros.Logic.Rest
import Xeros.Logic.Touches

/-!
# What the driver stores

The log of `process_key` leaves nothing out: a byte that is at none of the logged places is
not written.
-/

namespace Xeros

open Lib

variable {k k' : Kernel} {a : Ambient} {c ascii : Byte} {echo : Bool} {e : Touch} {x : Word}
  {b b' : Kbd} {log : List Touch}

/-- Where an access goes. -/
def Touch.addr (b : Kbd) : Touch → Word
  | .kbd i => b.kbdbuffer + BitVec.ofInt 32 i
  | .appl i => b.applbuffer + BitVec.ofInt 32 i

/-- No access of the log goes to `x`. -/
def Misses (b : Kbd) (log : List Touch) (x : Word) : Prop := ∀ e ∈ log, x ≠ e.addr b

/-- The buffers are where they were. -/
def SamePlaces (b b' : Kbd) : Prop := b'.kbdbuffer = b.kbdbuffer ∧ b'.applbuffer = b.applbuffer

theorem Touch.addr_congr (h : SamePlaces b b') : e.addr b' = e.addr b := by
  cases e with
  | kbd i => exact congrArg (· + _) h.1
  | appl i => exact congrArg (· + _) h.2

namespace Misses

theorem left {log' : List Touch} (h : Misses b (log ++ log') x) : Misses b log x :=
  fun e he => h e (List.mem_append_left _ he)

theorem right {log' : List Touch} (h : Misses b (log ++ log') x) : Misses b log' x :=
  fun e he => h e (List.mem_append_right _ he)

theorem congr (h : Misses b log x) (hb : SamePlaces b b') : Misses b' log x :=
  fun e he => Touch.addr_congr hb ▸ h e he

end Misses

/-! ## The steps of the driver -/

theorem passKey_frame {i : Nat} (h : Misses k.kbd (passTouches k i) x) :
    (passKey k i).mem x = k.mem x :=
  Bytes.putByte_ne (h _ (List.mem_cons_of_mem _ List.mem_cons_self))

theorem passKeys_places (n i : Nat) (k : Kernel) : SamePlaces k.kbd (passKeys n i k).kbd := by
  rw [passKeys_kbd]
  exact ⟨rfl, rfl⟩

theorem passKeys_frame {n i : Nat} (h : Misses k.kbd (loggedPasses n i k).2 x) :
    (passKeys n i k).mem x = k.mem x := by
  induction n generalizing i k with
  | zero => rfl
  | succ n ih =>
      have hrest : Misses (passKey k i).kbd (loggedPasses n (i + 1) (passKey k i)).2 x :=
        h.right.congr ⟨rfl, rfl⟩
      exact (ih hrest).trans (passKey_frame h.left)

theorem deliverKeys_frame (h : Misses k.kbd (loggedDeliver k).2 x) :
    (deliverKeys k).mem x = k.mem x := by
  have hlog : (loggedDeliver k).2 = (loggedPasses k.kbd.kbdbufidx.toNat 0 k).2 ++
      [.appl (passKeys k.kbd.kbdbufidx.toNat 0 k).kbd.applbufidx] := by
    unfold loggedDeliver
    dsimp only
    rw [loggedPasses_eq]
  rw [hlog] at h
  have hend := h.right.congr (passKeys_places k.kbd.kbdbufidx.toNat 0 k) _ List.mem_cons_self
  exact (Bytes.putByte_ne hend).trans (passKeys_frame h.left)

theorem completeRead_frame (h : Misses k.kbd (loggedComplete k c).2 x) :
    (completeRead k c).mem x = k.mem x := by
  unfold loggedComplete at h
  unfold completeRead
  split
  · rename_i heof
    rw [if_pos heof] at h
    have hrest : Misses (receiveEof k).kbd (loggedDeliver (receiveEof k)).2 x :=
      Misses.congr (fun e he => h e (List.mem_cons_of_mem _ he)) ⟨rfl, rfl⟩
    exact (deliverKeys_frame hrest).trans (Bytes.putByte_ne (h _ List.mem_cons_self))
  · rename_i heof
    rw [if_neg heof] at h
    exact deliverKeys_frame h

theorem completeRead_places (k : Kernel) (c : Byte) :
    SamePlaces k.kbd (completeRead k c).kbd := by
  unfold completeRead
  split
  · exact passKeys_places _ 0 (receiveEof k)
  · exact passKeys_places _ 0 k

theorem shiftKeys_frame {d n j : Nat} (h : Misses k.kbd (loggedShift d n j k).2 x) :
    (shiftKeys d n j k).mem x = k.mem x := by
  induction n generalizing j k with
  | zero => rfl
  | succ n ih =>
      refine Eq.trans (ih (j := j + 1) fun e he => ?_) (Bytes.putByte_ne (h _ List.mem_cons_self))
      exact h e (List.mem_cons_of_mem _ (List.mem_cons_of_mem _ he))

theorem flushKeys_frame {n i : Nat} (h : Misses k.kbd (loggedFlush n i k).2 x) :
    (flushKeys n i k).1.mem x = k.mem x := by
  induction n generalizing i k with
  | zero => rfl
  | succ n ih =>
      unfold loggedFlush at h
      unfold flushKeys
      dsimp only at h ⊢
      have hpass : Misses k.kbd (passTouches k i) x → (passKey k i).mem x = k.mem x :=
        passKey_frame
      have hsame : SamePlaces k.kbd (passKey k i).kbd := ⟨rfl, rfl⟩
      split at h
      · split at h
        · rename_i hfull hlast
          rw [if_pos hfull, if_pos hlast]
          exact (ih (k := (passKey k i).setKbd _) (h.right.congr hsame)).trans
            (hpass h.left.left)
        · rename_i hfull hmore
          rw [if_pos hfull, if_neg hmore]
          exact (shiftKeys_frame (h.right.congr hsame)).trans (hpass h.left.left)
      · rename_i hroom
        rw [if_neg hroom]
        exact (ih (h.right.congr hsame)).trans (hpass h.left.left)

theorem storeKey_frame (h : Misses k.kbd (loggedStore k c).2 x) :
    (storeKey k c).mem x = k.mem x :=
  Bytes.putByte_ne (h _ List.mem_cons_self)

theorem storeAndFlush_frame (h : Misses k.kbd (loggedStoreAndFlush k echo c).2 x) :
    (storeAndFlush k c).1.mem x = k.mem x := by
  have hkeep : Misses k.kbd (loggedKeep k c).2 x →
      (loggedKeep k c).1.mem x = k.mem x ∧ SamePlaces k.kbd (loggedKeep k c).1.kbd := by
    unfold loggedKeep
    intro hm
    split
    · rename_i hlt
      rw [if_pos hlt] at hm
      exact ⟨storeKey_frame hm, rfl, rfl⟩
    · exact ⟨rfl, rfl, rfl⟩
  rw [← loggedStoreAndFlush_eq k echo c]
  unfold loggedStoreAndFlush at h ⊢
  dsimp only at h ⊢
  split
  · rename_i hfull
    rw [if_pos hfull] at h
    have hflush : ∀ hm : Misses k.kbd ((loggedKeep k c).2 ++ echoTouches (loggedKeep k c).1 echo
        ++ (loggedFlush 4 0 (loggedKeep k c).1).2) x,
        (loggedFlush 4 0 (loggedKeep k c).1).1.1.mem x = k.mem x := by
      intro hm
      obtain ⟨hmem, hsame⟩ := hkeep hm.left.left
      rw [loggedFlush_eq]
      exact (flushKeys_frame (hm.right.congr hsame)).trans hmem
    split
    · rename_i hf
      rw [if_pos hf] at h
      exact hflush h
    · rename_i hf
      rw [if_neg hf] at h
      exact hflush h
  · rename_i hroom
    rw [if_neg hroom] at h
    exact (hkeep h.left).1

/-! ## A key -/

theorem notifyReader_mem {fuel : Nat} {w : Bool} (h : notifyReader k fuel = .ok (k', w)) :
    k'.mem = k.mem := by
  unfold notifyReader at h
  split at h
  · obtain ⟨rfl, -⟩ : k = k' ∧ false = w := by simpa [pure, Except.pure] using h
    rfl
  split at h
  · simp only [notify, Run.bind_eq_ok, pure, Except.pure, Except.ok.injEq, Prod.mk.injEq] at h
    obtain ⟨k₁, ⟨-, -, ⟨k₂, n⟩, h₂, h₃⟩, rfl, -⟩ := h
    exact (Rest.ready h₃).mem.trans (Rest.remove h₂).mem
  · obtain ⟨rfl, -⟩ : k = k' ∧ false = w := by simpa [pure, Except.pure] using h
    rfl

theorem bufferKey_frame {fuel : Nat} (h : Misses k.kbd (loggedBufferKey k fuel echo c ascii).2 x)
    (hk : bufferKey k fuel c ascii = .ok k') : k'.mem x = k.mem x := by
  unfold loggedBufferKey at h
  unfold bufferKey at hk
  split at hk
  · obtain rfl : k = k' := Except.ok.inj hk
    rfl
  · rename_i hstored
    rw [if_neg hstored] at h
    have hstore : Misses k.kbd (loggedStoreAndFlush k echo c).2 x →
        (storeAndFlush k c).1.mem x = k.mem x := storeAndFlush_frame
    have heq := loggedStoreAndFlush_eq k echo c
    generalize loggedStoreAndFlush k echo c = r at h hstore heq
    obtain ⟨⟨k₁, full⟩, log⟩ := r
    rw [← heq] at hk hstore
    cases full with
    | false =>
        obtain rfl : k₁ = k' := Except.ok.inj hk
        exact hstore h
    | true =>
        simp only [Run.bind_eq_ok, pure, Except.pure, Except.ok.injEq] at hk
        obtain ⟨⟨k₂, w⟩, h₂, rfl⟩ := hk
        exact (congrFun (notifyReader_mem h₂) x).trans (hstore h)

theorem handleKey_frame {fuel : Nat}
    (h : Misses k.kbd (loggedHandleKey k fuel echo c ascii).2 x)
    (hk : handleKey k fuel c ascii = .ok k') : k'.mem x = k.mem x := by
  unfold loggedHandleKey at h
  unfold handleKey at hk
  split at hk
  · obtain rfl : k = k' := Except.ok.inj hk
    rfl
  rename_i hfull
  rw [if_neg hfull] at h
  split at hk
  · rename_i hidle
    rw [if_pos hidle] at h
    obtain rfl : storeKey k c = k' := Except.ok.inj hk
    exact storeKey_frame h
  rename_i hroom
  rw [if_neg hroom] at h
  split at hk
  · rename_i hc
    rw [if_pos hc] at h
    dsimp only at h
    simp only [Run.bind_eq_ok] at hk
    obtain ⟨⟨k₁, w⟩, h₁, hk⟩ := hk
    rw [loggedComplete_eq, h₁] at h
    have hfirst : Misses k.kbd (loggedComplete k c).2 x → (completeRead k c).mem x = k.mem x :=
      completeRead_frame
    cases w with
    | true =>
        obtain rfl : k₁ = k' := Except.ok.inj hk
        exact (congrFun (notifyReader_mem h₁) x).trans (hfirst h)
    | false =>
        obtain ⟨rfl, -⟩ := notifyReader_quits h₁
        exact (bufferKey_frame (h.right.congr (completeRead_places k c)) hk).trans
          (hfirst h.left)
  · rename_i hc
    rw [if_neg hc] at h
    exact bufferKey_frame h hk

/-- A byte that the log does not name is not written. -/
theorem processKey_frame (h : Misses k.kbd (loggedProcessKey k a echo).2 x)
    (hk : processKey k a = .ok k') : k'.mem x = k.mem x :=
  handleKey_frame (k := k.noteKey a) (Misses.congr h ⟨rfl, rfl⟩) hk

/-- Where a key may be stored: the buffer of the driver, and that of the reader from the next
place up to the one behind the terminator. -/
inductive KeyStores (k : Kernel) (x : Word) : Prop
  | kbd (h : InRange k.kbd.kbdbuffer 4 x)
  | appl (h₀ : k.kbd.applbuffer ≠ 0)
      (h : InRange (k.applAddr k.kbd.applbufidx) (k.kbd.kbdbufidx.toNat + 2) x)

theorem processKey_footprint (h : Indexed k.kbd) (hk : processKey k a = .ok k')
    (hx : ¬ KeyStores k x) : k'.mem x = k.mem x := by
  have hframe : Misses k.kbd (loggedProcessKey k a false).2 x → k'.mem x = k.mem x :=
    fun h => processKey_frame h hk
  refine hframe fun e he heq => hx ?_
  have hn : Indexed (k.noteKey a).kbd := { h with }
  have hkbd : ∀ i : Int, 0 ≤ i → i < kbdbufsz → x = (Touch.kbd i).addr k.kbd →
      InRange k.kbd.kbdbuffer 4 x := by
    intro i h₀ h₄ he
    obtain ⟨n, rfl⟩ := Int.eq_ofNat_of_zero_le h₀
    have hlt : n < 4 := Int.ofNat_lt.mp h₄
    rw [he]
    exact inRange_add hlt
  have happl : ∀ j : Int, k.kbd.applbufidx ≤ j → j ≤ k.kbd.held + 1 →
      x = (Touch.appl j).addr k.kbd →
        InRange (k.applAddr k.kbd.applbufidx) (k.kbd.kbdbufidx.toNat + 2) x := by
    intro j hj hj' he
    obtain ⟨n, hn⟩ := Int.eq_ofNat_of_zero_le (Int.sub_nonneg.mpr hj)
    have hx : x = k.applAddr k.kbd.applbufidx + BitVec.ofNat 32 n := by
      rw [he]
      show k.kbd.applbuffer + BitVec.ofInt 32 j
        = k.kbd.applbuffer + BitVec.ofInt 32 k.kbd.applbufidx + BitVec.ofNat 32 n
      rw [show j = k.kbd.applbufidx + n by omega, BitVec.ofInt_add, BitVec.add_assoc]
      rfl
    rw [hx]
    refine inRange_add ?_
    have hk := h.kept
    unfold Kbd.held at hj'
    omega
  rcases loggedHandleKey_within hn he with ⟨-, i, rfl, hi⟩ | ⟨hb, hw | ⟨-, -, rfl⟩⟩
  · exact .kbd (hkbd i hi.1 hi.2 heq)
  · cases e with
    | kbd i => exact .kbd (hkbd i hw.1 hw.2 heq)
    | appl j => exact .appl hb (happl j hw.1 (Int.le_trans hw.2 (Int.le_add_one (Int.le_refl _))) heq)
  · have hk := h.kept
    refine .appl hb (happl _ ?_ (Int.le_refl _) heq)
    show k.kbd.applbufidx ≤ k.kbd.applbufidx + k.kbd.kbdbufidx + 1
    omega

end Xeros
