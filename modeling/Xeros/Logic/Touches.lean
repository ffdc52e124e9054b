import Xeros.Logic.Keys

/-!
# The indices of the driver

The functions of the driver once more, with a log of the indices at which they access
`kbdbuffer` and write to `applbuffer`. Leaving the log out gives the functions of the model.
`device` is not part of the model: whether the key is echoed is a parameter.
-/

namespace Xeros

open Lib

/-- An access of the driver: to `kbdbuffer[i]`, or a write to `applbuffer[i]`. -/
inductive Touch where
  | kbd (i : Int)
  | appl (i : Int)
  deriving DecidableEq

variable {k k' : Kernel} {a : Ambient} {c ascii : Byte} {echo : Bool} {e : Touch}

/-! ## The functions with their accesses -/

/-- `kbdbuffer[kbdbufidx++]=kbtoa(c)`. -/
def loggedStore (k : Kernel) (c : Byte) : Kernel × List Touch :=
  (storeKey k c, [.kbd k.kbd.kbdbufidx])

/-- `applbuffer[applbufidx]=kbdbuffer[i]; applbufidx++;`. -/
def passTouches (k : Kernel) (i : Nat) : List Touch := [.kbd i, .appl k.kbd.applbufidx]

@[inherit_doc passKeys]
def loggedPasses : Nat → Nat → Kernel → Kernel × List Touch
  | 0, _, k => (k, [])
  | n + 1, i, k =>
    let log := passTouches k i
    let (k, log') := loggedPasses n (i + 1) (passKey k i)
    (k, log ++ log')

@[inherit_doc deliverKeys]
def loggedDeliver (k : Kernel) : Kernel × List Touch :=
  let (k, log) := loggedPasses k.kbd.kbdbufidx.toNat 0 k
  -- `applbuffer[applbufidx]='\0';`
  ((k.setMem (k.mem.putByte (k.applAddr k.kbd.applbufidx) 0)).setKbd
    { k.kbd with kbdbufidx := 0 }, log ++ [.appl k.kbd.applbufidx])

@[inherit_doc completeRead]
def loggedComplete (k : Kernel) (c : Byte) : Kernel × List Touch :=
  if eofKey k.kbd c then
    -- `applbuffer[applbufidx+kbdbufidx+1]='\0';`
    let i := k.kbd.applbufidx + k.kbd.kbdbufidx + 1
    let (k, log) := loggedDeliver (receiveEof k)
    (k, .appl i :: log)
  else loggedDeliver k

@[inherit_doc shiftKeys]
def loggedShift (d : Nat) : Nat → Nat → Kernel → Kernel × List Touch
  | 0, _, k => (k, [])
  | n + 1, j, k =>
    let k := k.setMem (k.mem.putByte (k.kbdAddr j) (k.mem (k.kbdAddr (j + d))))
    let (k, log) := loggedShift d n (j + 1) k
    (k, .kbd j :: .kbd (j + d) :: log)

@[inherit_doc flushKeys]
def loggedFlush : Nat → Nat → Kernel → (Kernel × Bool) × List Touch
  | 0, _, k => ((k, false), [])
  | n + 1, i, k =>
    -- the last one is `kbdbuffer[i]=='\n'`
    let log := passTouches k i ++ [.kbd i]
    let k := passKey k i
    if k.kbd.applbufsize - 1 ≤ k.kbd.applbufidx ∨ k.mem (k.kbdAddr i) = 10 then
      if n = 0 then
        let (r, log') := loggedFlush n (i + 1) (k.setKbd { k.kbd with kbdbufidx := 0 })
        (r, log ++ log')
      else
        let (k, log') := loggedShift (i + 1) n 0 k
        ((k.setKbd { k.kbd with kbdbufidx := kbdbufsz - n }, true), log ++ log')
    else
      let (r, log') := loggedFlush n (i + 1) k
      (r, log ++ log')

@[inherit_doc keepKey]
def loggedKeep (k : Kernel) (c : Byte) : Kernel × List Touch :=
  if k.kbd.kbdbufidx < kbdbufsz then loggedStore k c else (k, [])

/-- `kprintf("%c",kbdbuffer[kbdbufidx-1])`, if `device` is the keyboard with echo. -/
def echoTouches (k : Kernel) (echo : Bool) : List Touch :=
  if echo ∧ k.kbd.applbuffer ≠ 0 then [.kbd (k.kbd.kbdbufidx - 1)] else []

@[inherit_doc storeAndFlush]
def loggedStoreAndFlush (k : Kernel) (echo : Bool) (c : Byte) : (Kernel × Bool) × List Touch :=
  let (k, log) := loggedKeep k c
  let log := log ++ echoTouches k echo
  if kbdbufsz ≤ k.kbd.kbdbufidx ∧ k.kbd.applbuffer ≠ 0 then
    let ((k, full), log') := loggedFlush 4 0 k
    if full then ((k, true), log ++ log')
    else ((k.setKbd { k.kbd with kbdbufidx := 0 }, false), log ++ log')
  else ((k, false), log)

@[inherit_doc bufferKey]
def loggedBufferKey (k : Kernel) (fuel : Nat) (echo : Bool) (c ascii : Byte) :
    Run Kernel × List Touch :=
  if keyIgnored c ascii then (return k, [])
  else
    match loggedStoreAndFlush k echo c with
    | ((k, false), log) => (return k, log)
    | ((k, true), log) => (do
        let (k, _) ← notifyReader k fuel
        return k, log)

@[inherit_doc handleKey]
def loggedHandleKey (k : Kernel) (fuel : Nat) (echo : Bool) (c ascii : Byte) :
    Run Kernel × List Touch :=
  if kbdbufsz ≤ k.kbd.kbdbufidx ∧ k.kbd.applbuffer = 0 then (return k, [])
  else if k.kbd.kbdbufidx < kbdbufsz ∧ k.kbd.applbuffer = 0 then
    let (k, log) := loggedStore k c
    (return k, log)
  else if readCompletes k.kbd c ascii then
    let (k, log) := loggedComplete k c
    -- the log is kept when the notification does not come back
    match notifyReader k fuel with
    | .error err => (.error err, log)
    | .ok (k, true) => (return k, log)
    | .ok (k, false) =>
      let (r, log') := loggedBufferKey k fuel echo c ascii
      (r, log ++ log')
  else loggedBufferKey k fuel echo c ascii

/-- `process_key`, with its accesses. -/
def loggedProcessKey (k : Kernel) (a : Ambient) (echo : Bool) : Run Kernel × List Touch :=
  let (ch, st) := kbtoa k.kbd.keyState a.datasrc
  loggedHandleKey (k.setKbd { k.kbd with keyState := st }) a.fuel echo a.datasrc (ch.setWidth 8)

/-- The loop of `kbd_read` that clears the buffer, with its writes: `n` turns from `i` on. -/
def loggedClear (buff : Word) : Nat → Nat → Bytes → Bytes × List Touch
  | 0, _, m => (m, [])
  | n + 1, i, m =>
    let (m, log) := loggedClear buff n (i + 1) (m.putByte (buff + BitVec.ofNat 32 i) 0)
    (m, .appl i :: log)

/-- `kbd_read`, with its writes to the buffer. -/
def loggedKbdRead (k : Kernel) (p : Slot) (buff : Word) (bufflen : Int) :
    (Int × Kernel) × List Touch :=
  if k.kbd.eofReceived then
    let (m, log) := loggedClear buff bufflen.toNat 0 k.mem
    ((eof, k.setMem m), log)
  else (ekbdRead k p buff bufflen, [])

/-! ## The log changes nothing -/

theorem loggedPasses_eq (n i : Nat) (k : Kernel) : (loggedPasses n i k).1 = passKeys n i k := by
  induction n generalizing i k with
  | zero => rfl
  | succ n ih => exact ih (i + 1) (passKey k i)

theorem loggedDeliver_eq (k : Kernel) : (loggedDeliver k).1 = deliverKeys k := by
  unfold loggedDeliver deliverKeys
  rw [← loggedPasses_eq]

theorem loggedComplete_eq (k : Kernel) (c : Byte) :
    (loggedComplete k c).1 = completeRead k c := by
  unfold loggedComplete completeRead
  split
  · exact loggedDeliver_eq (receiveEof k)
  · exact loggedDeliver_eq k

theorem loggedShift_eq (d n j : Nat) (k : Kernel) :
    (loggedShift d n j k).1 = shiftKeys d n j k := by
  induction n generalizing j k with
  | zero => rfl
  | succ n ih => exact ih (j + 1) _

theorem loggedFlush_eq (n i : Nat) (k : Kernel) : (loggedFlush n i k).1 = flushKeys n i k := by
  induction n generalizing i k with
  | zero => rfl
  | succ n ih =>
      unfold loggedFlush flushKeys
      simp only [← loggedShift_eq, ← ih]
      split
      · split
        · rfl
        · rfl
      · rfl

theorem loggedStoreAndFlush_eq (k : Kernel) (echo : Bool) (c : Byte) :
    (loggedStoreAndFlush k echo c).1 = storeAndFlush k c := by
  have hkeep : (loggedKeep k c).1 = keepKey k c := by
    unfold loggedKeep keepKey
    split
    · rfl
    · rfl
  unfold loggedStoreAndFlush storeAndFlush
  rw [← hkeep]
  dsimp only
  split
  · rw [← loggedFlush_eq]
    generalize loggedFlush 4 0 (loggedKeep k c).1 = r
    obtain ⟨⟨k₁, full⟩, log⟩ := r
    cases full
    · rfl
    · rfl
  · rfl

theorem loggedBufferKey_eq (k : Kernel) (fuel : Nat) (echo : Bool) (c ascii : Byte) :
    (loggedBufferKey k fuel echo c ascii).1 = bufferKey k fuel c ascii := by
  unfold loggedBufferKey bufferKey
  split
  · rfl
  · rw [← loggedStoreAndFlush_eq k echo c]
    generalize loggedStoreAndFlush k echo c = r
    obtain ⟨⟨k₁, full⟩, log⟩ := r
    cases full
    · rfl
    · rfl

theorem loggedHandleKey_eq (k : Kernel) (fuel : Nat) (echo : Bool) (c ascii : Byte) :
    (loggedHandleKey k fuel echo c ascii).1 = handleKey k fuel c ascii := by
  unfold loggedHandleKey handleKey
  split
  · rfl
  split
  · rfl
  split
  · rw [← loggedComplete_eq]
    dsimp only
    cases notifyReader (loggedComplete k c).1 fuel with
    | error err => rfl
    | ok r =>
        obtain ⟨k₁, woken⟩ := r
        cases woken with
        | false => exact loggedBufferKey_eq k₁ fuel echo c ascii
        | true => rfl
  · exact loggedBufferKey_eq k fuel echo c ascii

/-- The logged `process_key` leaves what `process_key` leaves. -/
theorem loggedProcessKey_eq (k : Kernel) (a : Ambient) (echo : Bool) :
    (loggedProcessKey k a echo).1 = processKey k a :=
  loggedHandleKey_eq _ _ _ _ _

theorem loggedClear_eq (buff : Word) (n i : Nat) (m : Bytes) :
    (loggedClear buff n i m).1 = m.splice (buff + BitVec.ofNat 32 i) n fun _ => 0 := by
  induction n generalizing i m with
  | zero =>
      funext x
      exact (Bytes.splice_of_not_inRange (Nat.not_lt_zero _)).symm
  | succ n ih =>
      have hnext : buff + BitVec.ofNat 32 (i + 1) = buff + BitVec.ofNat 32 i + 1 := by
        rw [BitVec.ofNat_add]
        bv_omega
      have hstep := ih (i + 1) (m.putByte (buff + BitVec.ofNat 32 i) 0)
      rw [hnext] at hstep
      refine hstep.trans ?_
      generalize buff + BitVec.ofNat 32 i = b
      funext x
      by_cases hx : x = b
      · subst hx
        have hin : InRange x (n + 1) x := by
          unfold InRange
          simp
        rw [Bytes.splice_of_inRange hin]
        unfold Bytes.splice
        split
        · rfl
        · exact Bytes.putByte_self
      · have hsub : (x - b).toNat = (x - (b + 1)).toNat + 1 := by
          have hne : (x - b).toNat ≠ 0 := fun h => hx (by bv_omega)
          bv_omega
        have hiff : InRange b (n + 1) x ↔ InRange (b + 1) n x := by
          unfold InRange
          omega
        by_cases hin : InRange (b + 1) n x
        · rw [Bytes.splice_of_inRange hin, Bytes.splice_of_inRange (hiff.mpr hin)]
        · rw [Bytes.splice_of_not_inRange hin, Bytes.splice_of_not_inRange (fun h => hin (hiff.mp h)),
            Bytes.putByte_ne hx]

theorem loggedKbdRead_eq (k : Kernel) (p : Slot) (buff : Word) (bufflen : Int) :
    (loggedKbdRead k p buff bufflen).1 = kbdRead k p buff bufflen := by
  unfold loggedKbdRead kbdRead
  split
  · show (eof, k.setMem (loggedClear buff bufflen.toNat 0 k.mem).1) = _
    rw [loggedClear_eq, BitVec.ofNat_eq_ofNat, BitVec.add_zero]
  · rfl

/-! ## Where the accesses lie -/

/-- The index of the driver's buffer is in `0..KBDBUFSZ`, and that of the reader's is no
negative number. -/
structure Indexed (b : Kbd) : Prop where
  passed : 0 ≤ b.applbufidx
  kept : 0 ≤ b.kbdbufidx
  short : b.kbdbufidx ≤ kbdbufsz

/-- The number of characters that a read holds. -/
def Kbd.held (b : Kbd) : Int := b.applbufidx + b.kbdbufidx

/-- The access is in `kbdbuffer`, or writes to `applbuffer` at an index from `lo` to `hi`. -/
def Touch.Within (lo hi : Int) : Touch → Prop
  | .kbd i => 0 ≤ i ∧ i < kbdbufsz
  | .appl j => lo ≤ j ∧ j ≤ hi

theorem Touch.Within.mono {lo lo' hi hi' : Int} (h : e.Within lo hi) (hl : lo' ≤ lo)
    (hh : hi ≤ hi') : e.Within lo' hi' := by
  cases e with
  | kbd i => exact h
  | appl j => exact ⟨Int.le_trans hl h.1, Int.le_trans h.2 hh⟩

theorem passTouches_within {i : Nat} (hi : (i : Int) < kbdbufsz) (he : e ∈ passTouches k i) :
    e.Within k.kbd.applbufidx k.kbd.applbufidx := by
  rcases List.mem_pair.mp he with rfl | rfl
  · exact ⟨Int.natCast_nonneg i, hi⟩
  · exact ⟨Int.le_refl _, Int.le_refl _⟩

theorem loggedPasses_within {n i : Nat} (hi : ((i + n : Nat) : Int) ≤ kbdbufsz)
    (he : e ∈ (loggedPasses n i k).2) :
    e.Within k.kbd.applbufidx (k.kbd.applbufidx + n - 1) := by
  induction n generalizing i k with
  | zero => exact absurd he List.not_mem_nil
  | succ n ih =>
      rcases List.mem_append.mp he with he | he
      · exact (passTouches_within (by omega) he).mono (Int.le_refl _) (by omega)
      · have hidx : (passKey k i).kbd.applbufidx = k.kbd.applbufidx + 1 := rfl
        have hrest := ih (by omega) he
        rw [hidx] at hrest
        exact hrest.mono (by omega) (by omega)

theorem loggedDeliver_end (h : Indexed k.kbd) :
    (passKeys k.kbd.kbdbufidx.toNat 0 k).kbd.applbufidx = k.kbd.held := by
  rw [passKeys_kbd, Kbd.atIdx_applbufidx, Int.toNat_of_nonneg h.kept]
  rfl

/-- The characters are passed to the places before the terminator. -/
theorem loggedDeliver_within (h : Indexed k.kbd) :
    (∀ e ∈ (loggedDeliver k).2, e.Within k.kbd.applbufidx k.kbd.held) ∧
      .appl k.kbd.held ∈ (loggedDeliver k).2 := by
  have hlog : (loggedDeliver k).2
      = (loggedPasses k.kbd.kbdbufidx.toNat 0 k).2 ++ [.appl k.kbd.held] := by
    unfold loggedDeliver
    dsimp only
    rw [loggedPasses_eq, loggedDeliver_end h]
  have hk := h.kept
  have hs := h.short
  rw [hlog]
  refine ⟨fun e he => ?_, List.mem_append_right _ List.mem_cons_self⟩
  rcases List.mem_append.mp he with he | he
  · refine (loggedPasses_within (by omega) he).mono (Int.le_refl _) ?_
    unfold Kbd.held
    omega
  · obtain rfl := List.mem_singleton.mp he
    refine ⟨?_, Int.le_refl _⟩
    unfold Kbd.held
    omega

/-- The end-of-file key has the place behind the terminator written, too. -/
theorem loggedComplete_within (h : Indexed k.kbd) (c : Byte) :
    (∀ e ∈ (loggedComplete k c).2, e.Within k.kbd.applbufidx k.kbd.held ∨
      (eofKey k.kbd c ∧ e = .appl (k.kbd.held + 1))) ∧
    .appl k.kbd.held ∈ (loggedComplete k c).2 ∧
    (eofKey k.kbd c → .appl (k.kbd.held + 1) ∈ (loggedComplete k c).2) := by
  unfold loggedComplete
  split
  · rename_i heof
    have h' : Indexed (receiveEof k).kbd := { h with }
    obtain ⟨hin, hend⟩ := loggedDeliver_within h'
    refine ⟨fun e he => ?_, List.mem_cons_of_mem _ hend, fun _ => List.mem_cons_self⟩
    rcases List.mem_cons.mp he with rfl | he
    · exact .inr ⟨heof, rfl⟩
    · exact .inl (hin e he)
  · rename_i heof
    obtain ⟨hin, hend⟩ := loggedDeliver_within h
    exact ⟨fun e he => .inl (hin e he), hend, fun he => absurd he heof⟩

theorem loggedShift_within {d n j : Nat} {lo hi : Int} (hd : ((j + d + n : Nat) : Int) ≤ kbdbufsz)
    (he : e ∈ (loggedShift d n j k).2) : e.Within lo hi := by
  induction n generalizing j k with
  | zero => exact absurd he List.not_mem_nil
  | succ n ih =>
      rcases List.mem_cons.mp he with rfl | he
      · exact ⟨Int.natCast_nonneg j, by omega⟩
      rcases List.mem_cons.mp he with rfl | he
      · exact ⟨by omega, by omega⟩
      · exact ih (by omega) he

theorem loggedFlush_within {n i : Nat} (hi : ((i + n : Nat) : Int) ≤ kbdbufsz)
    (he : e ∈ (loggedFlush n i k).2) :
    e.Within k.kbd.applbufidx (k.kbd.applbufidx + n - 1) := by
  induction n generalizing i k with
  | zero => exact absurd he List.not_mem_nil
  | succ n ih =>
      have hidx : (passKey k i).kbd.applbufidx = k.kbd.applbufidx + 1 := rfl
      have hturn : ∀ e ∈ passTouches k i ++ [.kbd i],
          e.Within k.kbd.applbufidx (k.kbd.applbufidx + (n + 1 : Nat) - 1) := by
        intro e he
        rcases List.mem_append.mp he with he | he
        · exact (passTouches_within (by omega) he).mono (Int.le_refl _) (by omega)
        · obtain rfl := List.mem_singleton.mp he
          exact ⟨Int.natCast_nonneg i, by omega⟩
      have hnext : ∀ k₁ : Kernel, e ∈ (loggedFlush n (i + 1) k₁).2 →
          k₁.kbd.applbufidx = k.kbd.applbufidx + 1 →
          e.Within k.kbd.applbufidx (k.kbd.applbufidx + (n + 1 : Nat) - 1) := by
        intro k₁ he h₁
        have hrest := ih (by omega) he
        rw [h₁] at hrest
        exact hrest.mono (by omega) (by omega)
      unfold loggedFlush at he
      dsimp only at he
      split at he
      · split at he
        · rcases List.mem_append.mp he with he | he
          · exact hturn e he
          · exact hnext _ he hidx
        · rcases List.mem_append.mp he with he | he
          · exact hturn e he
          · exact loggedShift_within (by omega) he
      · rcases List.mem_append.mp he with he | he
        · exact hturn e he
        · exact hnext _ he hidx

/-- A key that is stored finds a place, and what it has flushed comes before the next one. -/
theorem loggedStoreAndFlush_within (h : Indexed k.kbd)
    (he : e ∈ (loggedStoreAndFlush k echo c).2) : e.Within k.kbd.applbufidx k.kbd.held := by
  have hk := h.kept
  have hkeep : (loggedKeep k c).1.kbd.applbufidx = k.kbd.applbufidx ∧
      0 < (loggedKeep k c).1.kbd.kbdbufidx ∧ (loggedKeep k c).1.kbd.kbdbufidx ≤ kbdbufsz ∧
      (loggedKeep k c).1.kbd.kbdbufidx ≤ k.kbd.kbdbufidx + 1 := by
    unfold loggedKeep
    split
    · rename_i hlt
      show _ = _ ∧ 0 < k.kbd.kbdbufidx + 1 ∧ k.kbd.kbdbufidx + 1 ≤ kbdbufsz ∧ _ ≤ _
      exact ⟨rfl, by omega, hlt, Int.le_refl _⟩
    · rename_i hge
      have hfull : k.kbd.kbdbufidx = kbdbufsz := Int.le_antisymm h.short (Int.not_lt.mp hge)
      show _ = _ ∧ 0 < k.kbd.kbdbufidx ∧ k.kbd.kbdbufidx ≤ kbdbufsz ∧ _ ≤ _
      rw [hfull]
      exact ⟨rfl, by decide, Int.le_refl _, by decide⟩
  obtain ⟨hidx, hpos, hle, hnext⟩ := hkeep
  -- storing and echoing
  have hfirst : ∀ e ∈ (loggedKeep k c).2 ++ echoTouches (loggedKeep k c).1 echo,
      e.Within k.kbd.applbufidx k.kbd.held := by
    intro e he
    rcases List.mem_append.mp he with he | he
    · unfold loggedKeep at he
      split at he
      · rename_i hlt
        obtain rfl := List.mem_singleton.mp he
        exact ⟨hk, hlt⟩
      · exact absurd he List.not_mem_nil
    · unfold echoTouches at he
      split at he
      · obtain rfl := List.mem_singleton.mp he
        exact ⟨by omega, by omega⟩
      · exact absurd he List.not_mem_nil
  unfold loggedStoreAndFlush at he
  dsimp only at he
  split at he
  · rename_i hfull
    have hflush : e ∈ (loggedFlush 4 0 (loggedKeep k c).1).2 →
        e.Within k.kbd.applbufidx k.kbd.held := by
      intro he
      have hw := loggedFlush_within (by decide) he
      rw [hidx] at hw
      refine hw.mono (Int.le_refl _) ?_
      have hfour : (4 : Int) ≤ (loggedKeep k c).1.kbd.kbdbufidx := hfull.1
      unfold Kbd.held
      omega
    split at he
    · rcases List.mem_append.mp he with he | he
      · exact hfirst e he
      · exact hflush he
    · rcases List.mem_append.mp he with he | he
      · exact hfirst e he
      · exact hflush he
  · exact hfirst e he

theorem loggedBufferKey_within {fuel : Nat} (h : Indexed k.kbd)
    (he : e ∈ (loggedBufferKey k fuel echo c ascii).2) :
    e.Within k.kbd.applbufidx k.kbd.held := by
  unfold loggedBufferKey at he
  split at he
  · exact absurd he List.not_mem_nil
  · have hw : ∀ e ∈ (loggedStoreAndFlush k echo c).2, e.Within k.kbd.applbufidx k.kbd.held :=
      fun e he => loggedStoreAndFlush_within h he
    split at he
    · rename_i hs
      rw [hs] at hw
      exact hw e he
    · rename_i hs
      rw [hs] at hw
      exact hw e he

/-! ## The indices after a key -/

theorem completeRead_idx (h : Indexed k.kbd) (c : Byte) :
    (completeRead k c).kbd.applbufidx = k.kbd.held ∧ (completeRead k c).kbd.kbdbufidx = 0 := by
  unfold completeRead
  split
  · have h' : Indexed (receiveEof k).kbd := { h with }
    exact ⟨loggedDeliver_end h', rfl⟩
  · exact ⟨loggedDeliver_end h, rfl⟩

theorem Indexed.completeRead (h : Indexed k.kbd) (c : Byte) : Indexed (completeRead k c).kbd := by
  obtain ⟨h₁, h₂⟩ := completeRead_idx h c
  have hp := h.passed
  have hk := h.kept
  refine ⟨?_, ?_, ?_⟩
  · rw [h₁]
    unfold Kbd.held
    omega
  · rw [h₂]
  · rw [h₂]
    decide

theorem shiftKeys_kbd (d n j : Nat) (k : Kernel) : (shiftKeys d n j k).kbd = k.kbd := by
  induction n generalizing j k with
  | zero => rfl
  | succ n ih => exact ih (j + 1) _

/-- The loop that empties the buffer of the driver runs to its end, or leaves the function with
some of the characters passed. -/
theorem flushKeys_idx {n i : Nat} {k : Kernel} :
    ((flushKeys n i k).2 = false ∧ (flushKeys n i k).1.kbd.applbufidx = k.kbd.applbufidx + n) ∨
    ((flushKeys n i k).2 = true ∧ k.kbd.applbufidx ≤ (flushKeys n i k).1.kbd.applbufidx ∧
      kbdbufsz - n < (flushKeys n i k).1.kbd.kbdbufidx ∧
      (flushKeys n i k).1.kbd.kbdbufidx ≤ kbdbufsz) := by
  induction n generalizing i k with
  | zero => exact .inl ⟨rfl, (Int.add_zero _).symm⟩
  | succ n ih =>
      have hidx : (passKey k i).kbd.applbufidx = k.kbd.applbufidx + 1 := rfl
      have hnext : ∀ k₁ : Kernel, k₁.kbd.applbufidx = k.kbd.applbufidx + 1 →
          ((flushKeys n (i + 1) k₁).2 = false ∧
            (flushKeys n (i + 1) k₁).1.kbd.applbufidx = k.kbd.applbufidx + (n + 1 : Nat)) ∨
          ((flushKeys n (i + 1) k₁).2 = true ∧
            k.kbd.applbufidx ≤ (flushKeys n (i + 1) k₁).1.kbd.applbufidx ∧
            kbdbufsz - (n + 1 : Nat) < (flushKeys n (i + 1) k₁).1.kbd.kbdbufidx ∧
            (flushKeys n (i + 1) k₁).1.kbd.kbdbufidx ≤ kbdbufsz) := by
        intro k₁ h₁
        rcases @ih (i + 1) k₁ with ⟨hb, hi⟩ | ⟨hb, hi, hlo, hhi⟩
        · exact .inl ⟨hb, by omega⟩
        · exact .inr ⟨hb, by omega, by omega, hhi⟩
      unfold flushKeys
      dsimp only
      split
      · split
        · exact hnext _ hidx
        · refine .inr ⟨rfl, ?_, ?_, ?_⟩
          · show k.kbd.applbufidx ≤ (shiftKeys (i + 1) n 0 (passKey k i)).kbd.applbufidx
            rw [shiftKeys_kbd, hidx]
            omega
          · show kbdbufsz - (n + 1 : Nat) < kbdbufsz - n
            omega
          · show kbdbufsz - (n : Int) ≤ kbdbufsz
            omega
      · exact hnext _ hidx

/-- The indices after a key that is stored; one character more is held, unless the reader is to
be notified. -/
theorem storeAndFlush_idx (h : Indexed k.kbd) (c : Byte) :
    Indexed (storeAndFlush k c).1.kbd ∧ ((storeAndFlush k c).2 = false →
      (storeAndFlush k c).1.kbd.held ≤ k.kbd.held + 1) := by
  have hp := h.passed
  have hk := h.kept
  have hs := h.short
  have hkeep : Indexed (keepKey k c).kbd ∧ (keepKey k c).kbd.applbufidx = k.kbd.applbufidx ∧
      (keepKey k c).kbd.kbdbufidx ≤ k.kbd.kbdbufidx + 1 := by
    unfold keepKey
    split
    · rename_i hlt
      have hnext : 0 ≤ k.kbd.kbdbufidx + 1 := by omega
      exact ⟨⟨hp, hnext, hlt⟩, rfl, Int.le_refl _⟩
    · exact ⟨h, rfl, by omega⟩
  obtain ⟨hin, hidx, hle⟩ := hkeep
  unfold storeAndFlush
  dsimp only
  split
  · rename_i hfull
    have hfour : (4 : Int) ≤ (keepKey k c).kbd.kbdbufidx := hfull.1
    rcases flushKeys_idx (n := 4) (i := 0) (k := keepKey k c) with ⟨hb, hi⟩ | ⟨hb, hi, hlo, hhi⟩
    · rw [if_neg (by rw [hb]; decide)]
      refine ⟨⟨?_, Int.le_refl 0, (by decide : (0 : Int) ≤ kbdbufsz)⟩, fun _ => ?_⟩
      · show 0 ≤ (flushKeys 4 0 (keepKey k c)).1.kbd.applbufidx
        omega
      · show (flushKeys 4 0 (keepKey k c)).1.kbd.applbufidx + 0 ≤ _
        unfold Kbd.held
        omega
    · rw [if_pos hb]
      have hpos : 0 ≤ (flushKeys 4 0 (keepKey k c)).1.kbd.kbdbufidx := Int.le_of_lt hlo
      exact ⟨⟨Int.le_trans hin.passed hi, hpos, hhi⟩, by rintro ⟨⟩⟩
  · refine ⟨hin, fun _ => ?_⟩
    show (keepKey k c).kbd.applbufidx + (keepKey k c).kbd.kbdbufidx
      ≤ k.kbd.applbufidx + k.kbd.kbdbufidx + 1
    omega

/-- The driver reads for the process, which is blocked. -/
def ReadsFor (k : Kernel) (r : Slot) : Prop :=
  k.kbd.reader = some r ∧ (k.proctab r).state = .blocked

instance (k : Kernel) (r : Slot) : Decidable (ReadsFor k r) :=
  inferInstanceAs (Decidable (_ ∧ _))

theorem ReadsFor.kbdOnly {r : Slot} (h : ReadsFor k r) (hk : KbdOnly k k') : ReadsFor k' r := by
  refine ⟨hk.reader.trans h.1, ?_⟩
  rw [hk.proctab]
  exact h.2

/-- A blocked reader is notified. -/
theorem notifyReader_quits {fuel : Nat} (h : notifyReader k fuel = .ok (k', false)) :
    k' = k ∧ ∀ r, ¬ ReadsFor k r := by
  unfold notifyReader at h
  split at h
  · rename_i hr
    simp only [pure, Except.pure, Except.ok.injEq, Prod.mk.injEq] at h
    refine ⟨h.1.symm, fun r hr' => ?_⟩
    cases hr.symm.trans hr'.1
  · rename_i r hr
    split at h
    · simp [Run.bind_eq_ok, pure, Except.pure] at h
    · rename_i hb
      simp only [pure, Except.pure, Except.ok.injEq, Prod.mk.injEq] at h
      refine ⟨h.1.symm, fun r' hr' => hb ?_⟩
      obtain rfl : r = r' := Option.some.inj (hr.symm.trans hr'.1)
      exact hr'.2

theorem Indexed.notifyReader {fuel : Nat} {b : Bool} (h : Indexed k.kbd)
    (hk : notifyReader k fuel = .ok (k', b)) : Indexed k'.kbd := by
  cases b with
  | false =>
      obtain ⟨rfl, -⟩ := notifyReader_quits hk
      exact h
  | true =>
      rw [notifyReader_kbd hk]
      exact ⟨Int.le_refl 0, h.kept, h.short⟩

theorem bufferKey_idx {fuel : Nat} {r : Slot} (h : Indexed k.kbd)
    (hk : bufferKey k fuel c ascii = .ok k') :
    Indexed k'.kbd ∧ (ReadsFor k r → k'.kbd.reader ≠ none →
      k'.kbd.held ≤ k.kbd.held + 1) := by
  unfold bufferKey at hk
  split at hk
  · obtain rfl : k = k' := Except.ok.inj hk
    exact ⟨h, fun _ _ => by omega⟩
  · have hs := storeAndFlush_idx h c
    have honly := KbdOnly.storeAndFlush k c
    split at hk
    · rename_i k₁ hk₁
      obtain rfl : k₁ = k' := Except.ok.inj hk
      rw [hk₁] at hs
      exact ⟨hs.1, fun _ _ => hs.2 rfl⟩
    · rename_i k₁ hk₁
      rw [hk₁] at hs honly
      simp only [Run.bind_eq_ok, pure, Except.pure, Except.ok.injEq] at hk
      obtain ⟨⟨k₂, woken⟩, h₁, rfl⟩ := hk
      refine ⟨hs.1.notifyReader h₁, fun hr hne => ?_⟩
      cases woken with
      | false => exact absurd (hr.kbdOnly honly) ((notifyReader_quits h₁).2 r)
      | true =>
          refine absurd ?_ hne
          rw [notifyReader_kbd h₁]
          rfl

/-- The indices stay in their bounds. -/
theorem Indexed.processKey (h : Indexed k.kbd) (hk : processKey k a = .ok k') :
    Indexed k'.kbd := by
  have hn : Indexed (k.noteKey a).kbd := { h with }
  change handleKey (k.noteKey a) a.fuel a.datasrc (charOf k.kbd.keyState a.datasrc) = .ok k' at hk
  unfold handleKey at hk
  split at hk
  · obtain rfl := Except.ok.inj hk
    exact hn
  split at hk
  · rename_i hlt
    obtain rfl := Except.ok.inj hk
    have hnext : 0 ≤ (k.noteKey a).kbd.kbdbufidx + 1 := by
      have := hn.kept
      omega
    exact ⟨hn.passed, hnext, hlt.1⟩
  split at hk
  · simp only [Run.bind_eq_ok] at hk
    obtain ⟨⟨k₁, woken⟩, h₁, hk⟩ := hk
    have hi := (hn.completeRead a.datasrc).notifyReader h₁
    cases woken with
    | false => exact (bufferKey_idx (r := 0) hi hk).1
    | true =>
        obtain rfl : k₁ = k' := Except.ok.inj hk
        exact hi
  · exact (bufferKey_idx (r := 0) hn hk).1

/-- A key that does not wake the reader leaves room for the terminator. -/
theorem processKey_held {r : Slot} (h : Indexed k.kbd) (hr : ReadsFor k r)
    (hb : k.kbd.applbuffer ≠ 0) (hk : processKey k a = .ok k') (hne : k'.kbd.reader ≠ none) :
    k'.kbd.held < k.kbd.applbufsize := by
  have hn : Indexed (k.noteKey a).kbd := { h with }
  have hrn : ReadsFor (k.noteKey a) r := hr.kbdOnly (.noteKey k a)
  rw [processKey_eq hb] at hk
  split at hk
  · simp only [Run.bind_eq_ok] at hk
    obtain ⟨⟨k₁, woken⟩, h₁, hk⟩ := hk
    cases woken with
    | false =>
        exact absurd (hrn.kbdOnly (.completeRead _ _)) ((notifyReader_quits h₁).2 r)
    | true =>
        obtain rfl : k₁ = k' := Except.ok.inj hk
        refine absurd ?_ hne
        rw [notifyReader_kbd h₁]
        rfl
  · rename_i hc
    have hroom : k.kbd.held + 1 < k.kbd.applbufsize :=
      Int.not_le.mp fun hle => hc (.inr (.inr hle))
    exact Int.lt_of_le_of_lt ((bufferKey_idx hn hk).2 hrn hne) hroom

/-! ## The accesses of a key -/

theorem loggedHandleKey_within {fuel : Nat} (h : Indexed k.kbd)
    (he : e ∈ (loggedHandleKey k fuel echo c ascii).2) :
    (k.kbd.applbuffer = 0 ∧ ∃ i, e = .kbd i ∧ 0 ≤ i ∧ i < kbdbufsz) ∨
    (k.kbd.applbuffer ≠ 0 ∧ (e.Within k.kbd.applbufidx k.kbd.held ∨
      (readCompletes k.kbd c ascii ∧ eofKey k.kbd c ∧ e = .appl (k.kbd.held + 1)))) := by
  unfold loggedHandleKey at he
  split at he
  · exact absurd he List.not_mem_nil
  rename_i hfull
  split at he
  · rename_i hidle
    obtain rfl := List.mem_singleton.mp he
    exact .inl ⟨hidle.2, _, rfl, h.kept, hidle.1⟩
  rename_i hroom
  refine .inr ⟨Kbd.applbuffer_ne hfull hroom, ?_⟩
  split at he
  · rename_i hc
    obtain ⟨hin, -, -⟩ := loggedComplete_within h c
    have hfirst : e ∈ (loggedComplete k c).2 → e.Within k.kbd.applbufidx k.kbd.held ∨
        (readCompletes k.kbd c ascii ∧ eofKey k.kbd c ∧ e = .appl (k.kbd.held + 1)) :=
      fun he => (hin e he).imp id fun h => ⟨hc, h⟩
    dsimp only at he
    split at he
    · exact hfirst he
    · exact hfirst he
    · rename_i k₁ h₁
      rcases List.mem_append.mp he with he | he
      · exact hfirst he
      · -- the reader is not blocked: the key is stored in a buffer that has been emptied
        obtain ⟨rfl, -⟩ := notifyReader_quits h₁
        rw [loggedComplete_eq] at he
        obtain ⟨hidx, hzero⟩ := completeRead_idx h c
        have hw := loggedBufferKey_within (h.completeRead c) he
        unfold Kbd.held at hw
        rw [hidx, hzero] at hw
        refine .inl (hw.mono ?_ (by omega))
        have hk := h.kept
        unfold Kbd.held
        omega
  · exact .inl (loggedBufferKey_within h he)

theorem loggedHandleKey_ends (fuel : Nat) (echo : Bool) (h : Indexed k.kbd)
    (hb : k.kbd.applbuffer ≠ 0) (hc : readCompletes k.kbd c ascii) :
    .appl k.kbd.held ∈ (loggedHandleKey k fuel echo c ascii).2 ∧
      (eofKey k.kbd c → .appl (k.kbd.held + 1) ∈ (loggedHandleKey k fuel echo c ascii).2) := by
  obtain ⟨-, hend, heof⟩ := loggedComplete_within h c
  have hsub : ∀ e ∈ (loggedComplete k c).2, e ∈ (loggedHandleKey k fuel echo c ascii).2 := by
    intro e he
    unfold loggedHandleKey
    rw [if_neg fun h => hb h.2, if_neg fun h => hb h.2, if_pos hc]
    dsimp only
    split
    · exact he
    · exact he
    · exact List.mem_append_left _ he
  exact ⟨hsub _ hend, fun he => hsub _ (heof he)⟩

/-- The key buffer is accessed in its bounds. -/
theorem loggedProcessKey_kbd (h : Indexed k.kbd) {i : Int}
    (hi : .kbd i ∈ (loggedProcessKey k a echo).2) : 0 ≤ i ∧ i < kbdbufsz := by
  have hn : Indexed (k.noteKey a).kbd := { h with }
  rcases loggedHandleKey_within hn hi with ⟨-, i', he, hin⟩ | ⟨-, hw | ⟨-, -, he⟩⟩
  · cases he
    exact hin
  · exact hw
  · cases he

/-- The buffer of the reader is written in its bounds if and only if the terminator of the line
has a place, and the end-of-file key finds one more. -/
theorem loggedProcessKey_appl_iff (h : Indexed k.kbd) (a : Ambient) (echo : Bool) :
    (∀ i, .appl i ∈ (loggedProcessKey k a echo).2 → 0 ≤ i ∧ i < k.kbd.applbufsize) ↔
      k.kbd.applbuffer = 0 ∨ (k.kbd.held < k.kbd.applbufsize ∧
        (k.atEof a → k.kbd.held + 1 < k.kbd.applbufsize)) := by
  have hn : Indexed (k.noteKey a).kbd := { h with }
  have hp := h.passed
  constructor
  · intro hall
    by_cases hb : k.kbd.applbuffer = 0
    · exact .inl hb
    refine .inr ?_
    by_cases hc : readCompletes (k.noteKey a).kbd a.datasrc (charOf k.kbd.keyState a.datasrc)
    · obtain ⟨hend, heof⟩ := loggedHandleKey_ends a.fuel echo hn hb hc
      exact ⟨(hall _ hend).2, fun he => (hall _ (heof he)).2⟩
    · have hroom : k.kbd.held + 1 < k.kbd.applbufsize :=
        Int.not_le.mp fun hle => hc (.inr (.inr hle))
      exact ⟨by omega, fun _ => hroom⟩
  · rintro hcond i hi
    rcases loggedHandleKey_within hn hi with ⟨-, i', he, -⟩ | ⟨hb, hw⟩
    · cases he
    obtain ⟨hlt, heof⟩ := hcond.resolve_left hb
    rcases hw with hw | ⟨-, hat, he⟩
    · exact ⟨Int.le_trans hp hw.1, Int.lt_of_le_of_lt hw.2 hlt⟩
    · cases he
      have hk := h.kept
      refine ⟨?_, heof hat⟩
      show 0 ≤ k.kbd.applbufidx + k.kbd.kbdbufidx + 1
      omega

end Xeros
