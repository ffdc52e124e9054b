import Xeros.Theorems.Keys
import Xeros.Logic.Touches

/-!
# The end-of-file key

The driver looks for the end-of-file key only when its own buffer holds a character, that is
when the number of characters typed is no multiple of four. Where it looks, the key ends the
read with what has been typed, and reads return nothing from then on, up to the next open or
close of the keyboard. Elsewhere it is a key like any other.
-/

namespace Xeros

open Lib

variable {k k' k₀ : Kernel} {p p' r : Slot} {a : Ambient} {req : Request} {b : Word} {N : Int}
  {cs : List Byte} {c ascii : Byte} {s s' : Disp} {t : Trap}

/-! ## Reads after the end of the file -/

theorem deliverKeys_eof (k : Kernel) : (deliverKeys k).kbd.eofReceived = k.kbd.eofReceived := by
  show (passKeys k.kbd.kbdbufidx.toNat 0 k).kbd.eofReceived = _
  rw [passKeys_kbd]
  rfl

theorem completeRead_eof (k : Kernel) (c : Byte) :
    (completeRead k c).kbd.eofReceived = (k.kbd.eofReceived || decide (eofKey k.kbd c)) := by
  unfold completeRead
  split
  · rename_i he
    rw [deliverKeys_eof, decide_eq_true he, Bool.or_true]
    rfl
  · rename_i he
    rw [deliverKeys_eof, decide_eq_false he, Bool.or_false]

theorem flushKeys_eof (n i : Nat) (k : Kernel) :
    (flushKeys n i k).1.kbd.eofReceived = k.kbd.eofReceived := by
  induction n generalizing i k with
  | zero => rfl
  | succ n ih =>
      unfold flushKeys
      dsimp only
      split
      · split
        · exact ih (i + 1) _
        · show (shiftKeys (i + 1) n 0 (passKey k i)).kbd.eofReceived = _
          rw [shiftKeys_kbd]
          rfl
      · exact ih (i + 1) _

theorem storeAndFlush_eof (k : Kernel) (c : Byte) :
    (storeAndFlush k c).1.kbd.eofReceived = k.kbd.eofReceived := by
  have hkeep : (keepKey k c).kbd.eofReceived = k.kbd.eofReceived := by
    unfold keepKey
    split
    · rfl
    · rfl
  unfold storeAndFlush
  dsimp only
  split
  · split
    · exact (flushKeys_eof 4 0 _).trans hkeep
    · exact (flushKeys_eof 4 0 _).trans hkeep
  · exact hkeep

theorem notifyReader_eof {fuel : Nat} {w : Bool} (h : notifyReader k fuel = .ok (k', w)) :
    k'.kbd.eofReceived = k.kbd.eofReceived := by
  cases w with
  | false => rw [(notifyReader_quits h).1]
  | true =>
      rw [notifyReader_kbd h]
      rfl

theorem bufferKey_eof {fuel : Nat} (h : bufferKey k fuel c ascii = .ok k') :
    k'.kbd.eofReceived = k.kbd.eofReceived := by
  unfold bufferKey at h
  split at h
  · rw [Except.ok.inj h]
  · have hs := storeAndFlush_eof k c
    split at h
    · rename_i k₁ hk₁
      rw [hk₁] at hs
      obtain rfl : k₁ = k' := Except.ok.inj h
      exact hs
    · rename_i k₁ hk₁
      rw [hk₁] at hs
      simp only [Run.bind_eq_ok, pure, Except.pure, Except.ok.injEq] at h
      obtain ⟨⟨k₂, w⟩, h₁, rfl⟩ := h
      exact (notifyReader_eof h₁).trans hs

/-- No key takes the end of the file back. -/
theorem processKey_eof (h : processKey k a = .ok k') (he : k.kbd.eofReceived = true) :
    k'.kbd.eofReceived = true := by
  have hn : (k.noteKey a).kbd.eofReceived = true := he
  change handleKey (k.noteKey a) a.fuel a.datasrc (charOf k.kbd.keyState a.datasrc) = .ok k' at h
  unfold handleKey at h
  split at h
  · obtain rfl := Except.ok.inj h
    exact hn
  split at h
  · obtain rfl := Except.ok.inj h
    exact hn
  split at h
  · simp only [Run.bind_eq_ok] at h
    obtain ⟨⟨k₁, w⟩, h₁, h⟩ := h
    have hk₁ : k₁.kbd.eofReceived = true := by
      rw [notifyReader_eof h₁, completeRead_eof, hn, Bool.true_or]
    cases w with
    | false => exact (bufferKey_eof h).trans hk₁
    | true =>
        obtain rfl : k₁ = k' := Except.ok.inj h
        exact hk₁
  · exact (bufferKey_eof h).trans hn

/-- The turn opens and closes no device. -/
def SparesEof (s : Disp) (t : Trap) : Prop :=
  (t.cause.request = .openDev → ¬ opensDevice (contextswitch s.k s.p t) s.p) ∧
  (t.cause.request = .close → ¬ namesOpen (contextswitch s.k s.p t) s.p)

theorem eof_turn (hs : Sane s) (hc : SparesEof s t) (h : turn s t = .ok s')
    (he : s.k.kbd.eofReceived = true) : s'.k.kbd.eofReceived = true := by
  obtain ⟨k₂, hstep, hk, -, -⟩ := hs.turn h
  rw [hk.kbd]
  cases hstep with
  | kept hk₂ _ _ =>
      rw [hk₂.kbd]
      exact he
  | opened hreq ho _ _ => exact absurd ho (hc.1 hreq)
  | closed hreq hn _ _ => exact absurd hn (hc.2 hreq)
  | registered _ _ hno _ _ _ =>
      rw [show (contextswitch s.k s.p t).kbd.eofReceived = true from he] at hno
      cases hno
  | endbyte _ c hk₂ _ =>
      rw [hk₂]
      exact he
  | key _ hkey _ => exact processKey_eof hkey he

/-- `SYS_READ` names an open descriptor that leads to a keyboard. -/
def readsKeyboard (k : Kernel) (p : Slot) : Prop :=
  ∃ i, validateFd k p (k.arg p 0).toInt = some i ∧ (devOf k p i).dvread ≠ .unsupported

/-- Every `SYS_READ` of the keyboard that is made in this state returns 0 at once. -/
def ReadsNothing (s : Disp) : Prop :=
  ∀ t : Trap, t.cause.request = .read → readsKeyboard (contextswitch s.k s.p t) s.p →
    ∃ k', serve (contextswitch s.k s.p t) s.p t.ambient .read = .ok (k', s.p) ∧
      (k'.proctab s.p).ret = 0 ∧ (k'.proctab s.p).state = .running

theorem readsNothing_of_eof (hs : Sane s) (he : s.k.kbd.eofReceived = true) : ReadsNothing s := by
  intro t _ ⟨i, hi, hdev⟩
  have hrun : ((contextswitch s.k s.p t).proctab s.p).state = .running := by
    rw [contextswitch_state]
    exact hs.running
  have he' : (contextswitch s.k s.p t).kbd.eofReceived = true := he
  generalize contextswitch s.k s.p t = k at hi hdev hrun he' ⊢
  have hecho : ekbdRead k s.p (k.arg s.p 1) (k.arg s.p 2).toInt = (eof, k) := if_pos he'
  have hread : ∃ m, diRead k s.p (k.arg s.p 0).toInt (k.arg s.p 1) (k.arg s.p 2).toInt
      = (eof, k.setMem m) := by
    unfold diRead
    rw [hi]
    dsimp only
    unfold callTransfer
    split
    · rename_i hno
      exact absurd hno hdev
    · unfold kbdRead
      rw [if_pos he']
      exact ⟨_, rfl⟩
    · exact ⟨k.mem, hecho⟩
  obtain ⟨m, hm⟩ := hread
  refine ⟨(k.setMem m).setRet s.p 0, ?_, ?_, ?_⟩
  · show sysRead k s.p t.ambient = _
    unfold sysRead
    rw [hm]
    rfl
  · simp [Kernel.setRet]
  · simpa [Kernel.setRet] using hrun

/-! ## The key -/

/-- A key ends the read of `r` into `b` with the characters `l`, and reads return nothing from
then on, until a device is opened or closed. -/
structure EndsRead (r : Slot) (b : Word) (l : List Byte) (k' : Kernel) : Prop where
  ready : (k'.proctab r).state = .ready
  ret : (k'.proctab r).ret = toWord l.length
  line : k'.mem.slice b l.length = l
  terminated : k'.mem (b + BitVec.ofNat 32 l.length) = 0
  later : ∀ s s', dispatcher.Reachable s → s.k.kbd.eofReceived = k'.kbd.eofReceived →
    dispatcher.Path SparesEof s s' → ReadsNothing s'

/-- The byte behind the place of the terminator is no character of the line. -/
theorem Fits.line_receiveEof (h : Fits k)
    (hroom : k.line.length = 0 ∨ (k.line.length : Int) + 1 < k.kbd.applbufsize) :
    (receiveEof k).line = k.line := by
  have hp := h.passed
  have hk := h.kept
  have hlen := h.length_line
  have hlt := h.bufSize_lt
  have hin := h.room
  have haddr : k.applAddr (k.kbd.applbufidx + k.kbd.kbdbufidx + 1)
      = k.kbd.applbuffer + BitVec.ofNat 32 (k.line.length + 1) := by
    rw [k.applAddr_eq (by omega), ← hlen]
    rfl
  have hsize : k.line.length + 1 < 0x100000000 := by
    unfold Kernel.bufSize at hlt
    omega
  have hmem : ∀ x, x ≠ k.kbd.applbuffer + BitVec.ofNat 32 (k.line.length + 1) →
      (receiveEof k).mem x = k.mem x := by
    intro x hx
    show (k.mem.putByte (k.applAddr _) 0) x = k.mem x
    rw [haddr]
    exact Bytes.putByte_ne hx
  have hpassed : (receiveEof k).passed = k.passed := by
    show (receiveEof k).mem.slice k.kbd.applbuffer k.kbd.applbufidx.toNat = _
    refine Bytes.slice_congr fun x hx => hmem x ?_
    rintro rfl
    have := (inRange_add_iff hsize).mp hx
    omega
  have hkept : (receiveEof k).kept = k.kept := by
    show (receiveEof k).mem.slice k.kbd.kbdbuffer k.kbd.kbdbufidx.toNat = _
    refine Bytes.slice_congr fun x hx => hmem x ?_
    rintro rfl
    rcases hroom with hzero | hroom
    · -- nothing is kept
      unfold InRange at hx
      omega
    · refine h.apart _ ((inRange_add_iff hsize).mpr ?_) ?_
      · unfold Kernel.bufSize
        omega
      · have hshort : k.kbd.kbdbufidx < 4 := h.short
        unfold InRange at hx ⊢
        omega
  unfold Kernel.line
  rw [hpassed, hkept]

/-- The end-of-file key ends the read with what has been typed, where the driver looks for it. -/
theorem Collecting.eof (h : Collecting k r) (he : k.atEof a)
    (hc : readCompletes (k.noteKey a).kbd a.datasrc (charOf k.kbd.keyState a.datasrc))
    (hroom : k.line.length = 0 ∨ (k.line.length : Int) + 1 < k.kbd.applbufsize)
    (hk : processKey k a = .ok k') : EndsRead r k.kbd.applbuffer k.line k' := by
  obtain ⟨hst, hret, hkbd', hm⟩ := h.wakes hc hk
  have hdone : completeRead (k.noteKey a) a.datasrc = deliverKeys (receiveEof (k.noteKey a)) := by
    unfold completeRead
    exact congrArg deliverKeys (if_pos he)
  have hfits : Fits (receiveEof (k.noteKey a)) := { h.toFits with }
  obtain ⟨hline, hnul, hkbd, -⟩ := deliverKeys_spec hfits
  have hsame : (receiveEof (k.noteKey a)).line = k.line :=
    (h.noteKey a).toFits.line_receiveEof hroom
  rw [hsame] at hline hnul
  refine ⟨hst, ?_, ?_, ?_, ?_⟩
  · rw [hret, hdone, hkbd, Kbd.atIdx_applbufidx]
    exact congrArg toWord h.length_line.symm
  · rw [hm, hdone]
    exact hline
  · rw [hm, hdone]
    exact hnul
  · intro s s' hs hflag hpath
    have heof : k'.kbd.eofReceived = true := by
      rw [hkbd', hdone]
      show (deliverKeys (receiveEof (k.noteKey a))).kbd.eofReceived = true
      rw [deliverKeys_eof]
      rfl
    have hinv : Sane s' ∧ s'.k.kbd.eofReceived = true := by
      refine hpath.preserves (I := fun s => Sane s ∧ s.k.kbd.eofReceived = true)
        ⟨sane_of_reachable hs, hflag.trans heof⟩ ?_
      rintro u t v ⟨hu, hfu⟩ hc hst
      obtain ⟨-, -, -, -, hv⟩ := hu.turn hst
      exact ⟨hv, eof_turn hu hc hst hfu⟩
    exact readsNothing_of_eof hinv.1 hinv.2

/-- The buffer of the driver is passed on four characters at a time. -/
theorem Keyed.flushed (h : Keyed r k₀ cs k) (h₀ : Collecting k₀ r) (hline : k₀.line = []) :
    k.kbd.applbufidx % 4 = 0 := by
  induction h with
  | start _ =>
      have hlen := h₀.length_line
      rw [hline] at hlen
      have hp := h₀.passed
      have hk := h₀.kept
      have hzero : k₀.kbd.applbufidx = 0 := by
        rw [List.length_nil] at hlen
        omega
      rw [hzero]
      rfl
  | elsewhere _ he _ ih =>
      rw [he.kbd]
      exact ih
  | @key cs k k' a hkeyed hk hw ih =>
      have ht := hkeyed.typed h₀ hline
      obtain ⟨k₁, hk₁, -, -, ⟨i, j, hkbd, hi⟩, -, -⟩ := ht.goOn (ht.not_completes hk hw)
      obtain rfl : k' = k₁ := Except.ok.inj (hk.symm.trans hk₁)
      rw [hkbd, Kbd.atIdx_applbufidx]
      rcases hi with rfl | rfl
      · exact ih
      · omega

/-! ## A read without a buffer -/

/-- Without a buffer nobody is woken. -/
theorem processKey_null (hb : k.kbd.applbuffer = 0) (a : Ambient) :
    ∃ k', processKey k a = .ok k' ∧ k'.kbd.applbuffer = 0 ∧ k'.proctab = k.proctab := by
  rcases processKey_idle hb a with ⟨-, hk⟩ | ⟨-, hk⟩
  · exact ⟨_, hk, hb, rfl⟩
  · exact ⟨_, hk, hb, rfl⟩

theorem Keyed.null (h : Keyed r k₀ cs k) (h₀ : k₀.kbd.applbuffer = 0) :
    k.kbd.applbuffer = 0 := by
  induction h with
  | start _ => exact h₀
  | elsewhere _ he _ ih =>
      rw [he.kbd]
      exact ih
  | key _ hk _ ih =>
      obtain ⟨k₁, hk₁, hb, -⟩ := processKey_null ih _
      obtain rfl := Except.ok.inj (hk.symm.trans hk₁)
      exact hb

theorem Keyed.waits_now (h : Keyed r k₀ cs k) : Waits k r := by
  cases h with
  | start hw => exact hw
  | elsewhere _ _ hw => exact hw
  | key _ _ hw => exact hw

/-! ## When the key is seen -/

/-- The same for a read into a buffer, in terms of what the driver has collected. -/
theorem Typed.eof_iff (ht : Typed r k₀ cs k) (hflushed : k.kbd.applbufidx % 4 = 0)
    (hN : 1 ≤ k.kbd.applbufsize)
    (hn : k.line.length = 0 ∨ (k.line.length : Int) + 1 < k.kbd.applbufsize) (he : k.atEof a)
    (hk' : processKey k a = .ok k') :
    EndsRead r k.kbd.applbuffer k.line k' ↔ k.line.length % 4 ≠ 0 ∨
      charOf k.kbd.keyState a.datasrc = 10 ∨ k.kbd.applbufsize = 1 := by
  have hlen := ht.length_line
  have hk := ht.kept
  have hshort : k.kbd.kbdbufidx < 4 := ht.short
  have hroom := ht.room
  rw [max_eq_left hN, ← hlen] at hroom
  -- the driver looks for the key when it holds a character
  have hiff : readCompletes (k.noteKey a).kbd a.datasrc (charOf k.kbd.keyState a.datasrc) ↔
      k.line.length % 4 ≠ 0 ∨ charOf k.kbd.keyState a.datasrc = 10 ∨ k.kbd.applbufsize = 1 := by
    have hfull : (k.noteKey a).kbd.applbufsize
        ≤ (k.noteKey a).kbd.applbufidx + (k.noteKey a).kbd.kbdbufidx + 1 ↔
        k.kbd.applbufsize = 1 := by
      show k.kbd.applbufsize ≤ k.kbd.applbufidx + k.kbd.kbdbufidx + 1 ↔ _
      rw [← hlen]
      omega
    have hholds : 0 < k.kbd.kbdbufidx ↔ k.line.length % 4 ≠ 0 := by omega
    unfold readCompletes
    rw [hfull, ← hholds]
    constructor
    · rintro (⟨hpos, -⟩ | hrest)
      · exact .inl hpos
      · exact .inr hrest
    · rintro (hpos | hrest)
      · exact .inl ⟨hpos, he⟩
      · exact .inr hrest
  rw [← hiff]
  constructor
  · intro hend
    by_contra hno
    obtain ⟨k₁, hk₁, hc, -⟩ := ht.goOn hno
    obtain rfl : k' = k₁ := Except.ok.inj (hk'.symm.trans hk₁)
    have hready := hend.ready
    rw [hc.blocked] at hready
    cases hready
  · exact fun hc => ht.eof he hc hn hk'

/-- After a registered `SYS_READ` of `N` bytes into `b`, any scan codes that leave the reader
waiting and then the end-of-file key with Ctrl: when the characters typed are none or fewer than
`N - 1`, the key ends the read with them if and only if there is a buffer, and their number is
no multiple of four, or the key translates to a newline, or the read is of one byte. -/
theorem eof_key_ends_read_iff {kb : Word} (hs : dispatcher.Reachable s)
    (hread : sysRead ((contextswitch s.k s.p t).withBuffer kb) s.p t.ambient = .ok (k₀, p'))
    (hargs : readArgs (contextswitch s.k s.p t) s.p = (b, N)) (hN : 1 ≤ N)
    (hapart : b ≠ 0 → Apart b N.toNat kb 4) (h : Keyed s.p k₀ cs k)
    (hn : (typed k₀.kbd.keyState cs).length = 0 ∨
      ((typed k₀.kbd.keyState cs).length : Int) + 1 < N) :
    ∃ m, ∀ a : Ambient, m ≤ a.fuel → k.atEof a → ∃ k', processKey k a = .ok k' ∧
      (EndsRead s.p b (typed k₀.kbd.keyState cs) k' ↔ b ≠ 0 ∧
        ((typed k₀.kbd.keyState cs).length % 4 ≠ 0 ∨ charOf k.kbd.keyState a.datasrc = 10 ∨
          N = 1)) := by
  by_cases hb : b = 0
  · have hrun : (((contextswitch s.k s.p t).withBuffer kb).proctab s.p).state = .running := by
      refine Eq.trans ?_ (sound_of_reachable hs).running
      exact contextswitch_state s.k s.p s.p t
    obtain ⟨hkbd, -, -⟩ := sysRead_kbd hrun hread h.waits.1
    have hargs' : readArgs ((contextswitch s.k s.p t).withBuffer kb) s.p = (b, N) := hargs
    rw [hargs', hb] at hkbd
    have hnull := h.null (by rw [hkbd, Kbd.register_applbuffer])
    refine ⟨0, fun a _ _ => ?_⟩
    obtain ⟨k', hk', -, hproc⟩ := processKey_null hnull a
    refine ⟨k', hk', fun hend => ?_, fun hcond => absurd hb hcond.1⟩
    have hready := hend.ready
    rw [hproc, h.waits_now.1] at hready
    cases hready
  · obtain ⟨⟨hc₀, hline₀, -⟩, ht, hbuf, hsize, -⟩ :=
      h.collected hs hread hargs hN hb (hapart hb)
    obtain ⟨m, hm⟩ := ht.processKey_ok ht.waits
    refine ⟨m, fun a ha he => ?_⟩
    obtain ⟨k', hk'⟩ := hm a ha
    refine ⟨k', hk', ?_⟩
    have hiff := ht.eof_iff (h.flushed hc₀ hline₀) (by rw [hsize]; exact hN)
      (by rw [ht.line, hsize]; exact hn) he hk'
    rw [hbuf, hsize, ht.line] at hiff
    rw [hiff, and_iff_right hb]

/-- The sample machine: Ctrl goes down, after an `a` or at once. -/
def asked₂ : Kernel := (processKey asked₁ (sampleKey 100 0x1d)).getD asked₁

@[inherit_doc asked₂]
def askedCtrl : Kernel := (processKey asked₀ (sampleKey 100 0x1d)).getD asked₀

theorem asked₂_keyed : Keyed opened.p asked₀ [0x1e, 0x1d] asked₂ := by
  have hfacts : ((asked₀.proctab opened.p).state = .blocked ∧ asked₀.blockedQ = some opened.p) ∧
      ((asked₁.proctab opened.p).state = .blocked ∧ asked₁.blockedQ = some opened.p) ∧
      ((asked₂.proctab opened.p).state = .blocked ∧ asked₂.blockedQ = some opened.p) := by
    refine ⟨⟨?_, ?_⟩, ⟨?_, ?_⟩, ⟨?_, ?_⟩⟩ <;> decide +kernel
  obtain ⟨hw₀, hw₁, hw₂⟩ := hfacts
  have h₁ : Keyed opened.p asked₀ [0x1e] asked₁ :=
    .key (a := sampleKey 100 0x1e) (.start ⟨hw₀.1, [], hw₀.2⟩)
      (Run.eq_getD (s := asked₀) (by decide +kernel)) ⟨hw₁.1, [], hw₁.2⟩
  exact .key (a := sampleKey 100 0x1d) h₁ (Run.eq_getD (s := asked₁) (by decide +kernel))
    ⟨hw₂.1, [], hw₂.2⟩

theorem askedCtrl_keyed : Keyed opened.p asked₀ [0x1d] askedCtrl := by
  have hfacts : ((asked₀.proctab opened.p).state = .blocked ∧ asked₀.blockedQ = some opened.p) ∧
      ((askedCtrl.proctab opened.p).state = .blocked ∧ askedCtrl.blockedQ = some opened.p) := by
    refine ⟨⟨?_, ?_⟩, ⟨?_, ?_⟩⟩ <;> decide +kernel
  obtain ⟨hw₀, hw₁⟩ := hfacts
  exact .key (a := sampleKey 100 0x1d) (.start ⟨hw₀.1, [], hw₀.2⟩)
    (Run.eq_getD (s := asked₀) (by decide +kernel)) ⟨hw₁.1, [], hw₁.2⟩

theorem asked₀_read : sysRead asking opened.p sampleAmbient
    = .ok (asked₀, ((sysRead asking opened.p sampleAmbient).getD (opened.k, 0)).2) :=
  Run.eq_getD (s := (opened.k, 0)) (by decide +kernel)

/-- After one character, the key ends the read with it. -/
theorem eof_key_ends_read_after_one : ∃ m k', processKey asked₂ (sampleKey m 0x20) = .ok k' ∧
    EndsRead opened.p 0x60100 [97] k' := by
  have hfacts : readArgs (contextswitch opened.k opened.p (sampleCall .read [0, 0x60100, 10]))
        opened.p = (0x60100, 10) ∧
      typed asked₀.kbd.keyState [0x1e, 0x1d] = [97] ∧ asked₂.atEof (sampleKey 0 0x20) := by
    refine ⟨?_, ?_, ?_⟩ <;> decide +kernel
  obtain ⟨hargs, htyped, he⟩ := hfacts
  obtain ⟨m, hm⟩ := eof_key_ends_read_iff (t := sampleCall .read [0, 0x60100, 10])
    opened_reachable asked₀_read hargs (by decide)
    (fun _ => Apart.of_le (by decide) (by decide)) asked₂_keyed
    (by rw [htyped]; exact .inr (by decide))
  obtain ⟨k', hk, hiff⟩ := hm (sampleKey m 0x20) (Nat.le_refl m) he
  rw [htyped] at hiff
  exact ⟨m, k', hk, hiff.mpr ⟨by decide, .inl (by decide)⟩⟩

/-- As the first key of a read it does not end it. -/
theorem eof_key_does_not_end_read : ¬ ∀ (s : Disp) (t : Trap) (kb b : Word) (N : Int)
    (k₀ k : Kernel) (p' : Slot) (cs : List Byte), dispatcher.Reachable s →
    sysRead ((contextswitch s.k s.p t).withBuffer kb) s.p t.ambient = .ok (k₀, p') →
    readArgs (contextswitch s.k s.p t) s.p = (b, N) → 1 ≤ N → (b ≠ 0 → Apart b N.toNat kb 4) →
    Keyed s.p k₀ cs k →
    (typed k₀.kbd.keyState cs).length = 0 ∨ ((typed k₀.kbd.keyState cs).length : Int) + 1 < N →
    ∃ m, ∀ a : Ambient, m ≤ a.fuel → k.atEof a → ∃ k', processKey k a = .ok k' ∧
      EndsRead s.p b (typed k₀.kbd.keyState cs) k' := by
  intro h
  have hfacts : readArgs (contextswitch opened.k opened.p (sampleCall .read [0, 0x60100, 10]))
        opened.p = (0x60100, 10) ∧
      typed asked₀.kbd.keyState [0x1d] = [] ∧ askedCtrl.atEof (sampleKey 0 0x20) ∧
      charOf askedCtrl.kbd.keyState 0x20 ≠ 10 := by
    refine ⟨?_, ?_, ?_, ?_⟩ <;> decide +kernel
  obtain ⟨hargs, htyped, he, hchar⟩ := hfacts
  have hapart : Apart 0x60100 (10 : Int).toNat 0x50000 4 := Apart.of_le (by decide) (by decide)
  obtain ⟨m, hm⟩ := h opened (sampleCall .read [0, 0x60100, 10]) 0x50000 0x60100 10 asked₀
    askedCtrl _ [0x1d] opened_reachable asked₀_read hargs (by decide) (fun _ => hapart)
    askedCtrl_keyed (by rw [htyped]; exact .inl rfl)
  obtain ⟨k', hk, hend⟩ := hm (sampleKey m 0x20) (Nat.le_refl m) he
  obtain ⟨⟨hc₀, hline₀, -⟩, ht, hbuf, hsize, -⟩ := askedCtrl_keyed.collected
    (t := sampleCall .read [0, 0x60100, 10]) opened_reachable asked₀_read hargs (by decide)
    (by decide) hapart
  have hline : askedCtrl.line = [] := ht.line.trans htyped
  have hiff := ht.eof_iff (a := sampleKey m 0x20) (askedCtrl_keyed.flushed hc₀ hline₀)
    (by rw [hsize]; decide) (by rw [hline]; exact .inl rfl) he hk
  rw [hbuf, hsize, hline] at hiff
  rw [htyped] at hend
  rcases hiff.mp hend with hlen | hnl | hone
  · exact hlen rfl
  · exact hchar hnl
  · exact absurd hone (by decide)

end Xeros
