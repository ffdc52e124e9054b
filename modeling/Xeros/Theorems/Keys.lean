import Xeros.Logic.Keys

/-!
# One read

A read of `n` bytes returns what a reader sees that takes one character after the other up
to a newline or until `n - 1` are there. The buffer of the driver and its flushing cannot be
told from outside.
-/

namespace Xeros

open Lib

variable {k k' k₀ : Kernel} {p p' r : Slot} {a : Ambient} {b : Word} {N : Int}
  {cs : List Byte} {c : Byte} {s : Disp} {t : Trap}

/-! ## The start of a read -/

/-- The caller of `SYS_READ` is blocked afterwards only if its read has been registered. -/
theorem sysRead_kbd (hrun : (k.proctab p).state = .running)
    (h : sysRead k p a = .ok (k', p')) (hb : (k'.proctab p).state = .blocked) :
    k'.kbd = k.kbd.register p (readArgs k p).1 (readArgs k p).2 ∧
      k.kbd.eofReceived = false ∧ k'.mem = k.mem := by
  have hun := (FdsOnly.diRead k p (k.arg p 0).toInt (k.arg p 1) (k.arg p 2).toInt).unmoved
  rcases sysRead_cases h with ⟨-, rfl, v, rfl⟩ | ⟨hrc, k₁, h₁, h₂⟩
  · -- a process that stays on the processor is not blocked
    rw [(Unmoved.setRet _ _ v).state, hun.state, hrun] at hb
    cases hb
  · obtain ⟨-, he, -, hk⟩ := (diRead_driver k p (k.arg p 0).toInt (k.arg p 1)
      (k.arg p 2).toInt).resolve_left fun hc => hc.2 hrc
    have hrest := ((Rest.upd _ p fun c => c.setNext none).trans (.block h₁)).trans
      (.reschedule h₂)
    refine ⟨?_, he, ?_⟩
    · rw [hrest.kbd, hk]
      rfl
    · rw [hrest.mem, hk]
      rfl

/-- A process that is blocked in the read it has just registered has an empty line. -/
theorem sysRead_collecting (hg : Good k) (hu : k.Used p)
    (hrun : (k.proctab p).state = .running) (h : sysRead k p a = .ok (k', p'))
    (hw : (k'.proctab p).state = .blocked) (hbuf : (readArgs k p).1 ≠ 0)
    (hapart : Apart (readArgs k p).1 (max (readArgs k p).2 1).toNat k.kbd.kbdbuffer 4) :
    Collecting k' p ∧ k'.line = [] := by
  obtain ⟨hkbd, -, -⟩ := sysRead_kbd hrun h hw
  have hg' := (sysRead_quiet (X := fun _ => True) hg hu trivial h).1.good
  refine ⟨⟨⟨?_, ?_, ?_, ?_, ?_⟩, hg', ?_, hw, ?_, ?_⟩, ?_⟩
  · rw [hkbd]
    exact Int.le_refl 0
  · rw [hkbd]
    exact Int.le_refl 0
  · rw [hkbd]
    exact (by decide : (0 : Int) < kbdbufsz)
  · rw [hkbd]
    exact lt_max_of_lt_right Int.zero_lt_one
  · unfold Kernel.bufSize
    rw [hkbd]
    exact hapart
  · rw [hkbd]
    rfl
  · rw [hkbd]
    exact hbuf
  · unfold Kernel.kept
    rw [hkbd]
    exact List.not_mem_nil
  · unfold Kernel.line Kernel.passed Kernel.kept
    rw [hkbd]
    rfl

/-! ## Between two keys -/

/-- The rest of the system moves: it leaves the driver and its buffers alone. -/
structure LeavesDriver (k k' : Kernel) : Prop where
  good : Good k'
  kbd : k'.kbd = k.kbd
  kept : ∀ x, InRange k.kbd.kbdbuffer 4 x → k'.mem x = k.mem x
  passed : k.kbd.applbuffer ≠ 0 →
    ∀ x, InRange k.kbd.applbuffer k.bufSize x → k'.mem x = k.mem x

theorem LeavesDriver.kept_eq (h : LeavesDriver k k') (hle : k.kbd.kbdbufidx ≤ kbdbufsz) :
    k'.kept = k.kept := by
  have hle' : k.kbd.kbdbufidx ≤ 4 := hle
  unfold Kernel.kept
  rw [h.kbd]
  refine Bytes.slice_congr fun x hx => h.kept x ?_
  unfold InRange at hx ⊢
  omega

/-- The line stays. -/
theorem Collecting.elsewhere (h : Collecting k r) (he : LeavesDriver k k')
    (hw : (k'.proctab r).state = .blocked) : Collecting k' r ∧ k'.line = k.line := by
  have hp := h.passed
  have hk := h.kept
  have hroom := h.room
  have hkept := he.kept_eq (Int.le_of_lt h.short)
  have hpassed : k'.passed = k.passed := by
    unfold Kernel.passed
    rw [he.kbd]
    refine Bytes.slice_congr fun x hx => he.passed h.buffer x ?_
    unfold InRange at hx ⊢
    unfold Kernel.bufSize
    omega
  refine ⟨⟨h.toFits.of_atIdx (i := k.kbd.applbufidx) (j := k.kbd.kbdbufidx) he.kbd hp hk
    h.short hroom, he.good, ?_, hw, ?_, ?_⟩, ?_⟩
  · rw [he.kbd]
    exact h.reader
  · rw [he.kbd]
    exact h.buffer
  · rw [hkept]
    exact h.noNewline
  · unfold Kernel.line
    rw [hpassed, hkept]

/-- The scan codes `cs` arrive while the process `r` waits for the read registered in `k₀`.
Between two of them the rest of the system moves. -/
inductive Typing (r : Slot) (k₀ : Kernel) : List Byte → Kernel → Prop
  | start (hw : Waits k₀ r) : Typing r k₀ [] k₀
  | elsewhere {cs : List Byte} {k k' : Kernel} (h : Typing r k₀ cs k) (he : LeavesDriver k k')
      (hw : Waits k' r) : Typing r k₀ cs k'
  | key {cs : List Byte} {k k' : Kernel} {a : Ambient} (h : Typing r k₀ cs k) (he : ¬ k.atEof a)
      (hk : processKey k a = .ok k') (hw : Waits k' r) : Typing r k₀ (cs ++ [a.datasrc]) k'

/-- The same for any scan codes: one that is tested for as the end-of-file key is among them if
it leaves the process waiting. -/
inductive Keyed (r : Slot) (k₀ : Kernel) : List Byte → Kernel → Prop
  | start (hw : Waits k₀ r) : Keyed r k₀ [] k₀
  | elsewhere {cs : List Byte} {k k' : Kernel} (h : Keyed r k₀ cs k) (he : LeavesDriver k k')
      (hw : Waits k' r) : Keyed r k₀ cs k'
  | key {cs : List Byte} {k k' : Kernel} {a : Ambient} (h : Keyed r k₀ cs k)
      (hk : processKey k a = .ok k') (hw : Waits k' r) : Keyed r k₀ (cs ++ [a.datasrc]) k'

theorem Typing.keyed (h : Typing r k₀ cs k) : Keyed r k₀ cs k := by
  induction h with
  | start hw => exact .start hw
  | elsewhere _ he hw ih => exact .elsewhere ih he hw
  | key _ _ hk hw ih => exact .key ih hk hw

/-- The first scan code that completes a read of `N` bytes: it translates to a newline, or
`N - 1` characters have been typed before it. -/
def Completes (st : Word) (N : Int) (cs : List Byte) (c : Byte) : Prop :=
  charOf (statesAfter st cs) c = 10 ∨ N ≤ (typed st cs).length + 1

instance (st : Word) (N : Int) (cs : List Byte) (c : Byte) : Decidable (Completes st N cs c) :=
  inferInstanceAs (Decidable (_ ∨ _))

/-- What the driver has collected is what has been typed, and nothing has completed the read. -/
structure Typed (r : Slot) (k₀ : Kernel) (cs : List Byte) (k : Kernel) : Prop
    extends Collecting k r where
  waits : Waits k r
  line : k.line = typed k₀.kbd.keyState cs
  keyState : k.kbd.keyState = statesAfter k₀.kbd.keyState cs
  applbuffer : k.kbd.applbuffer = k₀.kbd.applbuffer
  applbufsize : k.kbd.applbufsize = k₀.kbd.applbufsize
  kbdbuffer : k.kbd.kbdbuffer = k₀.kbd.kbdbuffer
  before : ∀ cs₁ c, cs₁ ++ [c] <+: cs →
    ¬ Completes k₀.kbd.keyState k₀.kbd.applbufsize cs₁ c

theorem Typed.finishes_iff (h : Typed r k₀ cs k) (c : Byte) :
    Finishes k c ↔ Completes k₀.kbd.keyState k₀.kbd.applbufsize cs c := by
  unfold Finishes Completes
  rw [h.line, h.keyState, h.applbufsize]

theorem Typed.start (h : Collecting k₀ r) (hw : Waits k₀ r) (hline : k₀.line = []) :
    Typed r k₀ [] k₀ where
  toCollecting := h
  waits := hw
  line := hline
  keyState := rfl
  applbuffer := rfl
  applbufsize := rfl
  kbdbuffer := rfl
  before cs₁ c hcs := by simp at hcs

theorem Typed.elsewhere (h : Typed r k₀ cs k) (he : LeavesDriver k k') (hw : Waits k' r) :
    Typed r k₀ cs k' := by
  obtain ⟨hc, hline⟩ := h.toCollecting.elsewhere he hw.1
  refine ⟨hc, hw, hline.trans h.line, ?_, ?_, ?_, ?_, h.before⟩
  · rw [he.kbd]
    exact h.keyState
  · rw [he.kbd]
    exact h.applbuffer
  · rw [he.kbd]
    exact h.applbufsize
  · rw [he.kbd]
    exact h.kbdbuffer

theorem Typed.key (h : Typed r k₀ cs k) (hk : processKey k a = .ok k') (hw : Waits k' r) :
    Typed r k₀ (cs ++ [a.datasrc]) k' := by
  have hno := h.not_completes hk hw
  have hf : ¬ Finishes k a.datasrc := fun hf => hno (h.readCompletes_of hf)
  obtain ⟨k₁, hk₁, hc, -, ⟨i, j, hkbd, -⟩, -, hline⟩ := h.goOn hno
  obtain rfl : k' = k₁ := Except.ok.inj (hk.symm.trans hk₁)
  refine ⟨hc, hw, ?_, ?_, ?_, ?_, ?_, fun cs₁ c hcs => ?_⟩
  · rw [hline, h.line, typed_snoc, h.keyState]
  · rw [statesAfter_snoc, ← h.keyState, hkbd]
    rfl
  · rw [hkbd]
    exact h.applbuffer
  · rw [hkbd]
    exact h.applbufsize
  · rw [hkbd]
    exact h.kbdbuffer
  · rcases List.prefix_concat_iff.mp hcs with hcs | hcs
    · obtain ⟨rfl, hc⟩ := List.append_inj' hcs rfl
      rw [List.singleton_inj.mp hc, ← h.finishes_iff]
      exact hf
    · exact h.before cs₁ c hcs

theorem Keyed.typed (h : Keyed r k₀ cs k) (h₀ : Collecting k₀ r) (hline : k₀.line = []) :
    Typed r k₀ cs k := by
  induction h with
  | start hw => exact .start h₀ hw hline
  | elsewhere _ he hw ih => exact ih.elsewhere he hw
  | key _ hk hw ih => exact ih.key hk hw

theorem Keyed.waits (h : Keyed r k₀ cs k) : Waits k₀ r := by
  induction h with
  | start hw => exact hw
  | elsewhere _ _ _ ih => exact ih
  | key _ _ _ ih => exact ih

/-- The kernel with `kbdbuffer` at the address `kb`, where no code puts it. -/
def Kernel.withBuffer (k : Kernel) (kb : Word) : Kernel :=
  k.setKbd { k.kbd with kbdbuffer := kb }

/-- What the driver has collected after a registered `SYS_READ` of `N` bytes into `b`. -/
theorem Keyed.collected {kb : Word} (hs : dispatcher.Reachable s)
    (hread : sysRead ((contextswitch s.k s.p t).withBuffer kb) s.p t.ambient = .ok (k₀, p'))
    (hargs : readArgs (contextswitch s.k s.p t) s.p = (b, N)) (hN : 1 ≤ N) (hb : b ≠ 0)
    (hapart : Apart b N.toNat kb 4) (h : Keyed s.p k₀ cs k) :
    (Collecting k₀ s.p ∧ k₀.line = [] ∧ k₀.kbd.applbufsize = N) ∧ Typed s.p k₀ cs k ∧
      k.kbd.applbuffer = b ∧ k.kbd.applbufsize = N ∧ k.kbd.kbdbuffer = kb := by
  have hsound := sound_of_reachable hs
  have hg : Good ((contextswitch s.k s.p t).withBuffer kb) :=
    { contextswitch_good hsound.good hsound.used t with }
  have hu : ((contextswitch s.k s.p t).withBuffer kb).Used s.p :=
    contextswitch_used (p := s.p) hsound.used t
  have hrun : (((contextswitch s.k s.p t).withBuffer kb).proctab s.p).state = .running := by
    refine Eq.trans ?_ hsound.running
    exact contextswitch_state s.k s.p s.p t
  have hargs' : readArgs ((contextswitch s.k s.p t).withBuffer kb) s.p = (b, N) := hargs
  have hmax : max N 1 = N := max_eq_left hN
  obtain ⟨hc₀, hline₀⟩ := sysRead_collecting hg hu hrun hread h.waits.1 (by rw [hargs']; exact hb)
    (by rw [hargs', hmax]; exact hapart)
  obtain ⟨hkbd, -, -⟩ := sysRead_kbd hrun hread h.waits.1
  rw [hargs'] at hkbd
  have ht := h.typed hc₀ hline₀
  have hN₀ : k₀.kbd.applbufsize = N := by rw [hkbd, Kbd.register_applbufsize]
  refine ⟨⟨hc₀, hline₀, hN₀⟩, ht, ?_, ht.applbufsize.trans hN₀, ?_⟩
  · rw [ht.applbuffer, hkbd, Kbd.register_applbuffer]
  · rw [ht.kbdbuffer, hkbd, Kbd.register_kbdbuffer]
    rfl

/-- In every run of keys after a registered `SYS_READ` of `N` bytes into `b`, no key before
has completed the read, and the next one completes it exactly if it translates to a newline or
`N - 1` characters have been typed. Then the reader is ready with their number and has them in
order and terminated in its buffer. No key writes outside the two buffers. -/
theorem buffering_invisible {kb : Word} (hs : dispatcher.Reachable s)
    (hread : sysRead ((contextswitch s.k s.p t).withBuffer kb) s.p t.ambient = .ok (k₀, p'))
    (hargs : readArgs (contextswitch s.k s.p t) s.p = (b, N)) (hN : 1 ≤ N) (hb : b ≠ 0)
    (hapart : Apart b N.toNat kb 4) (h : Typing s.p k₀ cs k) :
    (∀ cs₁ c, cs₁ ++ [c] <+: cs → ¬ Completes k₀.kbd.keyState N cs₁ c) ∧
    ∃ m, ∀ a : Ambient, m ≤ a.fuel → ¬ k.atEof a → ∃ k', processKey k a = .ok k' ∧
      (∀ x, ¬ InRange b N.toNat x → ¬ InRange kb 4 x → k'.mem x = k.mem x) ∧
      if Completes k₀.kbd.keyState N cs a.datasrc then
        (k'.proctab s.p).state = .ready ∧
        (k'.proctab s.p).ret = toWord (typed k₀.kbd.keyState cs).length ∧
        ((typed k₀.kbd.keyState cs).length : Int) ≤ N - 1 ∧
        k'.mem.slice b (typed k₀.kbd.keyState cs).length = typed k₀.kbd.keyState cs ∧
        k'.mem (b + BitVec.ofNat 32 (typed k₀.kbd.keyState cs).length) = 0
      else Waits k' s.p := by
  obtain ⟨⟨-, -, hN₀⟩, ht, hbuf, hsize, hkb⟩ :=
    h.keyed.collected hs hread hargs hN hb hapart
  have hmax : max N 1 = N := max_eq_left hN
  have hcap : k.bufSize = N.toNat := by
    unfold Kernel.bufSize
    rw [hsize, hmax]
  have hframe : ∀ {k'}, WritesBuffers k k' → ∀ x, ¬ InRange b N.toNat x →
      ¬ InRange kb 4 x → k'.mem x = k.mem x := by
    intro k' hw
    unfold WritesBuffers at hw
    rwa [hbuf, hcap, hkb] at hw
  have hiff := fun c => ht.finishes_iff c
  rw [hN₀] at hiff
  refine ⟨fun cs₁ c hcs => ?_, ?_⟩
  · rw [← hN₀]
    exact ht.before cs₁ c hcs
  · obtain ⟨m, hm⟩ := ht.processKey_ok ht.waits
    refine ⟨m, fun a ha he => ?_⟩
    obtain ⟨k', hk⟩ := hm a ha
    refine ⟨k', hk, ?_⟩
    by_cases hf : Finishes k a.datasrc
    · have hfin := ht.finish he hf hk
      rw [if_pos ((hiff _).mp hf), ← ht.line, ← hbuf]
      refine ⟨hbuf ▸ hframe hfin.writes, hfin.ready, hfin.ret, ?_, hfin.line, hfin.terminated⟩
      have hroom := ht.room
      rw [← ht.length_line, hsize, hmax] at hroom
      omega
    · obtain ⟨k₁, hk₁, -, honly, -, hw, -⟩ := ht.goOn (mt (ht.readCompletes_iff he).mp hf)
      obtain rfl : k' = k₁ := Except.ok.inj (hk.symm.trans hk₁)
      rw [if_neg fun hx => hf ((hiff _).mpr hx)]
      exact ⟨hframe hw, ht.waits.kbdOnly honly⟩

/-- The sample machine: its root process opens the keyboard and reads ten bytes, and an `a` is
typed. -/
def opened : Disp := (turn sampleBoot (sampleCall .openDev [0])).getD sampleBoot

theorem opened_reachable : dispatcher.Reachable opened :=
  TSys.ReachableUnder.tail ⟨sampleBoot, sampleBoot_init, .refl⟩ trivial
    (Run.eq_getD (s := sampleBoot) (by decide +kernel) :
      turn sampleBoot (sampleCall .openDev [0]) = .ok opened)

/-- The call of `SYS_READ` has entered the kernel. -/
def asking : Kernel :=
  (contextswitch opened.k opened.p (sampleCall .read [0, 0x60100, 10])).withBuffer 0x50000

@[inherit_doc opened]
def asked₀ : Kernel := ((sysRead asking opened.p sampleAmbient).getD (opened.k, 0)).1

/-- A key arrives. -/
def sampleKey (fuel : Nat) (c : Byte) : Ambient :=
  { sampleAmbient with fuel := fuel, datasrc := c }

@[inherit_doc opened]
def asked₁ : Kernel := (processKey asked₀ (sampleKey 100 0x1e)).getD asked₀

/-- A newline then completes the read, with the one character. -/
theorem buffering_invisible_of_line : ∃ m k', processKey asked₁ (sampleKey m 0x1c) = .ok k' ∧
    (k'.proctab opened.p).state = .ready ∧ (k'.proctab opened.p).ret = 1 ∧
    k'.mem.slice 0x60100 1 = [97] := by
  have hfacts : readArgs (contextswitch opened.k opened.p (sampleCall .read [0, 0x60100, 10]))
        opened.p = (0x60100, 10) ∧
      ((asked₀.proctab opened.p).state = .blocked ∧ asked₀.blockedQ = some opened.p) ∧
      ((asked₁.proctab opened.p).state = .blocked ∧ asked₁.blockedQ = some opened.p) ∧
      (¬ asked₀.atEof (sampleKey 100 0x1e) ∧ ¬ asked₁.atEof (sampleKey 0 0x1c)) ∧
      typed asked₀.kbd.keyState [0x1e] = [97] ∧
      Completes asked₀.kbd.keyState 10 [0x1e] 0x1c := by
    refine ⟨?_, ⟨?_, ?_⟩, ⟨?_, ?_⟩, ⟨?_, ?_⟩, ?_, ?_⟩ <;> decide +kernel
  obtain ⟨hargs, hw₀, hw₁, ⟨he₀, he₁⟩, htyped, hcomp⟩ := hfacts
  have hread : sysRead asking opened.p sampleAmbient = .ok (asked₀, _) :=
    Run.eq_getD (s := (opened.k, 0)) (by decide +kernel)
  have hrun : Typing opened.p asked₀ [0x1e] asked₁ :=
    .key (a := sampleKey 100 0x1e) (.start ⟨hw₀.1, [], hw₀.2⟩) he₀
      (Run.eq_getD (s := asked₀) (by decide +kernel)) ⟨hw₁.1, [], hw₁.2⟩
  obtain ⟨-, m, hm⟩ := buffering_invisible (t := sampleCall .read [0, 0x60100, 10])
    opened_reachable hread hargs (by decide) (by decide) (Apart.of_le (by decide) (by decide)) hrun
  obtain ⟨k', hk, -, hdone⟩ := hm (sampleKey m 0x1c) (Nat.le_refl m) he₁
  rw [show (sampleKey m 0x1c).datasrc = 0x1c from rfl, if_pos hcomp, htyped] at hdone
  exact ⟨m, k', hk, hdone.1, hdone.2.1, hdone.2.2.2.1⟩

end Xeros
