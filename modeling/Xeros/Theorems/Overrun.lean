import Xeros.Logic.Touches
import Xeros.Theorems.Keys

/-!
# Overruns

The buffer of the driver is never overrun, whoever opens, closes and reads the keyboard and
however reads are interrupted. The buffer of the reader is: the end-of-file key has a byte
written behind the terminator of the line, and a read of no bytes has the terminator itself
written.
-/

namespace Xeros

open Lib

variable {k k' : Kernel} {p p' r : Slot} {a : Ambient} {req : Request} {s s' s₁ s₂ : Disp}
  {t : Trap} {b : Word} {N : Int}

/-! ## The buffer of the driver -/

/-- Serving a request keeps the indices in their bounds. -/
theorem DriverStep.indexed (h : DriverStep k p a req k' p') (hx : Indexed k.kbd) :
    Indexed k'.kbd := by
  cases h with
  | kept hk _ _ =>
      rw [hk.kbd]
      exact hx
  | opened _ _ hk _ =>
      rw [hk]
      exact { hx with }
  | closed _ _ hk _ =>
      rw [hk]
      exact { hx with }
  | registered _ _ _ _ hk _ =>
      rw [hk]
      exact ⟨Int.le_refl 0, Int.le_refl 0, (by decide : (0 : Int) ≤ kbdbufsz)⟩
  | endbyte _ c hk _ =>
      rw [hk]
      exact { hx with }
  | key _ hk _ => exact hx.processKey hk

theorem Indexed.turn (hs : Sane s) (hx : Indexed s.k.kbd) (h : turn s t = .ok s') :
    Indexed s'.k.kbd := by
  obtain ⟨k₂, hstep, hk, -, -⟩ := hs.turn h
  rw [hk.kbd]
  exact hstep.indexed hx

theorem indexed_of_reachable (hs : dispatcher.Reachable s) : Indexed s.k.kbd := by
  obtain ⟨s₀, h₀, hp⟩ := hs
  refine (hp.preserves (I := fun s => Sane s ∧ Indexed s.k.kbd) ⟨sane_of_init h₀, ?_⟩
    fun s t s' hs _ hst => ?_).2
  · obtain ⟨img, hk⟩ := driver_of_init h₀
    rw [hk.kbd]
    exact ⟨Int.le_refl 0, Int.le_refl 0, (by decide : (0 : Int) ≤ kbdbufsz)⟩
  · obtain ⟨-, -, -, -, hs'⟩ := hs.1.turn hst
    exact ⟨hs', hs.2.turn hs.1 hst⟩

/-- In every reachable state, `kbdbufidx` is in `0..KBDBUFSZ`, and every index at which
`process_key` accesses `kbdbuffer` for the next key is in `0..KBDBUFSZ-1`. -/
theorem key_buffer_in_bounds (hs : dispatcher.Reachable s) :
    (0 ≤ s.k.kbd.kbdbufidx ∧ s.k.kbd.kbdbufidx ≤ kbdbufsz) ∧
    ∀ (t : Trap) (echo : Bool) (i : Int),
      .kbd i ∈ (loggedProcessKey (contextswitch s.k s.p t) t.ambient echo).2 →
        0 ≤ i ∧ i < kbdbufsz := by
  have hx := indexed_of_reachable hs
  refine ⟨⟨hx.kept, hx.short⟩, fun t echo i hi => ?_⟩
  have hx' : Indexed (contextswitch s.k s.p t).kbd := hx
  exact loggedProcessKey_kbd hx' hi

/-- The root process of the sample machine reads ten bytes. -/
def reading : Disp := (turn opened (sampleCall .read [0, 0x60100, 10])).getD opened

/-- An `a` is typed. -/
def Disp.typed (s : Disp) : Disp := (turn s (sampleTyping 0x1e)).getD s

/-- Three have been typed. -/
def filling : Disp := reading.typed.typed.typed

theorem reading_turn : turn opened (sampleCall .read [0, 0x60100, 10]) = .ok reading :=
  Run.eq_getD (s := opened) (by decide +kernel)

/-- The caller waits for all of them. -/
theorem filling_path :
    dispatcher.Path (fun s' _ => ReadsFor s'.k opened.p) reading filling ∧
      ReadsFor filling.k opened.p := by
  have hfacts : (ReadsFor reading.k opened.p ∧ (turn reading (sampleTyping 0x1e)).isOk = true) ∧
      (ReadsFor reading.typed.k opened.p ∧
        (turn reading.typed (sampleTyping 0x1e)).isOk = true) ∧
      (ReadsFor reading.typed.typed.k opened.p ∧
        (turn reading.typed.typed (sampleTyping 0x1e)).isOk = true) ∧
      ReadsFor filling.k opened.p := by decide +kernel
  obtain ⟨⟨hr₁, h₁⟩, ⟨hr₂, h₂⟩, ⟨hr₃, h₃⟩, hr⟩ := hfacts
  have hs₁ : turn reading (sampleTyping 0x1e) = .ok reading.typed :=
    Run.eq_getD (s := reading) h₁
  have hs₂ : turn reading.typed (sampleTyping 0x1e) = .ok reading.typed.typed :=
    Run.eq_getD (s := reading.typed) h₂
  have hs₃ : turn reading.typed.typed (sampleTyping 0x1e) = .ok filling :=
    Run.eq_getD (s := reading.typed.typed) h₃
  refine ⟨.tail (.tail (.tail .refl ?_ hs₁) ?_ hs₂) ?_ hs₃, hr⟩
  · exact hr₁
  · exact hr₂
  · exact hr₃

/-- The fourth `a` fills the buffer, and all four are moved to the buffer of the caller. -/
theorem key_buffer_in_bounds_of_flush :
    (∀ i : Fin 4, .kbd (i : Int) ∈ (loggedProcessKey
      (contextswitch filling.k filling.p (sampleTyping 0x1e)) (sampleTyping 0x1e).ambient true).2) ∧
    filling.k.kbd.kbdbufidx ≤ kbdbufsz ∧
    ∀ i, .kbd i ∈ (loggedProcessKey (contextswitch filling.k filling.p (sampleTyping 0x1e))
      (sampleTyping 0x1e).ambient true).2 → 0 ≤ i ∧ i < kbdbufsz := by
  have hreach : dispatcher.Reachable filling :=
    (opened_reachable.tail trivial reading_turn).path (filling_path.1.mono fun _ _ _ => trivial)
  obtain ⟨hidx, hkey⟩ := key_buffer_in_bounds hreach
  exact ⟨by decide +kernel, hidx.2, hkey (sampleTyping 0x1e) true⟩

/-! ## The buffer of the reader -/

/-- While the driver reads for a process that stays blocked, its buffer stays the same, and each
key leaves room for the terminator. -/
theorem ReadsFor.turn (hs : Sane s) (hx : Indexed s.k.kbd) (hr : ReadsFor s.k r)
    (h : turn s t = .ok s') (hr' : ReadsFor s'.k r) :
    s'.k.kbd.applbuffer = s.k.kbd.applbuffer ∧ s'.k.kbd.applbufsize = s.k.kbd.applbufsize ∧
      (s.k.kbd.applbuffer ≠ 0 →
        s'.k.kbd.held = s.k.kbd.held ∨ s'.k.kbd.held < s.k.kbd.applbufsize) := by
  obtain ⟨k₂, hstep, hk, -, -⟩ := hs.turn h
  have hne : r ≠ s.p := by
    rintro rfl
    have hrun := hs.running
    rw [hr.2] at hrun
    cases hrun
  have hreader : k₂.kbd.reader = some r := by
    rw [← hk.kbd]
    exact hr'.1
  rw [hk.kbd]
  cases hstep with
  | kept hk₂ _ _ =>
      rw [hk₂.kbd]
      exact ⟨rfl, rfl, fun _ => .inl rfl⟩
  | opened _ _ hk₂ _ =>
      rw [hk₂] at hreader
      exact absurd (Option.some.inj hreader).symm hne
  | closed _ _ hk₂ _ =>
      rw [hk₂] at hreader
      cases hreader
  | registered _ _ _ _ hk₂ _ =>
      rw [hk₂] at hreader
      exact absurd (Option.some.inj hreader).symm hne
  | endbyte _ c hk₂ _ =>
      rw [hk₂]
      exact ⟨rfl, rfl, fun _ => .inl rfl⟩
  | key _ hkey _ =>
      have hg := contextswitch_good hs.good hs.used t
      have hx' : Indexed (contextswitch s.k s.p t).kbd := hx
      have hr₁ : ReadsFor (contextswitch s.k s.p t) r := by
        refine ⟨hr.1, ?_⟩
        rw [contextswitch_proctab, if_neg hne]
        exact hr.2
      have hkept : k₂.registration = (contextswitch s.k s.p t).registration := by
        rcases processKey_cases hg hkey with hk₂ | ⟨q, hwake⟩
        · exact hk₂.registration
        · have hnone := congrArg Registration.reader hwake.registration
          rw [Kernel.registration_reader, hreader] at hnone
          cases hnone
      refine ⟨congrArg Registration.buffer hkept, congrArg Registration.size hkept, fun hb => ?_⟩
      exact .inr (processKey_held (k := contextswitch s.k s.p t) hx' hr₁ hb hkey
        (by rw [hreader]; exact Option.some_ne_none r))

/-- What is known of a read of `N` bytes into `b` while its reader stays blocked. -/
structure Pending (b : Word) (N : Int) (k : Kernel) : Prop where
  buffer : k.kbd.applbuffer = b
  size : k.kbd.applbufsize = N
  room : b ≠ 0 → 1 ≤ N → k.kbd.held < N

/-- A process that is blocked by its `SYS_READ`, and for which the driver then reads, has
registered its buffer. -/
theorem Pending.of_read (hs : Sane s) (hreq : t.cause.request = .read)
    (hargs : readArgs (contextswitch s.k s.p t) s.p = (b, N)) (h : turn s t = .ok s₁)
    (hr : ReadsFor s₁.k s.p) : Pending b N s₁.k := by
  obtain ⟨k₂, hstep, hk, -, hs₁⟩ := hs.turn h
  have hstays : s₁.p ≠ s.p := by
    intro hp
    have hrun := hs₁.running
    rw [hp, hr.2] at hrun
    cases hrun
  rw [hreq] at hstep
  cases hstep with
  | kept _ hread _ => exact absurd (hread rfl) hstays
  | opened hreq' _ _ _ => cases hreq'
  | closed hreq' _ _ _ => cases hreq'
  | registered _ _ _ _ hk₂ _ =>
      rw [hargs] at hk₂
      refine ⟨?_, ?_, fun _ h1 => ?_⟩
      · rw [hk.kbd, hk₂, Kbd.register_applbuffer]
      · rw [hk.kbd, hk₂, Kbd.register_applbufsize]
      · rw [hk.kbd, hk₂]
        exact Int.lt_of_lt_of_le Int.zero_lt_one h1
  | endbyte hreq' _ _ _ => cases hreq'
  | key hreq' _ _ => cases hreq'

theorem Pending.turn (hs : Sane s) (hx : Indexed s.k.kbd) (hr : ReadsFor s.k r)
    (hp : Pending b N s.k) (h : turn s t = .ok s') (hr' : ReadsFor s'.k r) :
    Pending b N s'.k := by
  obtain ⟨hb, hn, hheld⟩ := hr.turn hs hx h hr'
  refine ⟨hb.trans hp.buffer, hn.trans hp.size, fun hb0 h1 => ?_⟩
  rcases hheld (by rw [hp.buffer]; exact hb0) with he | hlt
  · rw [he]
    exact hp.room hb0 h1
  · rwa [hp.size] at hlt

theorem loggedClear_mem {buff : Word} {n i : Nat} {m : Bytes} {j : Int}
    (hj : .appl j ∈ (loggedClear buff n i m).2) : (i : Int) ≤ j ∧ j < ((i + n : Nat) : Int) := by
  induction n generalizing i m with
  | zero => exact absurd hj List.not_mem_nil
  | succ n ih =>
      rcases List.mem_cons.mp hj with hj | hj
      · cases hj
        exact ⟨Int.le_refl _, by omega⟩
      · have hrest := ih hj
        exact ⟨by omega, by omega⟩

/-- `kbd_read` clears the buffer in its bounds, and `ekbd_read` writes nothing. As long as the
driver reads for a process that has been blocked since its read of `N` bytes into `b`, every byte
that `process_key` writes for the next key is in the buffer if and only if there is no buffer, or
the read is of a byte at least and the key is not the end-of-file key unless another character
would have found room. -/
theorem reader_buffer_in_bounds_iff (hs : dispatcher.Reachable s) (hreq : t.cause.request = .read)
    (hargs : readArgs (contextswitch s.k s.p t) s.p = (b, N)) (hread : turn s t = .ok s₁)
    (hrun : dispatcher.Path (fun s' _ => ReadsFor s'.k s.p) s₁ s₂) (hw : ReadsFor s₂.k s.p) :
    (∀ (k : Kernel) (p : Slot) (buff : Word) (len i : Int),
      (.appl i ∈ (loggedKbdRead k p buff len).2 → 0 ≤ i ∧ i < len) ∧
        (ekbdRead k p buff len).2.mem = k.mem) ∧
    ∀ (t₂ : Trap) (echo : Bool),
      (∀ i, .appl i ∈ (loggedProcessKey (contextswitch s₂.k s₂.p t₂) t₂.ambient echo).2 →
        0 ≤ i ∧ i < N) ↔
      b = 0 ∨ (1 ≤ N ∧ ((contextswitch s₂.k s₂.p t₂).atEof t₂.ambient → s₂.k.kbd.held + 1 < N)) := by
  have hsane := sane_of_reachable hs
  obtain ⟨k₁, -, -, -, hsane₁⟩ := hsane.turn hread
  have hx₁ := (indexed_of_reachable hs).turn hsane hread
  -- the invariant of the run
  have hinv : (Sane s₂ ∧ Indexed s₂.k.kbd) ∧ (ReadsFor s₂.k s.p → Pending b N s₂.k) := by
    refine hrun.preserves (I := fun s' => (Sane s' ∧ Indexed s'.k.kbd) ∧
      (ReadsFor s'.k s.p → Pending b N s'.k)) ⟨⟨hsane₁, hx₁⟩, .of_read hsane hreq hargs hread⟩ ?_
    rintro u a v ⟨⟨hu, hxu⟩, hpu⟩ hru hst
    obtain ⟨-, -, -, -, hv⟩ := hu.turn hst
    exact ⟨⟨hv, hxu.turn hu hst⟩, fun hrv => (hpu hru).turn hu hxu hru hst hrv⟩
  obtain ⟨⟨-, hx⟩, hp⟩ := hinv
  obtain ⟨hbuf, hsize, hroom⟩ := hp hw
  refine ⟨fun k p buff len i => ⟨fun hi => ?_, ?_⟩, fun t₂ echo => ?_⟩
  · unfold loggedKbdRead at hi
    split at hi
    · have hin := loggedClear_mem hi
      omega
    · exact absurd hi List.not_mem_nil
  · unfold ekbdRead
    split
    · rfl
    · rfl
  · have hx₂ : Indexed (contextswitch s₂.k s₂.p t₂).kbd := hx
    have hiff := loggedProcessKey_appl_iff hx₂ t₂.ambient echo
    have hkbd : (contextswitch s₂.k s₂.p t₂).kbd = s₂.k.kbd := rfl
    rw [hkbd, hbuf, hsize] at hiff
    rw [hiff]
    have hheld : 0 ≤ s₂.k.kbd.held := Int.add_nonneg hx.passed hx.kept
    constructor
    · rintro (hb | ⟨hlt, heof⟩)
      · exact .inl hb
      · exact .inr ⟨by omega, heof⟩
    · rintro (hb | ⟨h1, heof⟩)
      · exact .inl hb
      · by_cases hb : b = 0
        · exact .inl hb
        · exact .inr ⟨hroom hb h1, heof⟩

/-- The four characters of the flush are written in the buffer of the caller. -/
theorem reader_buffer_in_bounds_of_flush :
    (∀ i : Fin 4, .appl (i : Int) ∈ (loggedProcessKey
      (contextswitch filling.k filling.p (sampleTyping 0x1e)) (sampleTyping 0x1e).ambient true).2) ∧
    ∀ i, .appl i ∈ (loggedProcessKey (contextswitch filling.k filling.p (sampleTyping 0x1e))
      (sampleTyping 0x1e).ambient true).2 → 0 ≤ i ∧ i < 10 := by
  have hfacts : readArgs (contextswitch opened.k opened.p (sampleCall .read [0, 0x60100, 10]))
        opened.p = (0x60100, 10) ∧ filling.k.kbd.held + 1 < 10 ∧
      ∀ i : Fin 4, .appl (i : Int) ∈ (loggedProcessKey
        (contextswitch filling.k filling.p (sampleTyping 0x1e))
          (sampleTyping 0x1e).ambient true).2 := by decide +kernel
  obtain ⟨hargs, hroom, hwritten⟩ := hfacts
  obtain ⟨hpath, hw⟩ := filling_path
  refine ⟨hwritten, ((reader_buffer_in_bounds_iff opened_reachable (by decide) hargs reading_turn
    hpath hw).2 (sampleTyping 0x1e) true).mpr (.inr ⟨by decide, fun _ => hroom⟩)⟩

/-- A process is reading one byte while Ctrl is held. -/
def controlled : Disp := (turn opened (sampleTyping 0x1d)).getD opened

@[inherit_doc controlled]
def readingOne : Disp := (turn controlled (sampleCall .read [0, 0x60100, 1])).getD controlled

/-- The end-of-file key has the byte behind it written. -/
theorem reader_buffer_overrun : ¬ ∀ (s s₁ s₂ : Disp) (t t₂ : Trap) (b : Word) (N i : Int)
    (echo : Bool), dispatcher.Reachable s → t.cause.request = .read →
    readArgs (contextswitch s.k s.p t) s.p = (b, N) → turn s t = .ok s₁ →
    dispatcher.Path (fun s' _ => ReadsFor s'.k s.p) s₁ s₂ → ReadsFor s₂.k s.p →
    .appl i ∈ (loggedProcessKey (contextswitch s₂.k s₂.p t₂) t₂.ambient echo).2 →
    0 ≤ i ∧ i < N := by
  intro h
  have hreach : dispatcher.Reachable controlled := opened_reachable.tail trivial
    (Run.eq_getD (s := opened) (by decide +kernel) :
      turn opened (sampleTyping 0x1d) = .ok controlled)
  have hread : turn controlled (sampleCall .read [0, 0x60100, 1]) = .ok readingOne :=
    Run.eq_getD (s := controlled) (by decide +kernel)
  have hwrong := h controlled readingOne readingOne (sampleCall .read [0, 0x60100, 1])
    (sampleTyping 0x20) 0x60100 1 1 true hreach (by decide) (by decide +kernel) hread .refl
    (by decide +kernel) (by decide +kernel)
  exact absurd hwrong.2 (by decide)

end Xeros
