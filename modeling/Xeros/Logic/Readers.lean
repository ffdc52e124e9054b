import Xeros.Logic.Driver

/-!
# Who reads the keyboard

The driver knows one reader, with one buffer and its size. `serve_registers` is the
inversion of a request with respect to them: they are kept, or one of four calls of the
driver replaces them. Every invariant about the reader is proved from it.
-/

namespace Xeros

open Lib

variable {k k' k₁ k₂ : Kernel} {p p' q r : Slot} {a : Ambient} {req : Request} {fuel : Nat}

/-- Who reads, and the buffer and its size. -/
structure Registration where
  reader : Option Slot
  buffer : Word
  size : Int

/-- No read is registered. -/
def Registration.nobody : Registration := ⟨none, 0, 0⟩

/-- What is registered with the driver. -/
def Kernel.registration (k : Kernel) : Registration :=
  ⟨k.kbd.reader, k.kbd.applbuffer, k.kbd.applbufsize⟩

@[simp] theorem Kernel.registration_reader (k : Kernel) :
    k.registration.reader = k.kbd.reader := rfl

/-- The registration and the devices are the same. -/
structure KeepsReader (k k' : Kernel) : Prop where
  registration : k'.registration = k.registration
  devtab : k'.devtab = k.devtab

namespace KeepsReader

theorem refl (k : Kernel) : KeepsReader k k := ⟨rfl, rfl⟩

theorem trans (h₁ : KeepsReader k k₁) (h₂ : KeepsReader k₁ k₂) : KeepsReader k k₂ :=
  ⟨h₂.registration.trans h₁.registration, h₂.devtab.trans h₁.devtab⟩

theorem of_driver (h : KeepsDriver k k') : KeepsReader k k' := by
  refine ⟨?_, h.devtab⟩
  unfold Kernel.registration
  rw [h.kbd]

theorem setMem (k : Kernel) (m : Bytes) : KeepsReader k (k.setMem m) := ⟨rfl, rfl⟩

/-! ## The buffers of the driver -/

theorem storeKey (k : Kernel) (c : Byte) : KeepsReader k (storeKey k c) := ⟨rfl, rfl⟩

theorem passKeys (n i : Nat) (k : Kernel) : KeepsReader k (passKeys n i k) := by
  induction n generalizing i k with
  | zero => exact refl k
  | succ n ih =>
      have hp : KeepsReader k (passKey k i) := ⟨rfl, rfl⟩
      exact hp.trans (ih (i + 1) (passKey k i))

theorem deliverKeys (k : Kernel) : KeepsReader k (deliverKeys k) :=
  (passKeys k.kbd.kbdbufidx.toNat 0 k).trans ⟨rfl, rfl⟩

theorem completeRead (k : Kernel) (c : Byte) : KeepsReader k (completeRead k c) := by
  unfold Xeros.completeRead
  split
  · have he : KeepsReader k (receiveEof k) := ⟨rfl, rfl⟩
    exact he.trans (deliverKeys _)
  · exact deliverKeys k

theorem shiftKeys (d n j : Nat) (k : Kernel) : KeepsReader k (shiftKeys d n j k) := by
  induction n generalizing j k with
  | zero => exact refl k
  | succ n ih => exact trans (setMem k _) (ih (j + 1) _)

theorem flushKeys (n i : Nat) (k : Kernel) : KeepsReader k (flushKeys n i k).1 := by
  induction n generalizing i k with
  | zero => exact refl k
  | succ n ih =>
      have hp : KeepsReader k (passKey k i) := ⟨rfl, rfl⟩
      unfold Xeros.flushKeys
      dsimp only
      split
      · split
        · have h0 : KeepsReader (passKey k i)
              ((passKey k i).setKbd { (passKey k i).kbd with kbdbufidx := 0 }) := ⟨rfl, rfl⟩
          exact (hp.trans h0).trans (ih (i + 1) _)
        · exact (hp.trans (shiftKeys (i + 1) n 0 _)).trans ⟨rfl, rfl⟩
      · exact hp.trans (ih (i + 1) _)

theorem storeAndFlush (k : Kernel) (c : Byte) : KeepsReader k (storeAndFlush k c).1 := by
  have hk : KeepsReader k (keepKey k c) := by
    unfold keepKey
    split
    · exact storeKey k c
    · exact refl k
  unfold Xeros.storeAndFlush
  dsimp only
  split
  · split
    · exact hk.trans (flushKeys 4 0 _)
    · exact (hk.trans (flushKeys 4 0 _)).trans ⟨rfl, rfl⟩
  · exact hk

end KeepsReader

/-! ## Notification -/

/-- `notify` makes the reader ready, with the number of characters, and moves nobody else. -/
theorem notify_spec (hu : k.Used r) (h : notify k fuel r = .ok k') :
    Rest k k' ∧ (k'.proctab r).state = .ready ∧ (k'.proctab r).ret = toWord k.kbd.applbufidx ∧
      ∀ q, q ≠ r → (k'.proctab q).state = (k.proctab q).state ∧
        (k'.proctab q).ret = (k.proctab q).ret := by
  simp only [notify, Run.bind_eq_ok] at h
  obtain ⟨_, -, ⟨k₁, n⟩, h₁, h⟩ := h
  have hl := Relinked.remove h₁
  have hrest := Rest.remove h₁
  have hu₁ : (k₁.setRet r (toWord k₁.kbd.applbufidx)).Used r := by
    refine (hu.congr (hl.pid r)).upd ?_
    rfl
  refine ⟨(hrest.trans (.setRet _ _ _)).trans (.ready h), ?_⟩
  rw [ready_of_used hu₁, Except.ok.injEq] at h
  have hr := Relinked.readied (k₁.setRet r (toWord k₁.kbd.applbufidx)) r
  rw [h] at hr
  refine ⟨?_, ?_, fun q hq => ⟨?_, ?_⟩⟩
  · rw [hr.state]
    simp
  · rw [hr.ret, hrest.kbd]
    simp [Kernel.setRet]
  · rw [hr.state, ← hl.state]
    simp [Kernel.setRet, hq]
  · rw [hr.ret, ← hl.ret]
    simp [Kernel.setRet, hq]

/-- The reader is notified if it is blocked, and nothing is registered afterwards. -/
theorem notifyReader_cases {b : Bool} (hg : Good k) (h : notifyReader k fuel = .ok (k', b)) :
    (b = false ∧ k' = k ∧ ∀ r, k.kbd.reader = some r → (k.proctab r).state ≠ .blocked) ∨
    (b = true ∧ ∃ r, k.kbd.reader = some r ∧ (k.proctab r).state = .blocked ∧
      (k'.proctab r).state = .ready ∧ (k'.proctab r).ret = toWord k.kbd.applbufidx ∧
      (∀ q, q ≠ r → (k'.proctab q).state = (k.proctab q).state ∧
        (k'.proctab q).ret = (k.proctab q).ret) ∧
      k'.registration = .nobody ∧ k'.devtab = k.devtab ∧ k'.mem = k.mem) := by
  unfold notifyReader at h
  split at h
  · rename_i hr
    simp only [pure, Except.pure, Except.ok.injEq, Prod.mk.injEq] at h
    refine .inl ⟨h.2.symm, h.1.symm, fun r hr' => ?_⟩
    rw [hr] at hr'
    cases hr'
  · rename_i r hr
    split at h
    · rename_i hb
      simp only [Run.bind_eq_ok, pure, Except.pure, Except.ok.injEq, Prod.mk.injEq] at h
      obtain ⟨k₁, h₁, rfl, rfl⟩ := h
      obtain ⟨hrest, hst, hret, hother⟩ := notify_spec (hg.reader r hr) h₁
      exact .inr ⟨rfl, r, hr, hb, hst, hret, hother, rfl, hrest.devtab, hrest.mem⟩
    · rename_i hb
      simp only [pure, Except.pure, Except.ok.injEq, Prod.mk.injEq] at h
      refine .inl ⟨h.2.symm, h.1.symm, fun r' hr' => ?_⟩
      obtain rfl : r = r' := Option.some.inj (hr.symm.trans hr')
      exact hb

theorem KbdOnly.proctab (h : KbdOnly k k') : k'.proctab = k.proctab := by
  obtain ⟨m, b, rfl, -⟩ := h
  rfl

/-- A key wakes the process `r`, which is the registered reader and blocked, and nobody
else. -/
structure Notified (k : Kernel) (r : Slot) (k' : Kernel) : Prop where
  reader : k.kbd.reader = some r
  buffer : k.kbd.applbuffer ≠ 0
  blocked : (k.proctab r).state = .blocked
  ready : (k'.proctab r).state = .ready
  other : ∀ q, q ≠ r → (k'.proctab q).state = (k.proctab q).state ∧
    (k'.proctab q).ret = (k.proctab q).ret
  registration : k'.registration = .nobody
  devtab : k'.devtab = k.devtab

/-- No process is moved and the registration is kept. -/
structure KeepsAll (k k' : Kernel) : Prop extends KeepsReader k k' where
  proctab : k'.proctab = k.proctab

namespace KeepsAll

theorem refl (k : Kernel) : KeepsAll k k := ⟨.refl k, rfl⟩

theorem trans (h₁ : KeepsAll k k₁) (h₂ : KeepsAll k₁ k₂) : KeepsAll k k₂ :=
  ⟨h₁.toKeepsReader.trans h₂.toKeepsReader, h₂.proctab.trans h₁.proctab⟩

theorem storeKey (k : Kernel) (c : Byte) : KeepsAll k (storeKey k c) :=
  ⟨.storeKey k c, (KbdOnly.storeKey k c).proctab⟩

theorem completeRead (k : Kernel) (c : Byte) : KeepsAll k (completeRead k c) :=
  ⟨.completeRead k c, (KbdOnly.completeRead k c).proctab⟩

theorem storeAndFlush (k : Kernel) (c : Byte) : KeepsAll k (storeAndFlush k c).1 :=
  ⟨.storeAndFlush k c, (KbdOnly.storeAndFlush k c).proctab⟩

/-- What happens to the reader after such a step. -/
theorem notified (h : KeepsAll k k₁) (hw : Notified k₁ r k') : Notified k r k' where
  reader := (congrArg Registration.reader h.registration).symm.trans hw.reader
  buffer := fun h0 => hw.buffer ((congrArg Registration.buffer h.registration).trans h0)
  blocked := by
    rw [← h.proctab]
    exact hw.blocked
  ready := hw.ready
  other := by
    rw [← h.proctab]
    exact hw.other
  registration := hw.registration
  devtab := hw.devtab.trans h.devtab

end KeepsAll

theorem notifyReader_notified {b : Bool} (hg : Good k) (hb : k.kbd.applbuffer ≠ 0)
    (h : notifyReader k fuel = .ok (k', b)) :
    (b = false ∧ k' = k) ∨ (b = true ∧ ∃ r, Notified k r k') := by
  rcases notifyReader_cases hg h with ⟨hf, hk, -⟩ | ⟨ht, r, h₁, h₂, h₃, -, h₅, h₆, h₇, -⟩
  · exact .inl ⟨hf, hk⟩
  · exact .inr ⟨ht, r, h₁, hb, h₂, h₃, h₅, h₆, h₇⟩

theorem bufferKey_cases {c ascii : Byte} (hg : Good k) (hb : k.kbd.applbuffer ≠ 0)
    (h : bufferKey k fuel c ascii = .ok k') : KeepsAll k k' ∨ ∃ r, Notified k r k' := by
  unfold bufferKey at h
  split at h
  · simp only [pure, Except.pure, Except.ok.injEq] at h
    exact .inl (h ▸ .refl k)
  · have hs := KeepsAll.storeAndFlush k c
    have hq := (KbdOnly.storeAndFlush k c).quiet (X := nobody) hg
    split at h
    · rename_i k₁ hk₁
      simp only [pure, Except.pure, Except.ok.injEq] at h
      rw [hk₁] at hs
      exact .inl (h ▸ hs)
    · rename_i k₁ hk₁
      rw [hk₁] at hs hq
      simp only [Run.bind_eq_ok, pure, Except.pure, Except.ok.injEq] at h
      obtain ⟨⟨k₂, woken⟩, h₁, rfl⟩ := h
      have hb₁ : k₁.kbd.applbuffer ≠ 0 :=
        fun h0 => hb ((congrArg Registration.buffer hs.registration).symm.trans h0)
      rcases notifyReader_notified hq.good hb₁ h₁ with ⟨-, rfl⟩ | ⟨-, r, hw⟩
      · exact .inl hs
      · exact .inr ⟨r, hs.notified hw⟩

/-- Behind the first two tests of `process_key` there is a buffer to copy to. -/
theorem Kbd.applbuffer_ne {b : Kbd} (hfull : ¬ (kbdbufsz ≤ b.kbdbufidx ∧ b.applbuffer = 0))
    (hroom : ¬ (b.kbdbufidx < kbdbufsz ∧ b.applbuffer = 0)) : b.applbuffer ≠ 0 := by
  intro h0
  rcases Int.lt_or_le b.kbdbufidx kbdbufsz with hlt | hle
  · exact hroom ⟨hlt, h0⟩
  · exact hfull ⟨hle, h0⟩

theorem handleKey_cases {c ascii : Byte} (hg : Good k) (h : handleKey k fuel c ascii = .ok k') :
    KeepsAll k k' ∨ ∃ r, Notified k r k' := by
  unfold handleKey at h
  split at h
  · simp only [pure, Except.pure, Except.ok.injEq] at h
    exact .inl (h ▸ .refl k)
  rename_i hfull
  split at h
  · simp only [pure, Except.pure, Except.ok.injEq] at h
    exact .inl (h ▸ .storeKey k c)
  rename_i hroom
  have hb := Kbd.applbuffer_ne hfull hroom
  split at h
  · simp only [Run.bind_eq_ok] at h
    obtain ⟨⟨k₁, woken⟩, h₁, h⟩ := h
    have hc := KeepsAll.completeRead k c
    have hg₁ := ((KbdOnly.completeRead k c).quiet (X := nobody) hg).good
    have hb₁ : (completeRead k c).kbd.applbuffer ≠ 0 :=
      fun h0 => hb ((congrArg Registration.buffer hc.registration).symm.trans h0)
    rcases notifyReader_notified hg₁ hb₁ h₁ with ⟨rfl, rfl⟩ | ⟨rfl, r, hw⟩
    · have h₂ : bufferKey (completeRead k c) fuel c ascii = .ok k' := h
      rcases bufferKey_cases hg₁ hb₁ h₂ with hk | ⟨r, hw⟩
      · exact .inl (hc.trans hk)
      · exact .inr ⟨r, hc.notified hw⟩
    · simp only [if_true, pure, Except.pure, Except.ok.injEq] at h
      exact .inr ⟨r, h ▸ hc.notified hw⟩
  · exact bufferKey_cases hg hb h

/-- A key wakes the registered reader, or moves nobody and keeps the registration. -/
theorem processKey_cases (hg : Good k) (h : processKey k a = .ok k') :
    KeepsAll k k' ∨ ∃ r, Notified k r k' := by
  have hn : KeepsAll k (k.setKbd { k.kbd with
      keyState := (kbtoa k.kbd.keyState a.datasrc).2 }) := ⟨⟨rfl, rfl⟩, rfl⟩
  have hg₁ : Good (k.setKbd { k.kbd with
      keyState := (kbtoa k.kbd.keyState a.datasrc).2 }) := { hg with }
  rcases handleKey_cases hg₁ h with hk | ⟨r, hw⟩
  · exact .inl (hn.trans hk)
  · exact .inr ⟨r, hn.notified hw⟩

theorem sysKeyboard_cases (hg : Good k) (h : sysKeyboard k a = .ok k') :
    KeepsAll k k' ∨ ∃ r, Notified k r k' := by
  unfold sysKeyboard at h
  split at h
  · exact processKey_cases hg h
  · simp only [pure, Except.pure, Except.ok.injEq] at h
    exact .inl (h ▸ .refl k)

/-! ## The inversion of `serve` -/

/-- What serving a request of `p` does to the registration. -/
inductive Registers (k : Kernel) (p : Slot) (req : Request) (k' : Kernel) (p' : Slot) : Prop
  | kept (h : KeepsReader k k') (hread : req = .read → p' = p)
      (hkey : req = .keyboard → k'.proctab = k.proctab)
  | opened (hreq : req = .openDev) (ho : opensDevice k p)
      (h : k'.registration = ⟨some p, k.kbd.applbuffer, k.kbd.applbufsize⟩)
      (hd : k'.devtab = (keyboardInit k).devtab)
  | closed (hreq : req = .close) (hc : namesOpen k p) (h : k'.registration = .nobody)
      (hd : k'.devtab = k.devtab)
  | read (hreq : req = .read) (hn : namesOpen k p) (he : k.kbd.eofReceived = false)
      (hrc : (diRead k p (k.arg p 0).toInt (k.arg p 1) (k.arg p 2).toInt).1 = registeredKbdread)
      (h : k'.registration = ⟨some p, (readArgs k p).1, (readArgs k p).2⟩)
      (hd : k'.devtab = k.devtab)
  | woken (hreq : req = .keyboard) (r : Slot) (h : Notified k r k')

theorem serve_registers (hg : Good k) (hu : k.Used p) (hw : NoWrite k)
    (h : serve k p a req = .ok (k', p')) : Registers k p req k' p' := by
  -- the registration after a call, from the variables of the driver
  have hreg : ∀ b : Kbd, k'.kbd = b →
      k'.registration = ⟨b.reader, b.applbuffer, b.applbufsize⟩ := by
    rintro b rfl
    rfl
  cases serve_driver hu hw h with
  | kept hk hread hkey =>
      exact .kept (.of_driver hk) hread fun hreq => congrArg Kernel.proctab (hkey hreq)
  | opened hreq ho hk hd => exact .opened hreq ho (hreg _ hk) hd
  | closed hreq hc hk hd => exact .closed hreq hc (hreg _ hk) hd
  | registered hreq hn he hrc hk hd => exact .read hreq hn he hrc (hreg _ hk) hd
  | endbyte hreq c hk hd =>
      subst hreq
      have hr := hreg _ hk
      exact .kept ⟨hr, hd⟩ (by rintro ⟨⟩) (by rintro ⟨⟩)
  | key hreq hk hstay =>
      rcases processKey_cases hg hk with hk | ⟨r, hwake⟩
      · exact .kept hk.toKeepsReader (fun _ => hstay) fun _ => hk.proctab
      · exact .woken hreq r hwake

/-! ## Runs -/

/-- The devices stay those that cannot be written to. -/
theorem DriverStep.noWrite (hg : Good k) (h : DriverStep k p a req k' p') (hw : NoWrite k) :
    NoWrite k' := by
  have hsame : k'.devtab = k.devtab → NoWrite k' := fun hd i => by
    rw [hd]
    exact hw i
  cases h with
  | kept h _ _ => exact hsame h.devtab
  | opened _ _ _ hd =>
      intro i
      rw [hd]
      unfold keyboardInit
      dsimp only
      split
      · rfl
      split
      · rfl
      · exact hw i
  | closed _ _ _ hd => exact hsame hd
  | registered _ _ _ _ _ hd => exact hsame hd
  | endbyte _ _ _ hd => exact hsame hd
  | key _ h _ =>
      rcases processKey_cases hg h with hk | ⟨r, hk⟩
      · exact hsame hk.devtab
      · exact hsame hk.devtab

variable {s s' : Disp} {t : Trap}

/-- The pointers are good, a process runs, and no device can be written to. -/
structure Sane (s : Disp) : Prop extends Sound s where
  noWrite : NoWrite s.k

/-- A turn serves the request and starts the process that runs next, which the driver does not
notice. -/
theorem Sane.turn (hs : Sane s) (h : turn s t = .ok s') :
    ∃ k₂, DriverStep (contextswitch s.k s.p t) s.p t.ambient t.cause.request k₂ s'.p ∧
      KeepsDriver k₂ s'.k ∧ (∀ q, q ≠ s'.p → s'.k.proctab q = k₂.proctab q) ∧ Sane s' := by
  have h' := h
  simp only [Xeros.turn, Run.bind_eq_ok, pure, Except.pure, Except.ok.injEq] at h'
  obtain ⟨⟨k₂, p₂⟩, h₁, rfl⟩ := h'
  have hg := contextswitch_good hs.good hs.used t
  have hu := contextswitch_used (p := s.p) hs.used t
  have hw : NoWrite (contextswitch s.k s.p t) := hs.noWrite
  have hstep := serve_driver hu hw h₁
  have hk := KeepsDriver.loopTop k₂ p₂
  refine ⟨k₂, hstep, hk, fun q hq => ?_, hs.toSound.turn h, fun i => ?_⟩
  · have hq' : q ≠ p₂ := hq
    rw [loopTop_proctab (serve_served hg hu h₁).2, if_neg hq']
  · rw [hk.devtab]
    exact hstep.noWrite hg hw i

/-- The driver and the devices at boot. -/
theorem driver_of_init (h : dispatcher.init s) :
    ∃ img, KeepsDriver (deviceinit (dispatchinit img)) s.k := by
  obtain ⟨img, h⟩ := h
  simp only [boot, Run.bind_eq_ok, pure, Except.pure, Except.ok.injEq] at h
  obtain ⟨k₁, h₁, ⟨k₂, p⟩, h₂, rfl⟩ := h
  simp only [initproc, Run.bind_eq_ok, pure, Except.pure, Except.ok.injEq] at h₁
  obtain ⟨⟨pid₁, k₃⟩, h₃, ⟨pid₂, k₄⟩, h₄, rfl⟩ := h₁
  have hinit : KeepsDriver (deviceinit (dispatchinit img)) (deviceinit
      ((dispatchinit img).setHeap (kmeminit img.freemem (dispatchinit img).heap.hdr))) := ⟨rfl, rfl⟩
  have hidle : KeepsDriver k₄ (k₄.setIdle pid₂) := ⟨rfl, rfl⟩
  exact ⟨img, ((((hinit.trans (.create h₃)).trans (.create h₄)).trans hidle).trans
    (.of_rest (Rest.next h₂))).trans (.loopTop k₂ p)⟩

theorem noWrite_of_init (h : dispatcher.init s) : NoWrite s.k := by
  obtain ⟨img, hk⟩ := driver_of_init h
  intro i
  rw [hk.devtab]
  unfold deviceinit keyboardInit unsupportedDevice
  dsimp only
  split
  · rfl
  split <;> rfl

theorem sane_of_init (h : dispatcher.init s) : Sane s :=
  ⟨(booted_of_init h).sound, noWrite_of_init h⟩

theorem sane_of_reachable (hs : dispatcher.Reachable s) : Sane s := by
  obtain ⟨s₀, h₀, hp⟩ := hs
  refine hp.preserves (sane_of_init h₀) fun s t s' hs _ hst => ?_
  obtain ⟨-, -, -, -, hs'⟩ := hs.turn hst
  exact hs'

/-! ## Processes blocked in a read -/

/-- The process is blocked in `SYS_READ`. -/
def BlockedRead (k : Kernel) (q : Slot) : Prop :=
  (k.proctab q).state = .blocked ∧ (k.proctab q).ret = Request.read.code

instance (k : Kernel) (q : Slot) : Decidable (BlockedRead k q) :=
  inferInstanceAs (Decidable (_ ∧ _))

/-- A state of the system, with the buffer and the size that the latest `SYS_READ` of each
process has asked for. -/
structure Reading where
  d : Disp
  asked : Slot → Word × Int

/-- A turn of the dispatcher, with what a `SYS_READ` asks for noted. -/
def Reading.turn (s : Reading) (t : Trap) : Run Reading := do
  let k := contextswitch s.d.k s.d.p t
  let (k', p') ← serve k s.d.p t.ambient t.cause.request
  return { d := loopTop k' p'
           asked := fun q => if t.cause.request = .read ∧ q = s.d.p then readArgs k q
             else s.asked q }

/-- The dispatcher with a note of what was asked. -/
def readings : TSys Reading Trap where
  init s := dispatcher.init s.d
  step s t s' := s.turn t = .ok s'

/-- A noted turn, with the kernel `k₂` when the request has been served. -/
structure ReadTurn (s : Reading) (t : Trap) (k₂ : Kernel) (s' : Reading) : Prop where
  serve : serve (contextswitch s.d.k s.d.p t) s.d.p t.ambient t.cause.request
    = .ok (k₂, s'.d.p)
  served : Served (contextswitch s.d.k s.d.p t) s.d.p t.ambient t.cause.request k₂ s'.d.p
  registers : Registers (contextswitch s.d.k s.d.p t) s.d.p t.cause.request k₂ s'.d.p
  used : k₂.Used s'.d.p
  turn : turn s.d t = .ok s'.d
  loopTop : s'.d = loopTop k₂ s'.d.p
  asked : ∀ q, s'.asked q = if t.cause.request = .read ∧ q = s.d.p then
    readArgs (contextswitch s.d.k s.d.p t) q else s.asked q

theorem Reading.turn_cases {s s' : Reading} {t : Trap} (hs : Sane s.d)
    (h : s.turn t = .ok s') : ∃ k₂, ReadTurn s t k₂ s' := by
  simp only [turn, Run.bind_eq_ok, pure, Except.pure, Except.ok.injEq] at h
  obtain ⟨⟨k', p'⟩, h₁, rfl⟩ := h
  have hg := contextswitch_good hs.good hs.used t
  have hu := contextswitch_used (p := s.d.p) hs.used t
  obtain ⟨h₂, h₃⟩ := serve_served hg hu h₁
  have ht : Xeros.turn s.d t = .ok (loopTop k' p') := by
    unfold Xeros.turn
    rw [h₁]
    rfl
  exact ⟨k', h₁, h₂, serve_registers hg hu hs.noWrite h₁, h₃, ht, rfl, fun _ => rfl⟩

theorem ReadTurn.sane {s s' : Reading} {t : Trap} (hs : Sane s.d) (h : ReadTurn s t k₂ s') :
    Sane s'.d := by
  obtain ⟨-, -, -, -, hs'⟩ := hs.turn h.turn
  exact hs'

/-- The registration after a turn is the one that serving the request has left. -/
theorem ReadTurn.registration {s s' : Reading} {t : Trap} (h : ReadTurn s t k₂ s') :
    s'.d.k.registration = k₂.registration := by
  rw [h.loopTop]
  exact (KeepsReader.of_driver (.loopTop k₂ s'.d.p)).registration

/-- A process off the processor is left as serving the request has left it. -/
theorem ReadTurn.proctab {s s' : Reading} {t : Trap} (h : ReadTurn s t k₂ s')
    (hq : q ≠ s'.d.p) : s'.d.k.proctab q = k₂.proctab q := by
  rw [h.loopTop, loopTop_proctab h.used, if_neg hq]

/-- A process that is blocked in a read after a turn has been before, or it is the one that
ran and has registered its read. -/
theorem ReadTurn.blockedRead {s s' : Reading} {t : Trap} (hs : Sane s.d)
    (h : ReadTurn s t k₂ s') (hq : BlockedRead s'.d.k q) :
    q ≠ s'.d.p ∧ BlockedRead k₂ q ∧
      ((q ≠ s.d.p ∧ BlockedRead s.d.k q) ∨ (q = s.d.p ∧ t.cause.request = .read)) := by
  have hqp : q ≠ s'.d.p := by
    rintro rfl
    have hrun := (h.sane hs).running
    rw [hq.1] at hrun
    cases hrun
  have hq₂ : BlockedRead k₂ q := by
    unfold BlockedRead at hq ⊢
    rwa [h.proctab hqp] at hq
  refine ⟨hqp, hq₂, ?_⟩
  by_cases hp : q = s.d.p
  · refine .inr ⟨hp, ?_⟩
    rw [hp] at hq₂ hqp
    have hg := contextswitch_good hs.good hs.used t
    have hu := contextswitch_used (p := s.d.p) hs.used t
    cases serve_parked hg hu h.serve (Ne.symm hqp) with
    | able h => exact absurd h (by simp [hq₂.1])
    | blocked hb _ hret =>
        rw [hq₂.2] at hret
        rcases hb with hb | hb | hb | hb <;> rw [hb] at hret
        · exact absurd hret (by decide)
        · exact absurd hret (by decide)
        · exact absurd hret (by decide)
        · exact hb
    | asleep _ h => exact absurd h (by simp [hq₂.1])
    | stopped _ h => exact absurd h (by simp [hq₂.1])
  · obtain ⟨-, hsame⟩ := h.served.waiting hqp (.inl hq₂.1)
    obtain ⟨hst, hret⟩ := hsame hp
    rw [contextswitch_proctab, if_neg hp] at hst hret
    exact .inl ⟨hp, hst ▸ hq₂.1, hret ▸ hq₂.2⟩

/-- What was asked by a process that does not run is still noted. -/
theorem ReadTurn.asked_ne {s s' : Reading} {t : Trap} (h : ReadTurn s t k₂ s')
    (hq : q ≠ s.d.p) : s'.asked q = s.asked q := by
  rw [h.asked, if_neg fun hx => hq hx.2]

end Xeros
