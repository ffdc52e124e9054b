import Xeros.Theorems.Queues
import Xeros.Logic.Keys
import Xeros.Logic.Readers

/-!
# Readers and the registration

The driver has one registration and every process can replace it. As long as nobody opens,
closes or reads the keyboard while a process is blocked in `SYS_READ`, that process is the
one registered, and the key that completes its read wakes it.
-/

namespace Xeros

open Lib

variable {k k' k₂ : Kernel} {p p' q r : Slot} {a : Ambient} {s s' : Reading} {t : Trap}

/-! ## The key that completes a read -/

/-- A key that completes the read of a blocked reader makes it ready. -/
theorem sysKeyboard_wakes (hg : Good k) {l : List Slot} (hc : Chain k.link k.blockedQ l)
    (hf : l.length < a.fuel) (hr : k.kbd.reader = some r) (hb : (k.proctab r).state = .blocked)
    (hbuf : k.kbd.applbuffer ≠ 0) (hctl : a.control &&& 1 ≠ 0)
    (hkey : readCompletes (k.noteKey a).kbd a.datasrc
      ((kbtoa k.kbd.keyState a.datasrc).1.setWidth 8)) :
    ∃ k', sysKeyboard k a = .ok k' ∧ (k'.proctab r).state = .ready := by
  have hn : KeepsAll k (k.noteKey a) := ⟨⟨rfl, rfl⟩, rfl⟩
  have hd : KbdOnly (k.noteKey a) (completeRead (k.noteKey a) a.datasrc) := .completeRead _ _
  have hgn : Good (k.noteKey a) := { hg with }
  have hgd := (hd.quiet (X := nobody) hgn).good
  have hrd : (completeRead (k.noteKey a) a.datasrc).kbd.reader = some r := hd.reader.trans hr
  have hbd : ((completeRead (k.noteKey a) a.datasrc).proctab r).state = .blocked := by
    rw [hd.proctab]
    exact hb
  have hcd : Chain (completeRead (k.noteKey a) a.datasrc).link
      (completeRead (k.noteKey a) a.datasrc).blockedQ l := by
    rw [show (completeRead (k.noteKey a) a.datasrc).blockedQ = k.blockedQ from
      hd.unmoved.first .blocked]
    refine hc.congr fun q _ => ?_
    exact hd.unmoved.next q
  obtain ⟨k₁, h₁⟩ := notifyReader_back hgd hrd hbd
    (removeLoop_ok (Q := .blockedQ) hcd hf)
  refine ⟨k₁, ?_, ?_⟩
  · unfold sysKeyboard processKey handleKey
    rw [if_pos hctl]
    dsimp only
    rw [if_neg fun h => hbuf h.2, if_neg fun h => hbuf h.2]
    refine (if_pos hkey).trans ?_
    show (notifyReader (completeRead (k.noteKey a) a.datasrc) a.fuel >>= _) = _
    rw [h₁]
    rfl
  · rcases notifyReader_cases hgd h₁ with ⟨hf, -⟩ | ⟨-, r', hr', -, hst, -⟩
    · cases hf
    · obtain rfl : r = r' := Option.some.inj (hrd.symm.trans hr')
      exact hst

/-! ## Nobody takes the registration away -/

/-- While a process is blocked in `SYS_READ`, nobody opens or closes a device, and a read that
is registered meets no other one and has a buffer. -/
structure LeavesReader (s : Reading) (t : Trap) : Prop where
  opens : t.cause.request = .openDev → opensDevice (contextswitch s.d.k s.d.p t) s.d.p →
    ∀ q, ¬ BlockedRead s.d.k q
  close : t.cause.request = .close → namesOpen (contextswitch s.d.k s.d.p t) s.d.p →
    ∀ q, ¬ BlockedRead s.d.k q
  read : t.cause.request = .read → namesOpen (contextswitch s.d.k s.d.p t) s.d.p →
    s.d.k.kbd.eofReceived = false → (∀ q, ¬ BlockedRead s.d.k q) ∧
      (readArgs (contextswitch s.d.k s.d.p t) s.d.p).1 ≠ 0

/-- A step that does not touch the keyboard. -/
theorem LeavesReader.of_other (h₁ : t.cause.request ≠ .openDev) (h₂ : t.cause.request ≠ .close)
    (h₃ : t.cause.request ≠ .read) : LeavesReader s t :=
  ⟨fun h => absurd h h₁, fun h => absurd h h₂, fun h => absurd h h₃⟩

/-- An open while no process is blocked in a read. -/
theorem LeavesReader.of_open (h : t.cause.request = .openDev) (hq : ∀ q, ¬ BlockedRead s.d.k q) :
    LeavesReader s t :=
  ⟨fun _ _ => hq, fun h' => absurd (h.symm.trans h') (by decide),
    fun h' => absurd (h.symm.trans h') (by decide)⟩

/-- A read into a buffer while no process is blocked in a read. -/
theorem LeavesReader.of_read (h : t.cause.request = .read) (hq : ∀ q, ¬ BlockedRead s.d.k q)
    (hb : (readArgs (contextswitch s.d.k s.d.p t) s.d.p).1 ≠ 0) : LeavesReader s t :=
  ⟨fun h' => absurd (h.symm.trans h') (by decide), fun h' => absurd (h.symm.trans h') (by decide),
    fun _ _ _ => ⟨hq, hb⟩⟩

/-- Every process that is blocked in a read is registered, with its own buffer. -/
structure Attended (s : Reading) : Prop extends Sane s.d where
  registered : ∀ q, BlockedRead s.d.k q →
    s.d.k.registration = ⟨some q, (s.asked q).1, (s.asked q).2⟩ ∧ (s.asked q).1 ≠ 0

theorem Attended.of_init (h : readings.init s) : Attended s where
  toSane := sane_of_init h
  registered q hq := by
    have hst := hq.1
    rw [(booted_of_init h).state] at hst
    split at hst
    · cases hst
    split at hst <;> cases hst

theorem Attended.turn (hs : Attended s) (hc : LeavesReader s t) (h : s.turn t = .ok s') :
    Attended s' := by
  obtain ⟨k₂, ht⟩ := Reading.turn_cases hs.toSane h
  refine ⟨ht.sane hs.toSane, fun q hq => ?_⟩
  obtain ⟨hqp, hq₂, hcases⟩ := ht.blockedRead hs.toSane hq
  rw [ht.registration]
  rcases hcases with ⟨hqs, hold⟩ | ⟨rfl, hreq⟩
  · -- it has been blocked all along, so the registration is not replaced
    obtain ⟨hreg, hbuf⟩ := hs.registered q hold
    rw [ht.asked_ne hqs]
    cases ht.registers with
    | kept h _ _ => exact ⟨h.registration.trans hreg, hbuf⟩
    | opened hreq ho _ _ => exact absurd hold (hc.opens hreq ho q)
    | closed hreq hn _ _ => exact absurd hold (hc.close hreq hn q)
    | read hreq hn he _ _ _ => exact absurd hold ((hc.read hreq hn he).1 q)
    | woken _ r hw =>
        -- the process woken is the reader, which is `q`
        have hr : some r = some q := hw.reader.symm.trans (congrArg Registration.reader hreg)
        obtain rfl := Option.some.inj hr
        have hst := hq₂.1
        rw [hw.ready] at hst
        cases hst
  · -- it has just registered its read
    rw [ht.asked, if_pos ⟨hreq, rfl⟩]
    cases ht.registers with
    | kept _ hread _ => exact absurd (hread hreq).symm hqp
    | opened hreq' _ _ _ => exact absurd (hreq.symm.trans hreq') (by decide)
    | closed hreq' _ _ _ => exact absurd (hreq.symm.trans hreq') (by decide)
    | read _ hn he _ hr _ => exact ⟨hr, (hc.read hreq hn he).2⟩
    | woken hreq' _ _ => exact absurd (hreq.symm.trans hreq') (by decide)

/-- In every run in which nobody touches the keyboard while a process is blocked in
`SYS_READ`, that process is the registered reader with its own buffer, and the next key that
completes the read wakes it. -/
theorem no_orphaned_reader (h : readings.ReachableUnder LeavesReader s)
    (hq : BlockedRead s.d.k q) :
    s.d.k.registration = ⟨some q, (s.asked q).1, (s.asked q).2⟩ ∧
      ∀ (t : Trap) (l : List Slot), t.cause.request = .keyboard →
        t.ambient.control &&& 1 ≠ 0 →
        readCompletes ((contextswitch s.d.k s.d.p t).noteKey t.ambient).kbd t.ambient.datasrc
          ((kbtoa s.d.k.kbd.keyState t.ambient.datasrc).1.setWidth 8) →
        Chain s.d.k.link s.d.k.blockedQ l → l.length < t.ambient.fuel →
        ∃ s', turn s.d t = .ok s' ∧ (s'.k.proctab q).state = .ready := by
  have hinv : readings.Inductive LeavesReader Attended :=
    ⟨fun _ h₀ => .of_init h₀, fun _ _ _ hs hc ht => hs.turn hc ht⟩
  have hs := hinv.holds h
  obtain ⟨hreg, hbuf⟩ := hs.registered q hq
  refine ⟨hreg, fun t l hreq hctl hkey hl hf => ?_⟩
  have hqp : q ≠ s.d.p := by
    rintro rfl
    have hrun := hs.running
    rw [hq.1] at hrun
    cases hrun
  have hg := contextswitch_good hs.good hs.used t
  have hun := Unmoved.contextswitch s.d.k s.d.p t
  have hl₁ : Chain (contextswitch s.d.k s.d.p t).link (contextswitch s.d.k s.d.p t).blockedQ l :=
    hl.congr fun r _ => hun.next r
  have hst : ((contextswitch s.d.k s.d.p t).proctab q).state = .blocked := by
    rw [contextswitch_state]
    exact hq.1
  obtain ⟨k₁, h₁, hready⟩ := sysKeyboard_wakes hg hl₁ hf
    (congrArg Registration.reader hreg) hst
    (fun h0 => hbuf ((congrArg Registration.buffer hreg).symm.trans h0)) hctl hkey
  refine ⟨loopTop k₁ s.d.p, ?_, ?_⟩
  · unfold turn
    rw [hreq]
    simp only [serve, h₁, bind, Except.bind, pure, Except.pure]
  · have hq₁ := sysKeyboard_quiet (X := nobody) hg h₁
    have hu₁ := hq₁.used (contextswitch_used (p := s.d.p) hs.used t)
    rw [loopTop_proctab hu₁, if_neg hqp]
    exact hready

/-! ## A reader that is displaced -/

/-- The sample machine: its root process makes a process, opens the keyboard and reads. The
other process then opens the keyboard too. -/
def displaced₀ : Reading := { d := sampleBoot, asked := fun _ => (0, 0) }

@[inherit_doc displaced₀]
def displaced₁ : Reading := (displaced₀.turn (sampleCall .create [0x1400, 0])).getD displaced₀

@[inherit_doc displaced₀]
def displaced₂ : Reading := (displaced₁.turn (sampleCall .openDev [0])).getD displaced₁

@[inherit_doc displaced₀]
def displaced₃ : Reading := (displaced₂.turn (sampleCall .read [0, 0x60100, 10])).getD displaced₂

@[inherit_doc displaced₀]
def displaced₄ : Reading := (displaced₃.turn (sampleCallAt 0x61000 .openDev [0])).getD displaced₃

/-- Up to the second open the run leaves the reader alone. -/
theorem displaced₃_reachable : readings.ReachableUnder LeavesReader displaced₃ := by
  have hfree : (∀ q, ¬ BlockedRead displaced₁.d.k q) ∧ (∀ q, ¬ BlockedRead displaced₂.d.k q) ∧
      (readArgs (contextswitch displaced₂.d.k displaced₂.d.p
        (sampleCall .read [0, 0x60100, 10])) displaced₂.d.p).1 ≠ 0 := by
    refine ⟨?_, ?_, ?_⟩ <;> decide +kernel
  have h₀ : readings.ReachableUnder LeavesReader displaced₀ :=
    ⟨displaced₀, sampleBoot_init, .refl⟩
  have h₁ : readings.ReachableUnder LeavesReader displaced₁ :=
    h₀.tail (.of_other (by decide) (by decide) (by decide))
    (Run.eq_getD (s := displaced₀) (by decide +kernel) :
      displaced₀.turn (sampleCall .create [0x1400, 0]) = .ok displaced₁)
  have h₂ : readings.ReachableUnder LeavesReader displaced₂ :=
    h₁.tail (.of_open rfl hfree.1)
      (Run.eq_getD (s := displaced₁) (by decide +kernel) :
        displaced₁.turn (sampleCall .openDev [0]) = .ok displaced₂)
  exact h₂.tail (.of_read rfl hfree.2.1 hfree.2.2)
    (Run.eq_getD (s := displaced₂) (by decide +kernel) :
      displaced₂.turn (sampleCall .read [0, 0x60100, 10]) = .ok displaced₃)

/-- The root process is blocked and registered, and the line terminator wakes it. -/
theorem no_orphaned_reader_of_root : BlockedRead displaced₃.d.k 1 ∧
    displaced₃.d.k.registration = ⟨some 1, (displaced₃.asked 1).1, (displaced₃.asked 1).2⟩ ∧
    ∃ s', turn displaced₃.d (sampleTyping 0x1c) = .ok s' ∧ (s'.k.proctab 1).state = .ready := by
  have hfacts : BlockedRead displaced₃.d.k 1 ∧
      readCompletes ((contextswitch displaced₃.d.k displaced₃.d.p (sampleTyping 0x1c)).noteKey
        (sampleTyping 0x1c).ambient).kbd (sampleTyping 0x1c).ambient.datasrc
        ((kbtoa displaced₃.d.k.kbd.keyState (sampleTyping 0x1c).ambient.datasrc).1.setWidth 8) ∧
      displaced₃.d.k.blockedQ = some 1 ∧ displaced₃.d.k.link 1 = none := by decide +kernel
  obtain ⟨hq, hkey, hhead, hlast⟩ := hfacts
  obtain ⟨hreg, hwakes⟩ := no_orphaned_reader displaced₃_reachable hq
  refine ⟨hq, hreg, hwakes (sampleTyping 0x1c) [1] (by decide) (by decide) hkey ⟨hhead, hlast⟩ ?_⟩
  decide

/-- The second open puts the other process in its place. -/
theorem reader_displaced : ¬ ∀ s q, readings.Reachable s → BlockedRead s.d.k q →
    s.d.k.registration = ⟨some q, (s.asked q).1, (s.asked q).2⟩ := by
  intro h
  have hreach : readings.Reachable displaced₄ := displaced₃_reachable.reachable.tail trivial
    (Run.eq_getD (s := displaced₃) (by decide +kernel) :
      displaced₃.turn (sampleCallAt 0x61000 .openDev [0]) = .ok displaced₄)
  have hq : BlockedRead displaced₄.d.k 1 ∧ displaced₄.d.k.kbd.reader = some 3 := by
    refine ⟨?_, ?_⟩ <;> decide +kernel
  have hreader := congrArg Registration.reader (h displaced₄ 1 hreach hq.1)
  rw [Kernel.registration_reader, hq.2] at hreader
  exact absurd hreader (by decide)

/-! ## A finished read is forgotten -/

/-- Processes are moved safely, and while a read is registered nobody opens a device and no
send or receive frees the reader. -/
structure SparesReader (s : Reading) (t : Trap) : Prop where
  moves : StepMovesSafely s.d t
  opens : t.cause.request = .openDev → opensDevice (contextswitch s.d.k s.d.p t) s.d.p →
    s.d.k.kbd.applbuffer = 0
  peer : t.cause.request = .send ∨ t.cause.request = .recv → s.d.k.kbd.applbuffer ≠ 0 →
    ∀ r, s.d.k.kbd.reader = some r →
      ¬ Frees (contextswitch s.d.k s.d.p t) s.d.p t.ambient r t.cause.request

/-- If a buffer is registered, it is that of a process that is blocked in its read. -/
structure Current (s : Reading) : Prop extends Sane s.d where
  queues : ∃ L, Queues s.d.k none L
  current : s.d.k.kbd.applbuffer ≠ 0 → ∃ r, BlockedRead s.d.k r ∧
    s.d.k.registration = ⟨some r, (s.asked r).1, (s.asked r).2⟩

theorem Current.of_init (h : readings.init s) : Current s where
  toSane := sane_of_init h
  queues := ⟨_, (booted_of_init h).queues⟩
  current hb := absurd (booted_of_init h).applbuffer hb

/-- A request of the running process that spares the reader does not free it. -/
theorem SparesReader.not_frees (hc : SparesReader s t) (hbuf : s.d.k.kbd.applbuffer ≠ 0)
    (hreader : s.d.k.kbd.reader = some r) (hne : r ≠ s.d.p) (hr : BlockedRead s.d.k r)
    (hkey : t.cause.request ≠ .keyboard) :
    ¬ Frees (contextswitch s.d.k s.d.p t) s.d.p t.ambient r t.cause.request := by
  intro hf
  cases hreq : t.cause.request with
  | send => exact hc.peer (.inl hreq) hbuf r hreader hf
  | recv => exact hc.peer (.inr hreq) hbuf r hreader hf
  | keyboard => exact hkey hreq
  | stop =>
      rw [hreq] at hf
      have hm : (s.d.k.proctab r).ret = Request.send.code ∨
          (s.d.k.proctab r).ret = Request.recv.code := by
        have hm' : Messaging (contextswitch s.d.k s.d.p t) r := hf
        unfold Messaging at hm'
        rwa [contextswitch_proctab, if_neg hne] at hm'
      rw [hr.2] at hm
      exact absurd hm (by decide)
  | _ =>
      rw [hreq] at hf
      exact hf

theorem Current.turn (hs : Current s) (hc : SparesReader s t) (h : s.turn t = .ok s') :
    Current s' := by
  obtain ⟨k₂, ht⟩ := Reading.turn_cases hs.toSane h
  obtain ⟨L, hq⟩ := hs.queues
  refine ⟨ht.sane hs.toSane, hq.turn hs.toSound hc.moves ht.turn, fun hbuf' => ?_⟩
  have hg := contextswitch_good hs.good hs.used t
  have hu := contextswitch_used (p := s.d.p) hs.used t
  have hrun : ((contextswitch s.d.k s.d.p t).proctab s.d.p).state = .running := by
    rw [contextswitch_state]
    exact hs.running
  obtain ⟨L', hL'⟩ := (hq.unmoved (.contextswitch s.d.k s.d.p t)).serve hg hu hrun hc.moves ht.serve
  -- members of `blocked_q` after the request stay blocked up to the end of the turn
  have hblocked : ∀ r ∈ L' .blocked, r ≠ s'.d.p ∧ (k₂.proctab r).state = .blocked := by
    intro r hr
    refine ⟨?_, ?_⟩
    · rintro rfl
      exact hL'.out .blocked hr
    · have := hL'.queues.placed .blocked r hr
      revert this
      cases (k₂.proctab r).state <;> simp [PState.queue]
  have hbuf₂ : k₂.registration.buffer ≠ 0 := by
    rw [← ht.registration]
    exact hbuf'
  rw [ht.registration]
  cases ht.registers with
  | kept hk hread hkey =>
      rw [hk.registration] at hbuf₂ ⊢
      obtain ⟨r, hr, hreg⟩ := hs.current hbuf₂
      have hreader : s.d.k.kbd.reader = some r := congrArg Registration.reader hreg
      have hrp : r ≠ s.d.p := by
        rintro rfl
        have hrun' := hs.running
        rw [hr.1] at hrun'
        cases hrun'
      have hst₂ : r ≠ s'.d.p ∧ (k₂.proctab r).state = .blocked := by
        by_cases hreq : t.cause.request = .keyboard
        · have hst : (k₂.proctab r).state = .blocked := by
            rw [hkey hreq, contextswitch_state]
            exact hr.1
          refine ⟨fun he => hL'.out .blocked ?_, hst⟩
          rw [← he]
          exact hL'.queues.found r .blocked (by simp) (by rw [hst]; rfl) (by decide) fun he => by cases he
        · refine hblocked r (hL'.keeps r ?_ (hc.not_frees hbuf₂ hreader hrp hr hreq))
          exact hq.found r .blocked (by simp) (by rw [hr.1]; rfl) (by decide) fun he => by cases he
      obtain ⟨hne, hst⟩ := hst₂
      refine ⟨r, ?_, ?_⟩
      · obtain ⟨-, hret⟩ := (ht.served.waiting hne (.inl hst)).2 hrp
        rw [contextswitch_proctab, if_neg hrp] at hret
        unfold BlockedRead
        rw [ht.proctab hne]
        exact ⟨hst, hret.trans hr.2⟩
      · rw [ht.asked_ne hrp]
        exact hreg
  | opened hreq ho hr _ =>
      rw [hr] at hbuf₂
      exact absurd (hc.opens hreq ho) hbuf₂
  | closed _ _ hr _ =>
      rw [hr] at hbuf₂
      exact absurd rfl hbuf₂
  | read hreq _ _ hrc hr _ =>
      obtain ⟨hne, hst⟩ := hblocked s.d.p (hL'.joins hreq hrc)
      refine ⟨s.d.p, ?_, ?_⟩
      · have hret : (k₂.proctab s.d.p).ret = Request.read.code :=
          hreq ▸ ret_of_blocked hg hu ht.serve hne hst
        unfold BlockedRead
        rw [ht.proctab hne]
        exact ⟨hst, hret⟩
      · rw [ht.asked, if_pos ⟨hreq, rfl⟩]
        exact hr
  | woken _ r hw =>
      rw [hw.registration] at hbuf₂
      exact absurd rfl hbuf₂

/-- A key that meets no registered buffer is stored in the buffer of the driver or dropped. -/
theorem sysKeyboard_frame (hbuf : k.kbd.applbuffer = 0) (h : sysKeyboard k a = .ok k') {x : Word}
    (hx : x ≠ k.kbdAddr k.kbd.kbdbufidx) : k'.mem x = k.mem x := by
  unfold sysKeyboard at h
  split at h
  · unfold processKey handleKey at h
    dsimp only at h
    split at h
    · simp only [pure, Except.pure, Except.ok.injEq] at h
      rw [← h]
      rfl
    split at h
    · simp only [pure, Except.pure, Except.ok.injEq] at h
      rw [← h]
      exact Bytes.putByte_ne hx
    · rename_i h₁ h₂
      exact absurd hbuf (Kbd.applbuffer_ne h₁ h₂)
  · simp only [pure, Except.pure, Except.ok.injEq] at h
    rw [← h]

/-- In every run whose steps spare the reader, a registered buffer is that of a process
blocked in the read that named it. A key wakes no other process, and while no process is
blocked in a read it writes to the buffer of the driver only. -/
theorem finished_read_forgotten (h : readings.ReachableUnder SparesReader s) :
    (s.d.k.kbd.applbuffer ≠ 0 → ∃ r, BlockedRead s.d.k r ∧
      s.d.k.registration = ⟨some r, (s.asked r).1, (s.asked r).2⟩) ∧
    ∀ (t : Trap) (k' : Kernel),
      sysKeyboard (contextswitch s.d.k s.d.p t) t.ambient = .ok k' →
      (∀ q, (k'.proctab q).state ≠ (s.d.k.proctab q).state → BlockedRead s.d.k q) ∧
      ((∀ q, ¬ BlockedRead s.d.k q) → ∀ x, x ≠ s.d.k.kbdAddr s.d.k.kbd.kbdbufidx →
        k'.mem x = (contextswitch s.d.k s.d.p t).mem x) := by
  have hinv : readings.Inductive SparesReader Current :=
    ⟨fun _ h₀ => .of_init h₀, fun _ _ _ hs hc ht => hs.turn hc ht⟩
  have hs := hinv.holds h
  refine ⟨hs.current, fun t k' hk => ⟨fun q hq => ?_, fun hnone x hx => ?_⟩⟩
  · have hg := contextswitch_good hs.good hs.used t
    rw [← contextswitch_state s.d.k s.d.p q t] at hq
    rcases sysKeyboard_cases hg hk with hkeep | ⟨r, hw⟩
    · rw [hkeep.proctab] at hq
      exact absurd rfl hq
    · have hqr : q = r := by
        by_contra hne
        exact hq (hw.other q hne).1
      obtain ⟨r', hr', hreg⟩ := hs.current hw.buffer
      have hrr : some r = some r' := hw.reader.symm.trans (congrArg Registration.reader hreg)
      rw [hqr, Option.some.inj hrr]
      exact hr'
  · have hbuf : s.d.k.kbd.applbuffer = 0 := by
      by_contra hne
      obtain ⟨r, hr, -⟩ := hs.current hne
      exact hnone r hr
    exact sysKeyboard_frame (k := contextswitch s.d.k s.d.p t) hbuf hk hx

/-! ## A read that is not forgotten -/

/-- Creations, requests that touch nobody else and opens while no buffer is registered spare
the reader. -/
theorem SparesReader.of_request (hi : s.d.p ≠ slotOf s.d.k.idleprocPid)
    (h : (t.cause.request = .create ∧ s.d.k.deadQ = none) ∨ t.cause.request = .sighandler ∨
      t.cause.request = .read ∨ (t.cause.request = .openDev ∧ s.d.k.kbd.applbuffer = 0)) :
    SparesReader s t := by
  have hmoves : StepMovesSafely s.d t := by
    unfold StepMovesSafely
    rcases h with ⟨h, hd⟩ | h | h | ⟨h, -⟩
    · rw [h]
      exact .of_create hi hd
    · exact .of_alone hi (by simp [h])
    · exact .of_alone hi (by simp [h])
    · exact .of_alone hi (by simp [h])
  refine ⟨hmoves, fun h' _ => ?_, fun h' => ?_⟩
  · rcases h with ⟨h, -⟩ | h | h | ⟨-, hb⟩
    · exact absurd (h.symm.trans h') (by decide)
    · exact absurd (h.symm.trans h') (by decide)
    · exact absurd (h.symm.trans h') (by decide)
    · exact hb
  · rcases h with ⟨h, -⟩ | h | h | ⟨h, -⟩ <;> rw [h] at h' <;> exact absurd h' (by decide)

/-- The sample machine: its root process makes a process, installs a handler, opens the
keyboard and reads. The other process then posts it a signal. -/
def recalled₁ : Reading :=
  (displaced₁.turn (sampleCall .sighandler [5, 0x1500, 0x61000])).getD displaced₁

@[inherit_doc recalled₁]
def recalled₂ : Reading := (recalled₁.turn (sampleCall .openDev [0])).getD recalled₁

@[inherit_doc recalled₁]
def recalled₃ : Reading := (recalled₂.turn (sampleCall .read [0, 0x60100, 10])).getD recalled₂

@[inherit_doc recalled₁]
def recalled₄ : Reading := (recalled₃.turn (sampleCallAt 0x61000 .sigkill [1, 5])).getD recalled₃

/-- Up to the signal the run spares the reader. -/
theorem recalled₃_reachable : readings.ReachableUnder SparesReader recalled₃ := by
  have hfacts : (displaced₀.d.p ≠ slotOf displaced₀.d.k.idleprocPid ∧
      displaced₀.d.k.deadQ = none) ∧
      displaced₁.d.p ≠ slotOf displaced₁.d.k.idleprocPid ∧
      (recalled₁.d.p ≠ slotOf recalled₁.d.k.idleprocPid ∧ recalled₁.d.k.kbd.applbuffer = 0) ∧
      recalled₂.d.p ≠ slotOf recalled₂.d.k.idleprocPid := by
    refine ⟨⟨?_, ?_⟩, ?_, ⟨?_, ?_⟩, ?_⟩ <;> decide +kernel
  obtain ⟨h₁, h₂, h₃, h₄⟩ := hfacts
  have r₀ : readings.ReachableUnder SparesReader displaced₀ :=
    ⟨displaced₀, sampleBoot_init, .refl⟩
  have r₁ : readings.ReachableUnder SparesReader displaced₁ :=
    r₀.tail (.of_request h₁.1 (.inl ⟨rfl, h₁.2⟩))
    (Run.eq_getD (s := displaced₀) (by decide +kernel) :
      displaced₀.turn (sampleCall .create [0x1400, 0]) = .ok displaced₁)
  have r₂ : readings.ReachableUnder SparesReader recalled₁ :=
    r₁.tail (.of_request h₂ (.inr (.inl rfl)))
    (Run.eq_getD (s := displaced₁) (by decide +kernel) :
      displaced₁.turn (sampleCall .sighandler [5, 0x1500, 0x61000]) = .ok recalled₁)
  have r₃ : readings.ReachableUnder SparesReader recalled₂ :=
    r₂.tail (.of_request h₃.1 (.inr (.inr (.inr ⟨rfl, h₃.2⟩))))
    (Run.eq_getD (s := recalled₁) (by decide +kernel) :
      recalled₁.turn (sampleCall .openDev [0]) = .ok recalled₂)
  exact r₃.tail (.of_request h₄ (.inr (.inr (.inl rfl))))
    (Run.eq_getD (s := recalled₂) (by decide +kernel) :
      recalled₂.turn (sampleCall .read [0, 0x60100, 10]) = .ok recalled₃)

/-- The registered buffer is that of the root process, which is blocked in its read. -/
theorem finished_read_forgotten_of_root : recalled₃.d.k.kbd.applbuffer = 0x60100 ∧
    ∃ r, BlockedRead recalled₃.d.k r ∧
      recalled₃.d.k.registration = ⟨some r, (recalled₃.asked r).1, (recalled₃.asked r).2⟩ := by
  have hbuf : recalled₃.d.k.kbd.applbuffer = 0x60100 := by decide +kernel
  exact ⟨hbuf, (finished_read_forgotten recalled₃_reachable).1 (by rw [hbuf]; decide)⟩

/-- The signal ends the read, and the buffer stays registered. -/
theorem read_not_forgotten : ¬ ∀ s, readings.Reachable s → s.d.k.kbd.applbuffer ≠ 0 →
    ∃ r, BlockedRead s.d.k r ∧ s.d.k.kbd.reader = some r := by
  intro h
  have hreach : readings.Reachable recalled₄ := recalled₃_reachable.reachable.tail trivial
    (Run.eq_getD (s := recalled₃) (by decide +kernel) :
      recalled₃.turn (sampleCallAt 0x61000 .sigkill [1, 5]) = .ok recalled₄)
  have hfacts : recalled₄.d.k.kbd.applbuffer ≠ 0 ∧ recalled₄.d.k.kbd.reader = some 1 ∧
      (recalled₄.d.k.proctab 1).state = .ready := by
    refine ⟨?_, ?_, ?_⟩ <;> decide +kernel
  obtain ⟨hbuf, hreader, hst⟩ := hfacts
  obtain ⟨r, hr, hr'⟩ := h recalled₄ hreach hbuf
  obtain rfl : 1 = r := Option.some.inj (hreader.symm.trans hr')
  have hb := hr.1
  rw [hst] at hb
  cases hb

end Xeros
