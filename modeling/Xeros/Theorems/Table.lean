import Xeros.Logic.Parts
import Xeros.Logic.Nested

/-!
# The handler table

A handler stays in its entry until the process installs another one, whatever is called in
between, and the frame of a delivery holds it. Entry 31 is the exception: it is the major
number of descriptor 0, which installing a handler for 31 overwrites and opening a device
replaces.
-/

namespace Xeros

open Lib

variable {k k' k₁ k₂ : Kernel} {c c' : Pcb} {p q r : Slot} {s s' : Recorded} {t : Trap}
  {fp : Word} {fuel n : ℕ}

/-! ## Before the first process runs -/

/-- The handlers and descriptors of all slots are the same. -/
def SameTable (k k' : Kernel) : Prop := SamePart (fun c => (c.sigHandler, c.fd)) k k'

namespace SameTable

theorem inherited : Pcb.Inherited fun c : Pcb => (c.sigHandler, c.fd) where
  next _ _ := rfl
  state _ _ := rfl
  esp _ _ := rfl
  pid _ _ := rfl
  sigPriority _ _ := rfl

theorem handler (h : SameTable k k') (q : Slot) (n : Int) :
    (k'.proctab q).handler n = (k.proctab q).handler n := by
  obtain ⟨hh, hd⟩ := Prod.mk.inj (h q)
  unfold Pcb.handler
  rw [hh, hd]

end SameTable

/-- No handler is stored when the first process starts. -/
theorem handler_of_init {d : Disp} (h : dispatcher.init d) (q : Slot) (n : Int) :
    (d.k.proctab q).handler n = 0 := by
  obtain ⟨img, hboot⟩ := h
  have hsame : SameTable (dispatchinit img) d.k := SamePart.boot SameTable.inherited hboot
  rw [hsame.handler]
  unfold Pcb.handler
  dsimp only
  split
  · rfl
  · rfl

/-! ## What an installation and a delivery do -/

/-- The turn is a `SYS_SIGHANDLER` of `q` that stores `fp` for `n`. -/
structure Installs (q : Slot) (n : ℕ) (fp : Word) (s : Recorded) (t : Trap) : Prop where
  caller : s.d.p = q
  request : t.cause.request = .sighandler
  signum : ((contextswitch s.d.k q t).arg q 0).toInt = n
  handler : (contextswitch s.d.k q t).arg q 1 = fp

/-- The turn ends with a frame for `q`. -/
def Delivers (q : Slot) (f : SigFrame) (s : Recorded) (t : Trap) : Prop :=
  ∃ k₂, serve (contextswitch s.d.k s.d.p t) s.d.p t.ambient t.cause.request = .ok (k₂, q) ∧
    deliverable ((run k₂ q).proctab q) ∧ f = frameOf (run k₂ q) q

/-- The handler that `sigtramp` finds in the frame. -/
def SigFrame.storedHandler (f : SigFrame) : Word := f.mem.word (f.ssf + 48)

/-- From `c` to `c'`, the entry of `n` becomes `fp`, the bit of `n` follows it, `ret` is
`SIGHDLR_OK`, and the rest of the pcb is unchanged. -/
structure OnlyInstalls (n : ℕ) (fp : Word) (c c' : Pcb) : Prop where
  entry : c'.handler n = fp
  entries : ∀ m : ℕ, m < 32 → m ≠ n → c'.handler m = c.handler m
  bit : n ∈ bits c'.sigAllow ↔ fp ≠ 0
  otherBits : ∀ m, m ≠ n → (m ∈ bits c'.sigAllow ↔ m ∈ bits c.sigAllow)
  ret : c'.ret = toWord sighdlrOk
  fd : c'.fd = c.fd
  rest : (c'.esp, c'.next, c'.state, c'.pid, c'.args, c'.sleepticks, c'.sigPending,
      c'.sigPriority, c'.sigwaiter)
    = (c.esp, c.next, c.state, c.pid, c.args, c.sleepticks, c.sigPending, c.sigPriority,
      c.sigwaiter)

/-- The frame holds the entry of its signal. -/
theorem frameOf_handler (k : Kernel) (p : Slot) (hd : deliverable (k.proctab p)) :
    (frameOf k p).storedHandler = (k.proctab p).handler (frameOf k p).signum := by
  have hnum : ((getNextSignal (k.proctab p).sigPending).toNat : Int)
      = getNextSignal (k.proctab p).sigPending := by
    obtain ⟨i, hi⟩ := deliverable_iff.mp hd
    simp only [Pcb.due, Finset.mem_inter] at hi
    obtain ⟨m, hm⟩ := exists_greatest ⟨i, hi.1.1⟩
    rw [getNextSignal_eq hm, Int.toNat_natCast]
  have hoff : ∀ (a c d : Word), 4 ≤ (c - d).toNat → (c - d).toNat ≤ 0xfffffffc →
      4 ≤ ((a + c) - (a + d)).toNat ∧ ((a + c) - (a + d)).toNat ≤ 0xfffffffc := by
    intro a c d h₁ h₂
    rw [show a + c - (a + d) = c - d by bv_omega]
    exact ⟨h₁, h₂⟩
  have h₁ := hoff ((k.proctab p).esp - sigtrampFrameSize) 48 52 (by decide) (by decide)
  have h₂ := hoff ((k.proctab p).esp - sigtrampFrameSize) 48 56 (by decide) (by decide)
  have h₃ := hoff ((k.proctab p).esp - sigtrampFrameSize) 48 60 (by decide) (by decide)
  have h₄ := hoff ((k.proctab p).esp - sigtrampFrameSize) 48 64 (by decide) (by decide)
  rw [frameOf_signum, hnum]
  simp only [SigFrame.storedHandler, SigFrame.ssf, frameOf, modifyProcessStack,
    Kernel.upd_mem, Kernel.setMem_mem, setupFrame]
  rw [Bytes.word_putWord_ne h₄.1 h₄.2, Bytes.word_putWord_ne h₃.1 h₃.2,
    Bytes.word_putWord_ne h₂.1 h₂.2, Bytes.word_putWord_ne h₁.1 h₁.2, Bytes.word_putWord]

/-- A turn of `q` that installs. -/
theorem Installs.serve {p' : Slot} (hi : Installs q n fp s t) (hn : n < 32)
    (h : serve (contextswitch s.d.k s.d.p t) s.d.p t.ambient t.cause.request = .ok (k₂, p')) :
    k₂.proctab q = { ((contextswitch s.d.k q t).proctab q).install n fp with
      ret := toWord sighdlrOk } := by
  obtain ⟨hp, hreq, hsig, hfp⟩ := hi
  have hmax : maxSignal = 31 := rfl
  have hin : ¬ (((contextswitch s.d.k q t).arg q 0).toInt < 0 ∨
      ((contextswitch s.d.k q t).arg q 0).toInt > maxSignal) := by
    omega
  rw [hp, hreq] at h
  simp only [Xeros.serve, sysSighandler, if_neg hin, pure, Except.pure, Except.ok.injEq,
    Prod.mk.injEq] at h
  rw [← h.1, hsig, hfp, Kernel.setRet, Kernel.upd_proctab_self, Kernel.upd_proctab_self]
  rfl

/-- An installation changes the entry, its bit and `ret` only, for signal 31 if and only if the
entry, which is the major number of descriptor 0, has the value already. -/
theorem Pcb.install_only_iff (c : Pcb) (hn : n < 32) :
    OnlyInstalls n fp c { c.install n fp with ret := toWord sighdlrOk } ↔
      (n = 31 → fp = (c.fd 0).major) := by
  have hfd : (c.install n fp).fd = (c.setHandler n fp).fd := by
    unfold install
    dsimp only
    split
    · rfl
    · rfl
  refine ⟨fun h hn31 => ?_, fun h31 => ?_⟩
  · -- the entry of 31 lies behind the table, on the major number
    subst hn31
    have hmajor : ((c.install (31 : ℕ) fp).fd 0).major = fp := by
      rw [hfd]
      rfl
    rw [← hmajor]
    exact congrArg (fun d => (d 0).major) h.fd
  have hset : (c.setHandler n fp).fd = c.fd := by
    unfold setHandler
    dsimp only
    split
    · rfl
    · rename_i h
      have hmajor : fp = (c.fd 0).major := h31 (by omega)
      funext i
      dsimp only
      split
      · rename_i hi
        rw [hi, hmajor]
      · rfl
  refine ⟨?_, fun m hm hne => ?_, ?_, fun m hne => ?_, rfl, ?_, ?_⟩
  · have h := c.install_handler hn hn fp
    rw [if_pos rfl] at h
    exact h
  · have h := c.install_handler hm hn fp
    rw [if_neg hne] at h
    exact h
  · have h := c.mem_install_allow (m := n) hn fp
    rw [if_pos rfl] at h
    exact h
  · have h := c.mem_install_allow (m := m) hn fp
    rw [if_neg hne] at h
    exact h
  · exact hfd.trans hset
  · unfold install setHandler
    dsimp only
    split
    · split
      · rfl
      · rfl
    · split
      · rfl
      · rfl

/-! ## Runs -/

/-- A turn of `q` leaves the entry of 31 alone: what is stored for 31, and the number of the
device that is opened on descriptor 0, are what is there. -/
def KeepsEntry (q : Slot) (n : ℕ) (s : Recorded) (t : Trap) : Prop :=
  n = 31 → s.d.p = q →
    (t.cause.request = .sighandler → ((contextswitch s.d.k q t).arg q 0).toInt = 31 →
      (contextswitch s.d.k q t).arg q 1 = ((s.d.k.proctab q).fd 0).major) ∧
    (t.cause.request = .openDev → ((s.d.k.proctab q).fd 0).status ≠ .opened →
      ((contextswitch s.d.k q t).arg q 0).toInt ≤ maxDevice →
      (contextswitch s.d.k q t).arg q 0 = ((s.d.k.proctab q).fd 0).major)

/-- A run, given by its last turn, in which `fp` is the handler that `q` has installed last
for `n`. -/
inductive LastInstalled (C : Recorded → Trap → Prop) (q : Slot) (n : ℕ) (fp : Word) :
    Recorded → Trap → Recorded → Prop
  | now {s : Recorded} {t : Trap} {s' : Recorded} (hr : recorder.ReachableUnder C s) (hc : C s t)
      (hi : Installs q n fp s t) (ht : s.turn t = .ok s') : LastInstalled C q n fp s t s'
  | later {s₀ : Recorded} {t₀ : Trap} {s : Recorded} {t : Trap} {s' : Recorded}
      (h : LastInstalled C q n fp s₀ t₀ s) (hc : C s t) (hno : ∀ w, ¬ Installs q n w s t)
      (ht : s.turn t = .ok s') : LastInstalled C q n fp s t s'

/-- In the runs whose turns meet `C`, the bit of `n` tells whether its entry is null, installing
a handler for it changes nothing else, and the entry is the handler installed last, which is
what a frame for `n` holds. -/
structure TableIntact (C : Recorded → Trap → Prop) (q : Slot) (n : ℕ) : Prop where
  allowed : ∀ s, recorder.ReachableUnder C s →
    (n ∈ bits (s.d.k.proctab q).sigAllow ↔ (s.d.k.proctab q).handler n ≠ 0)
  installs : ∀ s t fp k₂ p', recorder.ReachableUnder C s → C s t → Installs q n fp s t →
    serve (contextswitch s.d.k s.d.p t) s.d.p t.ambient t.cause.request = .ok (k₂, p') →
    OnlyInstalls n fp ((contextswitch s.d.k q t).proctab q) (k₂.proctab q)
  entry : ∀ s t s' fp, LastInstalled C q n fp s t s' → (s'.d.k.proctab q).handler n = fp
  delivered : ∀ s t s' fp f, LastInstalled C q n fp s t s' → Delivers q f s t →
    f.signum = n → f.storedHandler = fp

variable {C : Recorded → Trap → Prop} {s₀ : Recorded} {t₀ : Trap}

theorem LastInstalled.reachable (h : LastInstalled C q n fp s t s') :
    recorder.ReachableUnder C s' := by
  induction h with
  | now hr hc _ ht => exact hr.tail hc ht
  | later _ hc _ ht ih => exact ih.tail hc ht

theorem LastInstalled.turn (h : LastInstalled C q n fp s t s') : s.turn t = .ok s' := by
  cases h with
  | now _ _ _ ht => exact ht
  | later _ _ _ ht => exact ht

/-- The descriptors of a process do not change when it enters the kernel. -/
theorem contextswitch_fd (k : Kernel) (q : Slot) (t : Trap) :
    ((contextswitch k q t).proctab q).fd = (k.proctab q).fd := by
  rw [contextswitch_proctab, if_pos rfl]
  cases t.cause <;> rfl

/-- Opening a device leaves the entry of `n` alone. -/
theorem opened_handler (hn : n < 32) (hc : KeepsEntry q n s t) (hq : s.d.p = q)
    (hreq : t.cause.request = .openDev) {p' : Slot}
    (hs : serve (contextswitch s.d.k q t) q t.ambient t.cause.request = .ok (k₂, p'))
    (hfd : (((contextswitch s.d.k q t).proctab q).fd 0).status ≠ .opened)
    (hsig : (((contextswitch s.d.k q t).proctab q).openFirst
      ((contextswitch s.d.k q t).arg q 0)).SameSig (k₂.proctab q)) :
    (k₂.proctab q).handler n = ((contextswitch s.d.k q t).proctab q).handler n := by
  by_cases hn31 : n < 31
  · rw [hsig.handler]
    unfold Pcb.handler
    simp [hn31, Pcb.openFirst, Pcb.setFd]
  · have h31 : n = 31 := by omega
    by_cases hdev : ((contextswitch s.d.k q t).arg q 0).toInt ≤ maxDevice
    · have hmajor := (hc h31 hq).2 hreq (contextswitch_fd s.d.k q t ▸ hfd) hdev
      rw [hsig.handler]
      subst h31
      show (contextswitch s.d.k q t).arg q 0
        = (((contextswitch s.d.k q t).proctab q).fd 0).major
      rw [contextswitch_fd, hmajor]
    · -- the call fails at once
      rw [hreq] at hs
      simp only [serve, diOpen, if_neg hdev, pure, Except.pure, Except.ok.injEq,
        Prod.mk.injEq] at hs
      rw [← hs.1]
      simp [Kernel.setRet]
      rfl

/-- A turn of `q` that installs for `n` sets its entry and its bit; every other turn leaves both
as they are. -/
theorem Turn.table {h₂ : History} (hn : n < 32) (ht : Turn s t k₂ h₂ s') (hc : KeepsEntry q n s t) :
    (∃ fp, Installs q n fp s t ∧ (k₂.proctab q).handler n = fp ∧
      (n ∈ bits (k₂.proctab q).sigAllow ↔ fp ≠ 0)) ∨
    ((∀ w, ¬ Installs q n w s t) ∧ (k₂.proctab q).handler n = (s.d.k.proctab q).handler n ∧
      (n ∈ bits (k₂.proctab q).sigAllow ↔ n ∈ bits (s.d.k.proctab q).sigAllow)) := by
  by_cases hex : ∃ fp, Installs q n fp s t
  · obtain ⟨fp, hi⟩ := hex
    refine .inl ⟨fp, hi, ?_⟩
    rw [hi.serve hn ht.serve]
    have hh := ((contextswitch s.d.k q t).proctab q).install_handler hn hn fp
    have hb := ((contextswitch s.d.k q t).proctab q).mem_install_allow (m := n) hn fp
    rw [if_pos rfl] at hh hb
    exact ⟨hh, hb⟩
  · have hno : ∀ w, ¬ Installs q n w s t := fun w hw => hex ⟨w, hw⟩
    refine .inr ⟨hno, ?_⟩
    have hin := contextswitch_sig s.d.k s.d.p q t
    have hkept : ∀ {c : Pcb}, (c.handler n = ((contextswitch s.d.k s.d.p t).proctab q).handler n ∧
        (n ∈ bits c.sigAllow ↔ n ∈ bits ((contextswitch s.d.k s.d.p t).proctab q).sigAllow)) →
        c.SameSig (k₂.proctab q) →
        (k₂.proctab q).handler n = (s.d.k.proctab q).handler n ∧
          (n ∈ bits (k₂.proctab q).sigAllow ↔ n ∈ bits (s.d.k.proctab q).sigAllow) := by
      rintro c ⟨hh, hb⟩ hsame
      rw [hsame.handler, hsame.sigAllow, hh, hb, hin.handler, hin.sigAllow]
      exact ⟨rfl, Iff.rfl⟩
    cases ht.served.sigStep (h := s.h) ht.serve q with
    | same hsame => exact hkept ⟨rfl, Iff.rfl⟩ hsame
    | stopped _ _ hsame => exact hkept ⟨rfl, Iff.rfl⟩ hsame
    | renewed _ _ hsame =>
        exact hkept (c := ((contextswitch s.d.k s.d.p t).proctab q).renew q) ⟨rfl, Iff.rfl⟩ hsame
    | posted _ _ m _ _ hsame =>
        exact hkept (c := ((contextswitch s.d.k s.d.p t).proctab q).pend m) ⟨rfl, Iff.rfl⟩ hsame
    | installed hreq hq fp hfp m hm hsig _ hsame =>
        subst hq
        have hne : n ≠ m := by
          rintro rfl
          exact hno fp ⟨rfl, hreq, hsig, hfp.symm⟩
        refine hkept ⟨?_, ?_⟩ hsame
        · rw [Pcb.install_handler _ hn hm, if_neg hne]
        · rw [Pcb.mem_install_allow _ hm _, if_neg hne]
    | removed hreq hq hfp m hm hsig hsame =>
        subst hq
        have hne : n ≠ m := by
          rintro rfl
          exact hno 0 ⟨rfl, hreq, hsig, hfp⟩
        refine hkept ⟨?_, ?_⟩ hsame
        · rw [Pcb.install_handler _ hn hm, if_neg hne]
        · rw [Pcb.mem_install_allow _ hm _, if_neg hne]
    | returned _ hq hret =>
        subst hq
        obtain ⟨ha, hh⟩ := Pcb.sigreturn_handlers ((contextswitch s.d.k s.d.p t).proctab s.d.p)
          (contextswitch s.d.k s.d.p t).mem t.ambient.sig ((contextswitch s.d.k s.d.p t).arg s.d.p 0)
        rw [hret, hh, ha, hin.handler, hin.sigAllow]
        exact ⟨rfl, Iff.rfl⟩
    | opened hreq hq hfd hsame =>
        subst hq
        refine ⟨?_, ?_⟩
        · rw [opened_handler hn hc rfl hreq ht.serve hfd hsame, hin.handler]
        · rw [hsame.sigAllow, ← hin.sigAllow]
          rfl

/-- The end of a turn leaves the entry and the bit as they are. -/
theorem Turn.table_kept {h₂ : History} (ht : Turn s t k₂ h₂ s') :
    (s'.d.k.proctab q).handler n = (k₂.proctab q).handler n ∧
      (s'.d.k.proctab q).sigAllow = (k₂.proctab q).sigAllow := by
  rcases ht.delivery q with ⟨-, -, hsame, -⟩ | ⟨-, hsame, -⟩
  · exact ⟨hsame.handler n, hsame.sigAllow⟩
  · exact ⟨hsame.handler n, hsame.sigAllow⟩

/-- The bit tells whether the entry is null: a turn either sets both or leaves both alone. -/
theorem allowed_of_reachable (hn : n < 32)
    (h : recorder.ReachableUnder (KeepsEntry q n) s) :
    n ∈ bits (s.d.k.proctab q).sigAllow ↔ (s.d.k.proctab q).handler n ≠ 0 := by
  have hinv : recorder.Inductive (KeepsEntry q n) fun s => Sound s.d ∧
      (n ∈ bits (s.d.k.proctab q).sigAllow ↔ (s.d.k.proctab q).handler n ≠ 0) := by
    constructor
    · rintro s ⟨h₀, -⟩
      have hb := booted_of_init h₀
      refine ⟨hb.sound, ?_⟩
      rw [hb.sigAllow, handler_of_init h₀, bits_zero]
      simp
    · rintro s t s' ⟨hs, hj⟩ hc ht
      obtain ⟨k₂, h₂, hturn⟩ := Recorded.turn_cases hs ht
      refine ⟨hs.turn (Recorded.turn_d ht), ?_⟩
      obtain ⟨hhandler, hallow⟩ := hturn.table_kept (q := q) (n := n)
      rw [hhandler, hallow]
      rcases hturn.table hn hc with ⟨fp, -, hh, hbit⟩ | ⟨-, hh, hbit⟩
      · rw [hh, hbit]
      · rw [hh, hbit, hj]
  exact (hinv.holds h).2

/-- The handler installed last is in the entry: nothing but an installation changes it. -/
theorem LastInstalled.handler (hn : n < 32) (h : LastInstalled (KeepsEntry q n) q n fp s t s') :
    (s'.d.k.proctab q).handler n = fp := by
  induction h with
  | now hr hc hi ht =>
      obtain ⟨k₂, h₂, hturn⟩ := Recorded.turn_cases (Recorded.sound_of_reachable hr.reachable) ht
      rw [hturn.table_kept.1]
      rcases hturn.table hn hc with ⟨w, hw, hh, -⟩ | ⟨hno, -⟩
      · rw [hh, ← hw.handler, hi.handler]
      · exact absurd hi (hno _)
  | later h hc hno ht ih =>
      obtain ⟨k₂, h₂, hturn⟩ :=
        Recorded.turn_cases (Recorded.sound_of_reachable h.reachable.reachable) ht
      rw [hturn.table_kept.1]
      rcases hturn.table hn hc with ⟨w, hw, -⟩ | ⟨-, hh, -⟩
      · exact absurd hw (hno w)
      · rw [hh, ih]

/-- For every process and every signal number that `SYS_SIGHANDLER` accepts, the handler table
is intact in every run that leaves the entry of 31 alone. -/
theorem handler_table_intact (q : Slot) (hn : n < 32) : TableIntact (KeepsEntry q n) q n := by
  refine ⟨fun s hs => allowed_of_reachable hn hs, fun s t fp k₂ p' _ hc hi hserve => ?_,
    fun _ _ _ _ h => h.handler hn, fun s t s' fp f h hd hf => ?_⟩
  · rw [hi.serve hn hserve]
    refine (Pcb.install_only_iff _ hn).mpr fun h31 => ?_
    rw [contextswitch_fd, ← hi.handler]
    subst h31
    exact (hc rfl hi.caller).1 hi.request hi.signum
  · obtain ⟨k₂, hserve, hdel, rfl⟩ := hd
    have hturn := Recorded.turn_d h.turn
    simp only [turn, hserve, bind, Except.bind, pure, Except.pure, Except.ok.injEq] at hturn
    have hrun : SameTable k₂ (run k₂ q) := .run SameTable.inherited.toUnqueued k₂ q
    have hloop : SameTable k₂ s'.d.k := hturn ▸ SamePart.loopTop SameTable.inherited k₂ q
    calc (frameOf (run k₂ q) q).storedHandler
        = ((run k₂ q).proctab q).handler (frameOf (run k₂ q) q).signum := frameOf_handler _ _ hdel
      _ = ((run k₂ q).proctab q).handler n := by rw [hf]
      _ = (s'.d.k.proctab q).handler n := (hrun.handler q n).trans (hloop.handler q n).symm
      _ = fp := h.handler hn

/-- A run of the root process: it installs a handler for a signal and opens the keyboard. -/
def opening₁ (n : Word) : Recorded := sampleStart.after (sampleInstall n)

@[inherit_doc opening₁]
def opening₂ (n : Word) : Recorded := (opening₁ n).after (sampleCall .openDev [1])

/-- The handler is the one installed last at the end of that run. -/
theorem opening₂_last {w : Word} (hok : (sampleStart.turn (sampleInstall w)).isOk = true ∧
      ((opening₁ w).turn (sampleCall .openDev [1])).isOk = true)
    (hi : Installs 1 n 0x2000 sampleStart (sampleInstall w)) (hc : ∀ s t, C s t) :
    LastInstalled C 1 n 0x2000 (opening₁ w) (sampleCall .openDev [1]) (opening₂ w) := by
  have hnow : LastInstalled C 1 n 0x2000 sampleStart (sampleInstall w) (opening₁ w) :=
    .now sampleStart_reachable (hc _ _) hi (Run.eq_getD (s := sampleStart) hok.1)
  refine .later hnow (hc _ _) (fun v hv => ?_) (Run.eq_getD (s := opening₁ w) hok.2)
  exact absurd hv.request (by decide)

/-- What serving leaves when it posts 5 to itself then. -/
def openingPost : Kernel × Slot :=
  (serve (contextswitch (opening₂ 5).d.k (opening₂ 5).d.p (samplePost 1 5)) (opening₂ 5).d.p
    sampleAmbient .sigkill).getD ((opening₂ 5).d.k, 0)

/-- The frame for 5 holds the handler installed for 5. -/
theorem handler_table_intact_of_five :
    (frameOf (run openingPost.1 1) 1).signum = 5 ∧
      (frameOf (run openingPost.1 1) 1).storedHandler = 0x2000 := by
  have hok : (sampleStart.turn (sampleInstall 5)).isOk = true ∧
      ((opening₁ 5).turn (sampleCall .openDev [1])).isOk = true ∧
      ((opening₂ 5).turn (samplePost 1 5)).isOk = true ∧
      (serve (contextswitch (opening₂ 5).d.k (opening₂ 5).d.p (samplePost 1 5)) (opening₂ 5).d.p
        sampleAmbient .sigkill).isOk = true := by decide +kernel
  have hpost : openingPost.2 = 1 ∧ deliverable ((run openingPost.1 1).proctab 1) ∧
      (frameOf (run openingPost.1 1) 1).signum = 5 := by decide +kernel
  obtain ⟨hin, hopen, hturn, hserve⟩ := hok
  obtain ⟨hp, hdel, hsig⟩ := hpost
  have hkeeps : ∀ s t, KeepsEntry 1 5 s t := fun _ _ h => absurd h (by decide)
  have hi : Installs 1 5 0x2000 sampleStart (sampleInstall 5) :=
    ⟨by decide +kernel, rfl, by decide +kernel, by decide +kernel⟩
  have hlast : LastInstalled (KeepsEntry 1 5) 1 5 0x2000 (opening₂ 5) (samplePost 1 5)
      ((opening₂ 5).after (samplePost 1 5)) := by
    refine .later (opening₂_last ⟨hin, hopen⟩ hi hkeeps) (hkeeps _ _) (fun v hv => ?_)
      (Run.eq_getD (s := opening₂ 5) hturn)
    exact absurd hv.request (by decide)
  have hd : Delivers 1 (frameOf (run openingPost.1 1) 1) (opening₂ 5) (samplePost 1 5) := by
    refine ⟨openingPost.1, ?_, hdel, rfl⟩
    rw [← hp]
    exact Run.eq_getD (s := ((opening₂ 5).d.k, 0)) hserve
  exact ⟨hsig, (handler_table_intact 1 (by decide)).delivered _ _ _ _ _ hlast hd hsig⟩

/-- The address stored for 31 is the number of the device that is opened afterwards. -/
theorem handler_table_overwritten :
    ¬ ∀ (q : Slot) (n : ℕ), n < 32 → TableIntact TSys.anyStep q n := by
  intro h
  have hok : (sampleStart.turn (sampleInstall 31)).isOk = true ∧
      ((opening₁ 31).turn (sampleCall .openDev [1])).isOk = true := by decide +kernel
  have hi : Installs 1 31 0x2000 sampleStart (sampleInstall 31) :=
    ⟨by decide +kernel, rfl, by decide +kernel, by decide +kernel⟩
  have hentry := (h 1 31 (by decide)).entry _ _ _ _ (opening₂_last hok hi fun _ _ => trivial)
  revert hentry
  decide +kernel

end Xeros
