import Xeros.Logic.Nested
import Xeros.Logic.Rets

/-!
# What a suspended context finds in `eax`

A context of a process is suspended by an interrupt, or by a call that waits. It is resumed
when the process runs again with as many handlers in progress as before, and `contextswitch`
then stores `ret` in the place of its `eax`. Until then the value is in `ret`, or saved in the
frame of the handler that was delivered to the context:

* serving a request of another process leaves it in `ret`;
* a delivery moves it to the frame;
* `SYS_SIGRETURN` brings it back, and overwrites it when no signal is pending any more.
-/

namespace Xeros

open Lib

variable {k k' k₂ : Kernel} {h h' h₂ : History} {p q : Slot} {a : Ambient} {req : Request}
  {s s' s₁ s₂ : Recorded} {t : Trap} {n : ℕ} {v eax : Word} {c : Pcb} {fs : List SigFrame}

/-! ## The way of a value -/

/-- The memory with which `p` is resumed. -/
def resumed (k : Kernel) (p : Slot) : Bytes :=
  k.mem.putWord ((k.proctab p).esp + 28) (k.proctab p).ret

/-- The word that is popped into `eax` when `p` is resumed. -/
def eaxOf (k : Kernel) (p : Slot) : Word := (resumed k p).word ((k.proctab p).esp + 28)

theorem eaxOf_eq (k : Kernel) (p : Slot) : eaxOf k p = (k.proctab p).ret := Bytes.word_putWord

/-- The value `v` of the context below which `n` handlers are in progress: it is in `ret`, or
in the frame of the handler above. -/
inductive Saved (n : ℕ) (v : Word) (c : Pcb) (fs : List SigFrame) : Prop
  | top (hn : fs.length = n) (hable : c.able) (hret : c.ret = v)
  | below (gs : List SigFrame) (f : SigFrame) (rest : List SigFrame)
      (hfs : fs = gs ++ f :: rest) (hn : rest.length = n) (hsp : f.oldSp = f.esp)
      (hret : f.savedRet = v)

/-- A frame holds what was in `ret`. -/
theorem frameOf_savedRet (k : Kernel) (p : Slot) :
    (frameOf k p).savedRet = (k.proctab p).ret := Bytes.word_putWord

/-- The value in the pcb after `SYS_SIGRETURN`, if no signal is pending any more. -/
def Pcb.lastCode (c : Pcb) (sig : Int) : Word :=
  if c.sigwaiter = 1 then toWord (prMaskToSignum c.sigPriority sig) else toWord eintr

/-- The signals that are pending after `SYS_SIGRETURN`. -/
def Pcb.stillPending (c : Pcb) (sig : Int) : Word :=
  c.sigPending &&& ~~~bit (prMaskToSignum c.sigPriority sig)

theorem Pcb.sigreturn_ret (c : Pcb) (m : Bytes) (sig : Int) (sp : Word) :
    (c.sigreturn m sig sp).ret
      = if c.stillPending sig = 0 then c.lastCode sig else m.word (sp - 4) := by
  unfold sigreturn stillPending lastCode
  dsimp only
  split
  · split <;> rfl
  · rfl

theorem Pcb.sigreturn_state (c : Pcb) (m : Bytes) (sig : Int) (sp : Word) :
    (c.sigreturn m sig sp).state = c.state := by
  unfold sigreturn
  dsimp only
  split
  · split <;> rfl
  · rfl

/-- What an entry leaves in the pcb is decoded to the same code. -/
theorem Pcb.enter_lastCode (c : Pcb) (esp : Word) (cause : Cause) (sig : Int) :
    (c.enter esp cause).stillPending sig = c.stillPending sig
      ∧ (c.enter esp cause).lastCode sig = c.lastCode sig := by
  cases cause <;> exact ⟨rfl, rfl⟩

/-- The end of a turn moves the value to a frame if a signal is delivered. -/
theorem Turn.saved (ht : Turn s t k₂ h₂ s') (h : Saved n v (k₂.proctab q) (h₂.frames q)) :
    Saved n v (s'.d.k.proctab q) (s'.h.frames q) := by
  have hk := loopTop_proctab ht.used q
  rw [← ht.loopTop] at hk
  rcases ht.delivery q with ⟨hq, hd, -, hf, -⟩ | ⟨hd, -, hf, -⟩
  · rw [hf]
    cases h with
    | top hn _ hret =>
        have hr : (run k₂ q).proctab q = (k₂.proctab q).setState .running := by simp [run]
        refine .below [] _ _ rfl hn (frameOf_words _ _).1 ?_
        rw [frameOf_savedRet, hr]
        exact hret
    | below gs f rest hfs hn hsp hret =>
        exact .below (_ :: gs) f rest (congrArg _ hfs) hn hsp hret
  · rw [hf]
    cases h with
    | top hn hable hret =>
        by_cases hq : q = s'.d.p
        · rw [if_pos hq, ← hq, if_neg fun h => hd ⟨hq, h⟩] at hk
          exact .top hn (.inr (by rw [hk]; rfl)) (by rw [hk]; exact hret)
        · rw [if_neg hq] at hk
          exact .top hn (hk ▸ hable) (hk ▸ hret)
    | below gs f rest hfs hn hsp hret => exact .below gs f rest hfs hn hsp hret

/-! ## A step -/

/-- The context of `q` with `n` handlers in progress below it is not resumed by the step: `q`
runs only in a handler above it, returns from handlers through `sigtramp` and does not
stop. -/
structure Unresumed (q : Slot) (n : ℕ) (s : Recorded) (t : Trap) : Prop where
  above : s.d.p = q → n < (s.h.frames q).length
  alive : s.d.p = q → t.cause.request ≠ .stop
  returns : ReturnsProperly q s t

/-- The value `v` of such a context is not overwritten: when `q` returns to it, a signal is
still pending or the code is the value; a receive does not take `q` for the sender; a process
that stops does not take `q` for one that waits. -/
structure KeepsValue (q : Slot) (n : ℕ) (v : Word) (s : Recorded) (t : Trap) : Prop where
  returned : s.d.p = q → t.cause.request = .sigreturn → (s.h.frames q).length = n + 1 →
    (s.d.k.proctab q).stillPending t.ambient.sig ≠ 0
      ∨ (s.d.k.proctab q).lastCode t.ambient.sig = v
  recv : (s.h.frames q).length = n → t.cause.request = .recv →
    ∀ r, recvPeer (contextswitch s.d.k s.d.p t) t.ambient s.d.p = .ok (some r) →
      ¬ EmptyMessage (contextswitch s.d.k s.d.p t) r s.d.p →
        released (contextswitch s.d.k s.d.p t) s.d.p r ≠ q
  stop : (s.h.frames q).length = n → t.cause.request = .stop →
    ¬ WalkFinds (contextswitch s.d.k s.d.p t) (s.d.k.proctab s.d.p).pid q s.d.k.blockedQ
      t.ambient.destpid

/-- The frames of a process that has not stopped stay, but for a return of its own. -/
theorem SigStep.frames_cases (hs : SigStep k h p a req k' h' q) (ha : (k.proctab q).alive) :
    h'.frames q = h.frames q ∨
      (req = .sigreturn ∧ q = p ∧ h'.frames q = (h.frames q).tail ∧
        k'.proctab q = (k.proctab q).sigreturn k.mem a.sig (k.arg p 0)) := by
  cases hs with
  | same _ hf => exact .inl hf
  | stopped _ _ _ hf => exact .inl hf
  | renewed _ hfree =>
      obtain ⟨-, hs | hs⟩ := freeSlot_spec hfree
      · exact absurd hs ha.1
      · exact absurd hs ha.2
  | installed _ _ _ _ _ _ _ _ _ hf => exact .inl hf
  | removed _ _ _ _ _ _ _ hf => exact .inl hf
  | returned hreq hq hc hf => exact .inr ⟨hreq, hq, hf, hc⟩
  | posted _ _ _ _ _ _ hf => exact .inl hf
  | opened _ _ _ _ hf => exact .inl hf

/-- A step that does not resume the context keeps its value. -/
theorem Saved.turn (hs : Sound s.d) (ha : (s.d.k.proctab q).alive)
    (h : Saved n v (s.d.k.proctab q) (s.h.frames q)) (hw : Unresumed q n s t)
    (hk : KeepsValue q n v s t) (hst : s.turn t = .ok s') :
    Saved n v (s'.d.k.proctab q) (s'.h.frames q) := by
  obtain ⟨k₂, h₂, ht⟩ := Recorded.turn_cases hs hst
  have hg := contextswitch_good hs.good hs.used t
  have hu := contextswitch_used (p := s.d.p) hs.used t
  have ha' : ((contextswitch s.d.k s.d.p t).proctab q).alive := by
    unfold Pcb.alive
    rwa [contextswitch_state]
  have hsig := ht.served.sigStep (h := s.h.setCall s.d.p t.cause.call) ht.serve q
  rw [← ht.noted] at hsig
  have hframes := hsig.frames_cases ha'
  refine ht.saved ?_
  cases h with
  | top hn hable hret =>
      -- the process does not run, and is left alone
      have hp : q ≠ s.d.p := by
        intro he
        have := hw.above he.symm
        omega
      have hq : (contextswitch s.d.k s.d.p t).proctab q = s.d.k.proctab q := by
        rw [contextswitch_proctab, if_neg hp]
      have hl : LeavesRet q (contextswitch s.d.k s.d.p t) s.d.p t.ambient t.cause.request :=
        ⟨.inl hp, hk.recv hn, by
          rw [contextswitch_pid]
          exact hk.stop hn⟩
      have hable' := hl.able hg hu (hq ▸ hable) ht.serve
      have hsame : (k₂.proctab q).ret = _ := hl.sameRet hg (hq ▸ hable) ht.serve
      rcases hframes with hf | ⟨-, he, -, -⟩
      · exact .top (hf ▸ hn) hable' (hsame.trans (hq ▸ hret))
      · exact absurd he hp
  | below gs f rest hfs hn hsp hret =>
      rcases hframes with hf | ⟨hreq, he, hf, hc⟩
      · exact .below gs f rest (hf.trans hfs) hn hsp hret
      · have hfs' : h₂.frames q = (s.h.frames q).tail := hf
        cases gs with
        | cons g gs =>
            refine .below gs f rest ?_ hn hsp hret
            rw [hfs', hfs]
            rfl
        | nil =>
            -- the return to the context itself
            obtain ⟨f', rest', hfs₂, hr⟩ := hw.returns he.symm hreq
            rw [hfs, List.nil_append] at hfs₂
            obtain ⟨rfl, rfl⟩ := List.cons.inj hfs₂
            subst he
            have hlen : (s.h.frames s.d.p).length = n + 1 := by
              rw [hfs, ← hn]
              rfl
            have henter := (s.d.k.proctab s.d.p).enter_lastCode t.esp t.cause t.ambient.sig
            have hpcb : (contextswitch s.d.k s.d.p t).proctab s.d.p
                = (s.d.k.proctab s.d.p).enter t.esp t.cause := by
              rw [contextswitch_proctab, if_pos rfl]
            have hword : (contextswitch s.d.k s.d.p t).mem.word
                ((contextswitch s.d.k s.d.p t).arg s.d.p 0 - 4) = v := by
              have hsp' : (contextswitch s.d.k s.d.p t).arg s.d.p 0 - 4 = f.ssf + 64 := by
                rw [hr.oldSp.trans hsp]
                unfold SigFrame.ssf
                bv_omega
              rw [hsp', hr.ret, hret]
            refine .top ?_ ?_ ?_
            · rw [hfs', hfs]
              exact hn
            · right
              rw [hc, Pcb.sigreturn_state, contextswitch_state]
              exact hs.running
            · rw [hc, Pcb.sigreturn_ret, hword, hpcb, henter.1, henter.2]
              rcases hk.returned rfl hreq hlen with h0 | hv
              · rw [if_neg h0]
              · rw [hv, ite_self]

/-- The value of a suspended context, until the context is resumed. -/
theorem Saved.path (hs : Sound s.d) (ha : (s.d.k.proctab q).alive)
    (h : Saved n v (s.d.k.proctab q) (s.h.frames q))
    (hp : recorder.Path (fun s t => Unresumed q n s t ∧ KeepsValue q n v s t) s s') :
    Saved n v (s'.d.k.proctab q) (s'.h.frames q) := by
  have hinv : Sound s'.d ∧ (s'.d.k.proctab q).alive ∧
      Saved n v (s'.d.k.proctab q) (s'.h.frames q) := by
    refine hp.preserves (I := fun s => Sound s.d ∧ (s.d.k.proctab q).alive ∧
      Saved n v (s.d.k.proctab q) (s.h.frames q)) ⟨hs, ha, h⟩ ?_
    rintro s t s' ⟨hs, ha, h⟩ ⟨hw, hk⟩ hst
    have hd := Recorded.turn_d hst
    exact ⟨hs.turn hd, alive_turn hs hd ha hw.alive, h.turn hs ha hw hk hst⟩
  exact hinv.2.2

/-- The value of a context that is resumed. -/
theorem Saved.ret (h : Saved n v c fs) (hn : fs.length = n) : c.ret = v := by
  cases h with
  | top _ _ hret => exact hret
  | below gs f rest hfs hn' =>
      have hlen : fs.length = gs.length + (rest.length + 1) := by
        rw [hfs, List.length_append]
        rfl
      omega

/-! ## Interrupts -/

/-- An interrupted context is resumed with the `eax` it had, in every run in which nothing
overwrites it. -/
theorem interrupted_eax_kept (hr : recorder.Reachable s)
    (hc : t.cause = .timer eax ∨ t.cause = .keyboard eax) (hst : recorder.step s t s₁)
    (hp : recorder.Path (fun r u => Unresumed s.d.p (s.h.frames s.d.p).length r u ∧
      KeepsValue s.d.p (s.h.frames s.d.p).length eax r u) s₁ s₂)
    (hrun : s₂.d.p = s.d.p)
    (hn : (s₂.h.frames s.d.p).length = (s.h.frames s.d.p).length) :
    eaxOf s₂.d.k s₂.d.p = eax := by
  have hs := Recorded.sound_of_reachable hr
  obtain ⟨k₂, h₂, ht⟩ := Recorded.turn_cases hs hst
  have hg := contextswitch_good hs.good hs.used t
  have hu := contextswitch_used (p := s.d.p) hs.used t
  have hreq : t.cause.request = .timer ∨ t.cause.request = .keyboard := by
    rcases hc with he | he
    · exact .inl (by rw [he]; rfl)
    · exact .inr (by rw [he]; rfl)
  have hret : ((contextswitch s.d.k s.d.p t).proctab s.d.p).ret = eax := by
    rw [contextswitch_proctab, if_pos rfl]
    rcases hc with he | he
    · rw [he]
      rfl
    · rw [he]
      rfl
  have hable : ((contextswitch s.d.k s.d.p t).proctab s.d.p).able :=
    .inr ((contextswitch_state _ _ _ _).trans hs.running)
  have hl : LeavesRet s.d.p (contextswitch s.d.k s.d.p t) s.d.p t.ambient t.cause.request := by
    refine ⟨.inr hreq, fun he => ?_, fun he => ?_⟩
    · rcases hreq with hx | hx <;> cases hx.symm.trans he
    · rcases hreq with hx | hx <;> cases hx.symm.trans he
  have hframes : h₂.frames s.d.p = s.h.frames s.d.p := by
    rw [ht.noted]
    rcases hreq with hx | hx <;> rw [hx] <;> rfl
  have hsaved : Saved (s.h.frames s.d.p).length eax (s₁.d.k.proctab s.d.p) (s₁.h.frames s.d.p) :=
    ht.saved (.top (congrArg _ hframes) (hl.able hg hu hable ht.serve)
      (Eq.trans (hl.sameRet hg hable ht.serve) hret))
  -- the frame is below those that the process gets from now on, until it is resumed
  have hd := Recorded.turn_d hst
  have halive : (s₁.d.k.proctab s.d.p).alive := by
    refine alive_turn hs hd (by simp [Pcb.alive, hs.running]) fun _ he => ?_
    rcases hreq with hx | hx <;> cases hx.symm.trans he
  rw [eaxOf_eq, hrun]
  exact (hsaved.path (hs.turn hd) halive hp).ret hn

/-- A run in which the root process installs a handler for 5, creates process 3 and is
interrupted with `0x1234` in `eax`. -/
def cut₁ : Recorded := sampleStart.after (sampleInstall 5)

@[inherit_doc cut₁]
def cut₂ : Recorded := cut₁.after (sampleCall .create [0x1400, 0])

/-- A timer interrupt. -/
def sampleTick : Trap := { sampleCall .yield [] with cause := .timer 0x1234 }

@[inherit_doc cut₁]
def cut₃ : Recorded := cut₂.after sampleTick

/-- Process 3 posts 5 to the root process and yields, and the root process returns from the
handler. -/
def cut₄ : Recorded := cut₃.after (sampleCallAt 0x61000 .sigkill [1, 5])

@[inherit_doc cut₄]
def cut₅ : Recorded := cut₄.after (sampleCallAt 0x61000 .yield [])

@[inherit_doc cut₄]
def cut₆ : Recorded := cut₅.after (sampleReturn 0x50000)

/-- Process 3 yields at once. -/
def uncut : Recorded := cut₃.after (sampleCallAt 0x61000 .yield [])

theorem cut₂_reachable : recorder.Reachable cut₂ := by
  refine Recorded.reachable_after ?_ trivial (by decide +kernel)
  exact Recorded.reachable_after sampleStart_reachable trivial (by decide +kernel)

/-- A step of another process that is no receive and does not stop. -/
theorem Unresumed.of_other (h : s.d.p ≠ q) : Unresumed q n s t :=
  ⟨fun he => absurd he h, fun he => absurd he h, fun he => absurd he h⟩

@[inherit_doc Unresumed.of_other]
theorem KeepsValue.of_other (h : s.d.p ≠ q)
    (hreq : t.cause.request ≠ .recv ∧ t.cause.request ≠ .stop) : KeepsValue q n v s t :=
  ⟨fun he => absurd he h, fun _ he => absurd he hreq.1, fun _ he => absurd he hreq.2⟩

/-- A process with one handler in progress that returns from it. -/
theorem Unresumed.of_return (hlen : (s.h.frames q).length = 1) (hreq : t.cause.request ≠ .stop)
    (hall : ∀ f ∈ s.h.frames q, f.ReturnedBy (contextswitch s.d.k q t) q) : Unresumed q 0 s t := by
  obtain ⟨f, hf⟩ := List.length_eq_one_iff.mp hlen
  exact ⟨fun _ => by omega, fun _ => hreq, fun _ _ =>
    ⟨f, [], hf, hall f (hf ▸ List.mem_singleton_self f)⟩⟩

theorem cut₃_step : recorder.step cut₂ sampleTick cut₃ := by
  have h : (cut₂.turn sampleTick).isOk = true := by decide +kernel
  exact Run.eq_getD (s := cut₂) h

/-- Without a signal the root process finds its `eax` again. -/
theorem interrupted_eax_kept_of_yield : eaxOf uncut.d.k uncut.d.p = 0x1234 := by
  have hp : cut₂.d.p = 1 ∧ cut₃.d.p = 3 ∧ uncut.d.p = 1 ∧ (cut₂.h.frames 1).length = 0 ∧
      (uncut.h.frames 1).length = 0 ∧
        (cut₃.turn (sampleCallAt 0x61000 .yield [])).isOk = true := by decide +kernel
  obtain ⟨h₂, h₃, hu, hn, hn', hok⟩ := hp
  refine interrupted_eax_kept (s := cut₂) (t := sampleTick) cut₂_reachable (.inl rfl) cut₃_step
    (Recorded.path_after .refl ⟨.of_other ?_, .of_other ?_ (by decide)⟩ hok) ?_ ?_
  · rw [h₂, h₃]
    decide
  · rw [h₂, h₃]
    decide
  · rw [h₂, hu]
  · rw [h₂, hn, hn']

/-- After the handler the root process finds `EINTR` instead. -/
theorem interrupted_eax_lost :
    ¬ ∀ (s s₁ s₂ : Recorded) (t : Trap) (eax : Word), recorder.Reachable s →
      (t.cause = .timer eax ∨ t.cause = .keyboard eax) → recorder.step s t s₁ →
      recorder.Path (Unresumed s.d.p (s.h.frames s.d.p).length) s₁ s₂ → s₂.d.p = s.d.p →
      (s₂.h.frames s.d.p).length = (s.h.frames s.d.p).length → eaxOf s₂.d.k s₂.d.p = eax := by
  intro h
  have hp : cut₂.d.p = 1 ∧ cut₃.d.p = 3 ∧ cut₄.d.p = 3 ∧ cut₆.d.p = 1 ∧
      (cut₂.h.frames 1).length = 0 ∧ (cut₅.h.frames 1).length = 1 ∧
      (cut₆.h.frames 1).length = 0 := by decide +kernel
  have hok : (cut₃.turn (sampleCallAt 0x61000 .sigkill [1, 5])).isOk = true ∧
      (cut₄.turn (sampleCallAt 0x61000 .yield [])).isOk = true ∧
      (cut₅.turn (sampleReturn 0x50000)).isOk = true ∧
      (∀ f ∈ cut₅.h.frames 1, f.ReturnedBy (contextswitch cut₅.d.k 1 (sampleReturn 0x50000)) 1) ∧
      eaxOf cut₆.d.k 1 ≠ 0x1234 := by decide +kernel
  obtain ⟨h₂, h₃, h₄, h₆, hn, hn₅, hn₆⟩ := hp
  obtain ⟨ht₄, ht₅, ht₆, hf, hne⟩ := hok
  have hpath : recorder.Path (Unresumed 1 0) cut₃ cut₆ := by
    refine Recorded.path_after ?_ (.of_return hn₅ (by decide) hf) ht₆
    refine Recorded.path_after ?_ (.of_other (by rw [h₄]; decide)) ht₅
    exact Recorded.path_after .refl (.of_other (by rw [h₃]; decide)) ht₄
  have hkept := h cut₂ cut₃ cut₆ sampleTick 0x1234 cut₂_reachable (.inl rfl) cut₃_step
    (by rw [h₂, hn]; exact hpath) (by rw [h₂, h₆]) (by rw [h₂, hn, hn₆])
  rw [h₆] at hkept
  exact hne hkept

/-! ## Signals that are waited for -/

/-- A signal for a process in `SYS_SIGWAIT` makes it ready, with the number in `ret`. -/
theorem post_sigwait {signo : Int} (hu : k.Used q) (hb : (k.proctab q).state = .blocked)
    (hret : (k.proctab q).ret = Request.sigwait.code) (h : post k q signo = .ok k') :
    (k'.proctab q).state = .ready ∧ (k'.proctab q).ret = toWord signo := by
  have hu' : (k.upd q fun c => c.pend signo).Used q := hu.upd rfl
  have hst : ((k.upd q fun c => c.pend signo).proctab q).state = .blocked := by simpa using hb
  unfold post at h
  dsimp only at h
  rw [hst] at h
  simp only [Run.bind_eq_ok] at h
  obtain ⟨k₁, h₁, h⟩ := h
  have hs := ready_state hu' h₁
  have hr : (k₁.proctab q).ret = Request.sigwait.code := by
    rw [SameRet.ready h₁]
    simpa using hret
  rw [if_pos hr] at h
  simp only [pure, Except.pure, Except.ok.injEq] at h
  rw [← h]
  simpa [Kernel.setRet] using hs

/-- A signal that is accepted for a process blocked in `SYS_SIGWAIT` ends the wait, and its
number is what the call returns, in every run in which nothing overwrites it. -/
theorem sigwait_returns_waker {m : ℕ} {args : Word} (hr : recorder.Reachable s)
    (hcall : s.h.call q = some (.sigwait, args)) (hb : (s.d.k.proctab q).state = .blocked)
    (hreq : t.cause.request = .sigkill)
    (hpost : postedBy (contextswitch s.d.k s.d.p t) s.d.p t.ambient = some (q, m))
    (hst : recorder.step s t s₁)
    (hp : recorder.Path (fun r u => Unresumed q (s.h.frames q).length r u ∧
      KeepsValue q (s.h.frames q).length ((contextswitch s.d.k s.d.p t).arg s.d.p 1) r u) s₁ s₂)
    (hrun : s₂.d.p = q) (hn : (s₂.h.frames q).length = (s.h.frames q).length) :
    eaxOf s₂.d.k q = (contextswitch s.d.k s.d.p t).arg s.d.p 1 := by
  have hin := inCall_of_reachable hr
  obtain ⟨k₂, h₂, ht⟩ := Recorded.turn_cases hin.toSound hst
  -- the waiting process is not the one that posts
  have hq : q ≠ s.d.p := by
    rintro rfl
    rw [hin.running] at hb
    cases hb
  have hpcb : (contextswitch s.d.k s.d.p t).proctab q = s.d.k.proctab q := by
    rw [contextswitch_proctab, if_neg hq]
  obtain ⟨req, -, hc, hret⟩ := hin.call q hb
  rw [hcall, Option.some.injEq, Prod.mk.injEq] at hc
  rw [← hc.1] at hret
  have hserve := ht.serve
  rw [hreq] at hserve
  obtain ⟨-, -, -, k₃, hk₃, hk₂⟩ := serve_posts hserve hpost
  have hu : (contextswitch s.d.k s.d.p t).Used q :=
    contextswitch_used (hin.good.used (by rw [hb]; decide)) t
  obtain ⟨hready, hval⟩ := post_sigwait hu (hpcb ▸ hb) (hpcb ▸ hret) hk₃
  rw [toWord_toInt] at hval
  have hq₂ : k₂.proctab q = k₃.proctab q := by
    rw [hk₂, Kernel.setRet, Kernel.upd_proctab_ne _ _ _ hq]
  have hframes : h₂.frames q = s.h.frames q := by
    have hsig := ht.served.sigStep (h := s.h.setCall s.d.p t.cause.call) ht.serve q
    rw [← ht.noted] at hsig
    have halive : ((contextswitch s.d.k s.d.p t).proctab q).alive := by
      rw [hpcb]
      simp [Pcb.alive, hb]
    exact (hsig.frames_cases halive).resolve_right fun he => hq he.2.1
  have hsaved : Saved (s.h.frames q).length ((contextswitch s.d.k s.d.p t).arg s.d.p 1)
      (s₁.d.k.proctab q) (s₁.h.frames q) :=
    ht.saved (.top (congrArg _ hframes) (.inl (hq₂ ▸ hready)) (hq₂ ▸ hval))
  have hd := Recorded.turn_d hst
  have halive : (s₁.d.k.proctab q).alive :=
    alive_turn hin.toSound hd (by simp [Pcb.alive, hb]) fun he => absurd he.symm hq
  rw [eaxOf_eq]
  exact (hsaved.path (hin.toSound.turn hd) halive hp).ret hn

/-- A run in which the root process installs handlers for 5 and 7, creates process 3 and
waits for a signal. -/
def dozing₁ : Recorded := sampleStart.after (sampleInstall 5)

@[inherit_doc dozing₁]
def dozing₂ : Recorded := dozing₁.after (sampleInstall 7)

@[inherit_doc dozing₁]
def dozing₃ : Recorded := dozing₂.after (sampleCall .create [0x1400, 0])

@[inherit_doc dozing₁]
def dozing₄ : Recorded := dozing₃.after (sampleCall .sigwait [])

/-- Process 3 posts 5 and yields, and the root process returns from the handler. -/
def woken₁ : Recorded := dozing₄.after (samplePoke 5)

@[inherit_doc woken₁]
def woken₂ : Recorded := woken₁.after (sampleCallAt 0x61000 .yield [])

@[inherit_doc woken₁]
def woken₃ : Recorded := woken₂.after (sampleReturn 0x50000)

/-- Process 3 posts 7, then 5, and yields, and the root process returns from both
handlers. -/
def mixed₁ : Recorded := dozing₄.after (samplePoke 7)

@[inherit_doc mixed₁]
def mixed₂ : Recorded := mixed₁.after (samplePoke 5)

@[inherit_doc mixed₁]
def mixed₃ : Recorded := mixed₂.after (sampleCallAt 0x61000 .yield [])

@[inherit_doc mixed₁]
def mixed₄ : Recorded := mixed₃.after (sampleReturn 0x50000)

@[inherit_doc mixed₁]
def mixed₅ : Recorded := mixed₄.after (sampleReturn 0x50000)

theorem dozing₄_reachable : recorder.Reachable dozing₄ := by
  have h : (sampleStart.turn (sampleInstall 5)).isOk = true ∧
      (dozing₁.turn (sampleInstall 7)).isOk = true ∧
      (dozing₂.turn (sampleCall .create [0x1400, 0])).isOk = true ∧
      (dozing₃.turn (sampleCall .sigwait [])).isOk = true := by decide +kernel
  obtain ⟨h₁, h₂, h₃, h₄⟩ := h
  refine Recorded.reachable_after ?_ trivial h₄
  refine Recorded.reachable_after ?_ trivial h₃
  refine Recorded.reachable_after ?_ trivial h₂
  exact Recorded.reachable_after sampleStart_reachable trivial h₁

theorem dozing₄_waits : dozing₄.d.p = 3 ∧ dozing₄.h.call 1 = some (.sigwait, 0x60000) ∧
    (dozing₄.d.k.proctab 1).state = .blocked ∧ (dozing₄.h.frames 1).length = 0 := by
  decide +kernel

/-- The process that is woken by 5 and runs one handler gets 5. -/
theorem sigwait_returns_waker_of_one : eaxOf woken₃.d.k 1 = 5 := by
  have hp : woken₁.d.p = 3 ∧ woken₃.d.p = 1 ∧ (woken₂.h.frames 1).length = 1 ∧
      (woken₃.h.frames 1).length = 0 := by decide +kernel
  have hok : (dozing₄.turn (samplePoke 5)).isOk = true ∧
      (woken₁.turn (sampleCallAt 0x61000 .yield [])).isOk = true ∧
      (woken₂.turn (sampleReturn 0x50000)).isOk = true ∧
      postedBy (contextswitch dozing₄.d.k dozing₄.d.p (samplePoke 5)) dozing₄.d.p sampleAmbient
        = some (1, 5) ∧
      (contextswitch dozing₄.d.k dozing₄.d.p (samplePoke 5)).arg dozing₄.d.p 1 = 5 ∧
      (∀ f ∈ woken₂.h.frames 1,
        f.ReturnedBy (contextswitch woken₂.d.k 1 (sampleReturn 0x50000)) 1) ∧
      (woken₂.d.k.proctab 1).lastCode 0 = 5 := by decide +kernel
  obtain ⟨-, hcall, hb, hn⟩ := dozing₄_waits
  obtain ⟨h₁, h₃, hn₂, hn₃⟩ := hp
  obtain ⟨ht₁, ht₂, ht₃, hpost, harg, hf, hcode⟩ := hok
  have hkeep : KeepsValue 1 0 5 woken₂ (sampleReturn 0x50000) :=
    ⟨fun _ _ _ => .inr hcode, fun _ he => absurd he (by decide), fun _ he =>
      absurd he (by decide)⟩
  refine (sigwait_returns_waker (t := samplePoke 5) (s := dozing₄) (q := 1) dozing₄_reachable
    hcall hb rfl hpost (Run.eq_getD (s := dozing₄) ht₁) ?_ h₃ (hn₃.trans hn.symm)).trans harg
  rw [hn, harg]
  refine Recorded.path_after ?_ ⟨.of_return hn₂ (by decide) hf, hkeep⟩ ht₃
  have hne : woken₁.d.p ≠ 1 := by
    rw [h₁]
    decide
  exact Recorded.path_after .refl ⟨.of_other hne, .of_other hne (by decide)⟩ ht₂

/-- The process that is woken by 7 and then gets 5 as well returns 5. -/
theorem sigwait_loses_waker :
    ¬ ∀ (s s₁ s₂ : Recorded) (t : Trap) (q : Slot) (m : ℕ) (args : Word),
      recorder.Reachable s → s.h.call q = some (.sigwait, args) →
      (s.d.k.proctab q).state = .blocked → t.cause.request = .sigkill →
      postedBy (contextswitch s.d.k s.d.p t) s.d.p t.ambient = some (q, m) →
      recorder.step s t s₁ → recorder.Path (Unresumed q (s.h.frames q).length) s₁ s₂ →
      s₂.d.p = q → (s₂.h.frames q).length = (s.h.frames q).length →
      eaxOf s₂.d.k q = (contextswitch s.d.k s.d.p t).arg s.d.p 1 := by
  intro h
  have hp : mixed₁.d.p = 3 ∧ mixed₂.d.p = 3 ∧ mixed₅.d.p = 1 ∧
      (mixed₃.h.frames 1).length = 1 ∧ (mixed₄.h.frames 1).length = 1 ∧
      (mixed₅.h.frames 1).length = 0 := by decide +kernel
  have hok : (dozing₄.turn (samplePoke 7)).isOk = true ∧
      (mixed₁.turn (samplePoke 5)).isOk = true ∧
      (mixed₂.turn (sampleCallAt 0x61000 .yield [])).isOk = true ∧
      (mixed₃.turn (sampleReturn 0x50000)).isOk = true ∧
      (mixed₄.turn (sampleReturn 0x50000)).isOk = true := by decide +kernel
  have hstate : postedBy (contextswitch dozing₄.d.k dozing₄.d.p (samplePoke 7)) dozing₄.d.p
        sampleAmbient = some (1, 7) ∧
      (contextswitch dozing₄.d.k dozing₄.d.p (samplePoke 7)).arg dozing₄.d.p 1 = 7 ∧
      (∀ f ∈ mixed₃.h.frames 1,
        f.ReturnedBy (contextswitch mixed₃.d.k 1 (sampleReturn 0x50000)) 1) ∧
      (∀ f ∈ mixed₄.h.frames 1,
        f.ReturnedBy (contextswitch mixed₄.d.k 1 (sampleReturn 0x50000)) 1) ∧
      eaxOf mixed₅.d.k 1 = 5 := by decide +kernel
  obtain ⟨-, hcall, hb, hn⟩ := dozing₄_waits
  obtain ⟨h₁, h₂, h₅, hn₃, hn₄, hn₅⟩ := hp
  obtain ⟨ht₁, ht₂, ht₃, ht₄, ht₅⟩ := hok
  obtain ⟨hpost, harg, hf₃, hf₄, hval⟩ := hstate
  have hpath : recorder.Path (Unresumed 1 0) mixed₁ mixed₅ := by
    refine Recorded.path_after ?_ (.of_return hn₄ (by decide) hf₄) ht₅
    refine Recorded.path_after ?_ (.of_return hn₃ (by decide) hf₃) ht₄
    refine Recorded.path_after ?_ (.of_other (by rw [h₂]; decide)) ht₃
    exact Recorded.path_after .refl (.of_other (by rw [h₁]; decide)) ht₂
  have hw := h dozing₄ mixed₁ mixed₅ (samplePoke 7) 1 7 0x60000 dozing₄_reachable hcall hb rfl
    hpost (Run.eq_getD (s := dozing₄) ht₁) (by rw [hn]; exact hpath) h₅ (by rw [hn, hn₅])
  rw [harg, hval] at hw
  exact absurd hw (by decide)

end Xeros
