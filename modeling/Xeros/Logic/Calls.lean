import Xeros.Logic.History

/-!
# The call a process is blocked in

A process that gives up the processor in a blocked state has been blocked by one
of four calls, and carries the number of that call in `ret`. As long as it stays
blocked nothing touches its `ret` and its argument pointer, so both still are
those of the call that has not returned.
-/

namespace Xeros

open Lib

variable {k k' : Kernel} {p p' : Slot} {a : Ambient}

/-- The calls that block. -/
def Request.blocks (req : Request) : Prop :=
  req = .send ∨ req = .recv ∨ req = .sigwait ∨ req = .read

/-- Where a request leaves the process that it takes off the processor. -/
inductive Parked (req : Request) (c : Pcb) : Prop
  | able (h : c.state = .ready ∨ c.state = .running)
  | blocked (hreq : req.blocks) (h : c.state = .blocked) (hret : c.ret = req.code)
  | asleep (hreq : req = .sleep) (h : c.state = .sleep)
  | stopped (hreq : req = .stop) (h : c.state = .stopped)

/-- A quiet step leaves a process parked. -/
theorem Parked.sched {req : Request} {c c' : Pcb} (h : Parked req c) (hs : c.Sched c') :
    Parked req c' := by
  rcases hs with ⟨hst, hret⟩ | hr | hr
  · cases h with
    | able h => exact .able (by rwa [hst])
    | blocked hreq h hc =>
        rcases hret with hret | hret
        · rw [h] at hret
          cases hret
        · exact .blocked hreq (hst.trans h) (hret.trans hc)
    | asleep hreq h => exact .asleep hreq (hst.trans h)
    | stopped hreq h => exact .stopped hreq (hst.trans h)
  · exact .able (.inl hr)
  · exact .able (.inr hr)

theorem Parked.quiet {req : Request} (h : Parked req (k.proctab p)) (hq : Quiet nobody k k') :
    Parked req (k'.proctab p) := h.sched (hq.sched p id)

theorem ready_parked {req : Request} (hu : k.Used p) (h : ready k p = .ok k') :
    Parked req (k'.proctab p) := .able (.inl (ready_state hu h))

theorem block_parked (req : Request) {fuel : Nat} (hg : Good k) (hu : k.Used p)
    (hreq : req.blocks) (h : block k fuel p req.code = .ok k') : Parked req (k'.proctab p) := by
  have hp : Parked req ((k.upd p fun c => c.toBlock req.code).proctab p) := by
    rw [Kernel.upd_proctab_self]
    exact .blocked hreq rfl rfl
  exact hp.quiet (block_cases hg hu h)

/-- A process that has been made ready stays parked when its peer is released. -/
theorem release_parked {req : Request} {q : Slot} {fuel : Nat} {k₀ k₁ k₂ : Kernel} {r : Int}
    (hg : Good k₀) (hu : k₀.Used p) (hq : k₀.Used q) (h₁ : ready k₀ p = .ok k₁)
    (h₂ : remove k₁ fuel (getQ (k₁.proctab q).state) (k₁.proctab q).pid = .ok (k₂, r))
    (h : ready k₂ q = .ok k') : Parked req (k'.proctab p) := by
  have hq₁ := ready_quiet (X := nobody) hg hu h₁
  have hq₂ := remove_quiet (X := nobody) hq₁.good h₂
  have hq₃ := ready_quiet (X := nobody) hq₂.good (hq₂.used (hq₁.used hq)) h
  exact (ready_parked hu h₁).quiet (hq₂.trans hq₃)

theorem sysSend_parked (hg : Good k) (hu : k.Used p) (h : sysSend k p a = .ok k') :
    Parked .send (k'.proctab p) := by
  obtain ⟨n, k₀, h₀, h⟩ := sysSend_cases h
  have hs : Quiet (· = p) k k₀ := send_quiet hg rfl h₀
  rcases h with ⟨hn, k₁, k₂, r, h₁, h₂, h⟩ | ⟨-, h⟩ | ⟨-, h⟩
  · have hd : k.Used (slotOf (k.arg p 0)) := hg.used (by simp [send_pos h₀ hn])
    have hz := answered_quiet (q := slotOf (k.arg p 0)) (n := n) hs rfl
    exact release_parked hz.good (hz.used hu) (hz.used hd) h₁ h₂ h
  · have hy := hs.thenRet (toWord n)
    exact ready_parked (hy.used hu) h
  · exact block_parked .send hs.good (hs.used hu) (.inl rfl) h

theorem sysRecv_parked (hg : Good k) (hu : k.Used p) (h : sysRecv k p a = .ok k') :
    Parked .recv (k'.proctab p) := by
  obtain ⟨n, k₀, h₀, h⟩ := sysRecv_cases h
  have hs : Quiet (· = p) k k₀ := recv_quiet hg rfl h₀
  rcases h with ⟨hn, k₁, h₁, h⟩ | ⟨-, h⟩ | ⟨-, h⟩
  · have hz := answered_quiet (q := slotOf (k₀.mem.word (k.arg p 0))) (n := n) hs rfl
    have hq₁ := ready_quiet (X := nobody) hz.good (hz.used hu) h₁
    rcases h with ⟨hpid, k₂, r, h₂, h⟩ | ⟨-, rfl⟩
    · have hd := hq₁.good.used_of_pid hpid
      exact release_parked hz.good (hz.used hu) (hd.congr (hq₁.same _).pid.symm) h₁ h₂ h
    · exact ready_parked (hz.used hu) h₁
  · have hy := hs.thenRet (toWord n)
    exact ready_parked (hy.used hu) h
  · exact block_parked .recv hs.good (hs.used hu) (.inr (.inl rfl)) h

/-- A process that is taken off the processor is parked. -/
theorem serve_parked {req : Request} (hg : Good k) (hu : k.Used p)
    (h : serve k p a req = .ok (k', p')) (hp : p' ≠ p) : Parked req (k'.proctab p) := by
  have hresched : ∀ {k₁ : Kernel}, Good k₁ → Parked req (k₁.proctab p) →
      reschedule k₁ = .ok (k', p') → Parked req (k'.proctab p) :=
    fun hg₁ hpark hk => hpark.quiet (reschedule_quiet hg₁ hk).1
  cases serve_cases h with
  -- the requests that leave `p` on the processor
  | create _ | sigkill _ | write _ | keyboard _ | noHandler _ => exact absurd rfl hp
  | getpid | puts | sighandler | sigreturn => exact absurd rfl hp
  | openDev | close | ioctl | bad => exact absurd rfl hp
  -- those that give it up
  | yield h₁ h₂ =>
      have hq := ready_quiet (X := nobody) hg hu h₁
      exact hresched hq.good (ready_parked hu h₁) h₂
  | stop h₁ h₂ =>
      obtain ⟨k₂, h₃, h₁⟩ := sysStop_cases h₁
      have hg' : Good (k.upd p fun c => (c.setState .stopped).setNext none) :=
        hg.upd hu rfl (by simp)
      have hq₂ := append_quiet (X := nobody) hg' (hu.upd rfl) h₃
      have hq₁ := notifyWaiters_quiet (X := nobody) hq₂.good h₁
      refine hresched hq₁.good (Parked.quiet (.stopped rfl ?_) (hq₂.trans hq₁)) h₂
      simp
  | timer h₁ =>
      obtain ⟨k₁, k₂, h₁, h₂, h₃⟩ := sysTimer_cases h₁
      have hq₁ := ready_quiet (X := nobody) hg hu h₁
      have hq₂ := (reschedule_quiet (X := nobody) hq₁.good h₂).1
      have hq₃ := tick_quiet (X := nobody) hq₂.good h₃
      exact (ready_parked hu h₁).quiet (hq₂.trans hq₃)
  | sleep h₁ h₂ =>
      have hq := sleep_cases (X := nobody) hg hu (sysSleep_cases h₁)
      refine hresched hq.good (Parked.quiet (.asleep rfl ?_) hq) h₂
      simp [Pcb.toSleep]
  | send h₁ h₂ =>
      exact hresched (sysSend_quiet (X := (· = p)) hg hu rfl h₁).good (sysSend_parked hg hu h₁) h₂
  | recv h₁ h₂ =>
      exact hresched (sysRecv_quiet (X := (· = p)) hg hu rfl h₁).good (sysRecv_parked hg hu h₁) h₂
  | sigwait _ h₁ h₂ =>
      have hg' : Good (k.upd p fun c => { c with sigwaiter := 1, next := none }) :=
        hg.upd hu rfl (by simp)
      have hu' : (k.upd p fun c => { c with sigwaiter := 1, next := none }).Used p := hu.upd rfl
      exact hresched (block_quiet (X := (· = p)) hg' hu' rfl h₁).good
        (block_parked .sigwait hg' hu' (.inr (.inr (.inl rfl))) h₁) h₂
  | read h₁ =>
      have hq := diRead_quiet (X := nobody) (k.arg p 0).toInt (k.arg p 1) (k.arg p 2).toInt hg hu
      rcases sysRead_cases h₁ with ⟨-, hsame, -⟩ | ⟨-, k₁, h₁, h₂⟩
      · exact absurd hsame hp
      · have hn := hq.trans (.updNext hq.good (hq.used hu) (o := none) (by simp))
        exact hresched (block_quiet (X := (· = p)) hn.good (hn.used hu) rfl h₁).good
          (block_parked .read hn.good (hn.used hu) (.inr (.inr (.inr rfl))) h₁) h₂

/-- A process that its request has blocked keeps the code of the request. -/
theorem ret_of_blocked (hg : Good k) (hu : k.Used p) (hs : serve k p a req = .ok (k', p'))
    (hp : p ≠ p') (hb : (k'.proctab p).state = .blocked) : (k'.proctab p).ret = req.code := by
  cases serve_parked hg hu hs (Ne.symm hp) with
  | able h => rcases h with h | h <;> simp [hb] at h
  | asleep _ h => simp [hb] at h
  | stopped _ h => simp [hb] at h
  | blocked _ _ hret => exact hret

/-! ## The outstanding call -/

@[simp] theorem History.served_call (h : History) (k : Kernel) (p : Slot) (a : Ambient)
    (req : Request) : (h.served k p a req).call = h.call := by
  unfold served
  split
  case h_2 => rfl
  case h_6 => rfl
  all_goals split <;> rfl

@[simp] theorem History.deliver_call (h : History) (k : Kernel) (p : Slot) :
    (h.deliver k p).call = h.call := by
  unfold deliver
  split <;> rfl

/-- A trap with one of the four requests is a system call. -/
theorem Cause.call_of_blocks {c : Cause} (h : c.request.blocks) (pcb : Pcb) (esp : Word) :
    c.call = some (c.request, (pcb.enter esp c).args) := by
  cases c with
  | syscall req args => rfl
  | timer eax => exact absurd h (by simp [request, Request.blocks])
  | keyboard eax => exact absurd h (by simp [request, Request.blocks])

/-- Every blocked process is in a call that blocks and has not returned: `ret` is the
number of that call and `args` points to its arguments. -/
structure InCall (s : Recorded) : Prop extends Sound s.d where
  call : ∀ q, (s.d.k.proctab q).state = .blocked →
    ∃ req : Request, req.blocks ∧ s.h.call q = some (req, (s.d.k.proctab q).args)
      ∧ (s.d.k.proctab q).ret = req.code

theorem Booted.inCall {s : Recorded} (h : Booted s.d) : InCall s where
  toSound := h.sound
  call q hq := by
    rw [h.state] at hq
    split at hq
    · cases hq
    split at hq <;> cases hq

theorem InCall.turn {s s' : Recorded} {t : Trap} (hs : InCall s) (h : s.turn t = .ok s') :
    InCall s' := by
  refine ⟨hs.toSound.turn (Recorded.turn_d h), fun q hq => ?_⟩
  obtain ⟨k₂, h₂, ht⟩ := Recorded.turn_cases hs.toSound h
  by_cases hqp : q = s'.d.p
  · -- the process on the processor runs
    have hrun := (hs.toSound.turn (Recorded.turn_d h)).running
    rw [← hqp, hq] at hrun
    cases hrun
  · have hk : s'.d.k.proctab q = k₂.proctab q := by
      rw [ht.loopTop, loopTop_proctab ht.used, if_neg hqp]
    have hcall : s'.h.call q = (s.h.setCall s.d.p t.cause.call).call q := by
      rw [ht.delivered, ht.noted]
      simp [hqp]
    rw [hk] at hq ⊢
    rw [hcall]
    obtain ⟨hsame, hst⟩ := ht.served.waiting hqp (.inl hq)
    by_cases hp : q = s.d.p
    · subst hp
      have hg := contextswitch_good hs.good hs.used t
      have hu := contextswitch_used (p := s.d.p) hs.used t
      obtain ⟨hb, hr⟩ : t.cause.request.blocks
          ∧ (k₂.proctab s.d.p).ret = t.cause.request.code := by
        cases serve_parked hg hu ht.serve (Ne.symm hqp) with
        | able h => exact absurd h (by simp [hq])
        | blocked hb _ hr => exact ⟨hb, hr⟩
        | asleep _ h => exact absurd h (by simp [hq])
        | stopped _ h => exact absurd h (by simp [hq])
      refine ⟨_, hb, ?_, hr⟩
      rw [hsame.args, contextswitch_proctab, if_pos rfl]
      simpa using Cause.call_of_blocks hb _ _
    · obtain ⟨hst₁, hr₁⟩ := hst hp
      rw [contextswitch_proctab, if_neg hp] at hst₁ hr₁ hsame
      obtain ⟨req, hb, hc, hr⟩ := hs.call q (hst₁ ▸ hq)
      refine ⟨req, hb, ?_, hr₁.trans hr⟩
      rw [hsame.args]
      simpa [hp] using hc

theorem inCall_of_reachable {s : Recorded} (h : recorder.Reachable s) : InCall s :=
  TSys.Inductive.holds (T := recorder) (I := InCall)
    ⟨fun _ h₀ => (booted_of_init h₀.1).inCall, fun _ _ _ hs _ ht => hs.turn ht⟩ h

/-! ## Processes that have not stopped -/

/-- The process has not stopped. -/
def Pcb.alive (c : Pcb) : Prop := c.state ≠ .stopped ∧ c.state ≠ .dead

theorem Pcb.alive_of_blocked {c : Pcb} (h : c.state = .blocked) : c.alive := by
  simp [Pcb.alive, h]

theorem Pcb.Sched.alive {c c' : Pcb} (h : c.Sched c') (hc : c.alive) : c'.alive := by
  unfold Pcb.alive at hc ⊢
  rcases h with ⟨hs, -⟩ | h | h
  · rwa [hs]
  · simp [h]
  · simp [h]

/-- Serving a request only schedules the processes that have not stopped, but for the one
served. -/
theorem Served.sched {req : Request} {q : Slot} (h : Served k p a req k' p') (hq : q ≠ p)
    (ha : (k.proctab q).alive) : (k.proctab q).Sched (k'.proctab q) := by
  have hother : ∀ {i : Slot} {f : Pcb → Pcb}, Quiet (· = p) (k.upd i f) k' → q ≠ i →
      (k.proctab q).Sched (k'.proctab q) := by
    intro i f hx hi
    have hs := hx.sched q hq
    rwa [Kernel.upd_proctab_ne _ _ _ hi] at hs
  cases h with
  | quiet _ hx => exact hx.sched q hq
  | create _ _ i _ hi hx =>
      refine hother hx ?_
      rintro rfl
      obtain ⟨-, hs | hs⟩ := freeSlot_spec hi
      · exact absurd hs ha.1
      · exact absurd hs ha.2
  | install _ _ _ hx => exact hother hx hq
  | sigreturn _ _ hk =>
      rw [hk, sysSigreturn, Kernel.upd_proctab_ne _ _ _ hq]
      exact .refl _
  | post _ _ _ hx _ =>
      by_cases hqt : q = slotOf (k.arg p 0)
      · -- a signal that is noted changes neither the state nor `ret`
        have hs := hx.sched q hq
        rw [← hqt, Kernel.upd_proctab_self] at hs
        exact hs
      · exact hother hx hqt
  | openFirst _ _ _ hx => exact hother hx hq

/-- A turn stops no process but one that makes the request. -/
theorem alive_turn {s s' : Disp} {t : Trap} (hs : Sound s) (h : turn s t = .ok s') {q : Slot}
    (ha : (s.k.proctab q).alive) (hstop : s.p = q → t.cause.request ≠ .stop) :
    (s'.k.proctab q).alive := by
  obtain ⟨k₂, hserve, he⟩ := turn_cases h
  have hg := contextswitch_good hs.good hs.used t
  have hu := contextswitch_used (p := s.p) hs.used t
  obtain ⟨hserved, hu₂⟩ := serve_served hg hu hserve
  by_cases hqp : q = s'.p
  · rw [hqp]
    have hrun := (hs.turn h).running
    simp [Pcb.alive, hrun]
  · have hk : s'.k.proctab q = k₂.proctab q := by
      rw [he, loopTop_proctab hu₂, if_neg hqp]
    rw [hk]
    by_cases hp : q = s.p
    · rw [hp] at hqp ⊢
      cases serve_parked hg hu hserve (Ne.symm hqp) with
      | able h => rcases h with h | h <;> simp [Pcb.alive, h]
      | blocked _ h _ => simp [Pcb.alive, h]
      | asleep _ h => simp [Pcb.alive, h]
      | stopped hreq _ => exact absurd hreq (hstop hp.symm)
    · have hc : (contextswitch s.k s.p t).proctab q = s.k.proctab q := by
        rw [contextswitch_proctab, if_neg hp]
      exact (hserved.sched hp (hc ▸ ha)).alive (hc ▸ ha)

end Xeros
