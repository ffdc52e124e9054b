import Xeros.Logic.Devices
import Xeros.Logic.Readers
import Xeros.Logic.Rets

/-!
# The dispatcher as a run of device calls

Apart from the five device calls no request changes a `dev_tab`. So a turn is at most one
call of `kernelDrivers` between steps that leave `dev_tab` alone, and what holds of all
sessions holds of the running kernel.
-/

namespace Xeros

open Lib

variable {k k' k₁ k₂ : Kernel} {p p' q : Slot} {a : Ambient} {req : Request} {fuel : Nat}

/-- The descriptors lead where they did. -/
def SameBase (k k' : Kernel) : Prop := SamePart (fun c j => (c.fd j).devTab) k k'

namespace SameBase

theorem untimed : Pcb.Untimed fun c j => (c.fd j).devTab :=
  ⟨⟨fun _ _ => rfl, fun _ _ => rfl⟩, fun _ _ => rfl⟩

theorem inherited : Pcb.Inherited fun c j => (c.fd j).devTab where
  next _ _ := rfl
  state _ _ := rfl
  esp _ _ := rfl
  pid _ _ := rfl
  sigPriority _ _ := rfl

theorem unqueued : Pcb.Unqueued fun c j => (c.fd j).devTab := untimed.toUnqueued

theorem refl (k : Kernel) : SameBase k k := SamePart.refl k

theorem trans (h₁ : SameBase k k₁) (h₂ : SameBase k₁ k₂) : SameBase k k₂ := SamePart.trans h₁ h₂

theorem of_proctab (h : k'.proctab = k.proctab) : SameBase k k' := by
  intro q
  rw [h]

theorem upd (k : Kernel) (q : Slot) {f : Pcb → Pcb} (hf : ∀ c, (f c).fd = c.fd) :
    SameBase k (k.upd q f) := by
  refine SamePart.upd k q (funext fun j => ?_)
  rw [hf]

theorem setRet (k : Kernel) (q : Slot) (v : Word) : SameBase k (k.setRet q v) :=
  upd k q fun _ => rfl

theorem answered (k : Kernel) (p q : Slot) (n : Int) : SameBase k (answered k p q n) :=
  (setRet k p _).trans (setRet _ q _)

theorem ready (h : ready k p = .ok k') : SameBase k k' := SamePart.ready unqueued h

theorem reschedule (h : reschedule k = .ok (k', p)) : SameBase k k' :=
  SamePart.reschedule unqueued h

theorem remove {Q : Option QRef} {pid : Word} {n : Int}
    (h : remove k fuel Q pid = .ok (k', n)) : SameBase k k' :=
  SamePart.of_relinked unqueued (.remove h)

theorem append {Q : QRef} (h : append k fuel Q p = .ok k') : SameBase k k' :=
  SamePart.of_relinked unqueued (.append h)

theorem block {code : Word} (h : block k fuel p code = .ok k') : SameBase k k' := by
  have hk : SameBase k (k.upd p fun c => c.toBlock code) := upd k p fun _ => rfl
  exact hk.trans (append h)

/-! ## Requests -/

theorem sysSend (h : sysSend k p a = .ok k') : SameBase k k' := by
  obtain ⟨n, k₀, h₀, h⟩ := sysSend_cases h
  have hk₀ : SameBase k k₀ := by
    rcases send_cases h₀ with ⟨r, -, -, rfl⟩ | ⟨-, -, rfl | ⟨v, rfl⟩⟩
    · exact of_proctab rfl
    · exact refl _
    · exact setRet k p v
  refine hk₀.trans ?_
  rcases h with ⟨-, k₁, k₂, r, h₁, h₂, h₃⟩ | ⟨-, h₁⟩ | ⟨-, h₁⟩
  · exact (((answered k₀ p _ n).trans (ready h₁)).trans (remove h₂)).trans (ready h₃)
  · exact (setRet k₀ p _).trans (ready h₁)
  · exact block h₁

theorem sysRecv (h : sysRecv k p a = .ok k') : SameBase k k' := by
  obtain ⟨n, k₀, h₀, h⟩ := sysRecv_cases h
  have hk₀ : SameBase k k₀ := by
    rcases recv_cases h₀ with ⟨q, -, -, rfl⟩ | ⟨-, -, rfl | ⟨v, rfl⟩⟩
    · exact of_proctab rfl
    · exact refl _
    · exact setRet k p v
  refine hk₀.trans ?_
  rcases h with ⟨-, k₁, h₁, ⟨-, k₂, r, h₂, h₃⟩ | ⟨-, rfl⟩⟩ | ⟨-, h₁⟩ | ⟨-, h₁⟩
  · exact (((answered k₀ p _ n).trans (ready h₁)).trans (remove h₂)).trans (ready h₃)
  · exact (answered k₀ p _ n).trans (ready h₁)
  · exact (setRet k₀ p _).trans (ready h₁)
  · exact block h₁

theorem notifyWaitersLoop {pid destpid : Word} {prev : Slot} {x : Option Slot}
    (h : notifyWaitersLoop pid fuel k prev x destpid = .ok k') : SameBase k k' := by
  induction fuel generalizing k prev x destpid with
  | zero => cases h
  | succ fuel ih =>
      cases x with
      | none =>
          simp only [Xeros.notifyWaitersLoop, pure, Except.pure, Except.ok.injEq] at h
          exact h ▸ refl k
      | some r =>
          simp only [Xeros.notifyWaitersLoop] at h
          split at h
          · simp only [Run.bind_eq_ok] at h
            obtain ⟨k₁, h₁, h⟩ := h
            have hcut : SameBase k (k.upd prev fun c => c.setNext (k.proctab r).next) :=
              upd k prev fun _ => rfl
            exact ((hcut.trans (setRet _ r _)).trans (ready h₁)).trans (ih h)
          · exact ih h

theorem sysStop (h : sysStop k p a = .ok k') : SameBase k k' := by
  obtain ⟨k₁, h₁, h⟩ := sysStop_cases h
  have hk : SameBase k (k.upd p fun c => (c.setState .stopped).setNext none) :=
    upd k p fun _ => rfl
  refine (hk.trans (append h₁)).trans ?_
  unfold notifyWaiters at h
  split at h
  · simp only [pure, Except.pure, Except.ok.injEq] at h
    exact h ▸ refl k₁
  · exact notifyWaitersLoop h

theorem sysSleep (h : sysSleep k p a = .ok k') : SameBase k k' :=
  SamePart.sleep untimed (sysSleep_cases h)

/-- Installing a handler for signal 31 overwrites the major number of descriptor 0 only. -/
theorem install (k : Kernel) (q : Slot) (n : Int) (fp : Word) :
    SameBase k (k.upd q fun c => c.install n fp) := by
  have hset : ∀ (c : Pcb) j, ((c.setHandler n fp).fd j).devTab = (c.fd j).devTab := by
    intro c j
    unfold Pcb.setHandler
    dsimp only
    split
    · rfl
    · dsimp only
      split
      · rename_i hj
        rw [hj]
      · rfl
  refine SamePart.upd k q (funext fun j => ?_)
  unfold Pcb.install
  dsimp only
  split
  · exact hset _ j
  · exact hset _ j

theorem sysSighandler (k : Kernel) (p : Slot) : SameBase k (sysSighandler k p) := by
  unfold Xeros.sysSighandler
  dsimp only
  split
  · exact setRet k p _
  · exact (install (k.setMem _) p _ _).trans (setRet _ p _)

theorem sysSigreturn (k : Kernel) (p : Slot) (a : Ambient) :
    SameBase k (sysSigreturn k p a) := by
  refine upd k p fun c => ?_
  unfold Pcb.sigreturn
  dsimp only
  split
  · split
    · rfl
    · rfl
  · rfl

theorem post {t : Slot} {signo : Int} (h : post k t signo = .ok k') : SameBase k k' := by
  have hk : SameBase k (k.upd t fun c => c.pend signo) := upd k t fun _ => rfl
  rcases post_cases h with ⟨-, k₁, v, h₁, rfl⟩ | ⟨-, rfl⟩
  · exact (hk.trans (ready h₁)).trans (setRet k₁ t v)
  · exact hk

theorem sysSigkill (h : sysSigkill k p a = .ok k') : SameBase k k' := by
  rcases sysSigkill_cases h with ⟨-, k₁, h₁, rfl⟩ | ⟨-, rfl⟩
  · exact (post h₁).trans (setRet k₁ p _)
  · exact setRet k p _

/-! ## The keyboard -/

theorem notifyReader {b : Bool} (h : notifyReader k fuel = .ok (k', b)) : SameBase k k' := by
  unfold Xeros.notifyReader at h
  split at h
  · simp only [pure, Except.pure, Except.ok.injEq, Prod.mk.injEq] at h
    exact h.1 ▸ refl k
  · rename_i r _
    split at h
    · simp only [notify, Run.bind_eq_ok, pure, Except.pure, Except.ok.injEq, Prod.mk.injEq] at h
      obtain ⟨k₁, ⟨_, -, ⟨k₂, n⟩, h₂, h₁⟩, rfl, -⟩ := h
      exact (((remove h₂).trans (setRet k₂ r _)).trans (ready h₁)).trans (of_proctab rfl)
    · simp only [pure, Except.pure, Except.ok.injEq, Prod.mk.injEq] at h
      exact h.1 ▸ refl k

theorem bufferKey {c ascii : Byte} (h : bufferKey k fuel c ascii = .ok k') : SameBase k k' := by
  have hs : SameBase k (storeAndFlush k c).1 := of_proctab (KbdOnly.storeAndFlush k c).proctab
  unfold Xeros.bufferKey at h
  split at h
  · simp only [pure, Except.pure, Except.ok.injEq] at h
    exact h ▸ refl k
  split at h
  · rename_i k₁ hk₁
    rw [hk₁] at hs
    simp only [pure, Except.pure, Except.ok.injEq] at h
    exact h ▸ hs
  · rename_i k₁ hk₁
    rw [hk₁] at hs
    simp only [Run.bind_eq_ok, pure, Except.pure, Except.ok.injEq] at h
    obtain ⟨⟨k₂, woken⟩, h₁, rfl⟩ := h
    exact hs.trans (notifyReader h₁)

theorem handleKey {c ascii : Byte} (h : handleKey k fuel c ascii = .ok k') : SameBase k k' := by
  unfold Xeros.handleKey at h
  split at h
  · simp only [pure, Except.pure, Except.ok.injEq] at h
    exact h ▸ refl k
  split at h
  · simp only [pure, Except.pure, Except.ok.injEq] at h
    exact h ▸ of_proctab (KbdOnly.storeKey k c).proctab
  split at h
  · simp only [Run.bind_eq_ok] at h
    obtain ⟨⟨k₁, woken⟩, h₁, h⟩ := h
    have hc : SameBase k (completeRead k c) := of_proctab (KbdOnly.completeRead k c).proctab
    have hk₁ := hc.trans (notifyReader h₁)
    split at h
    · simp only [pure, Except.pure, Except.ok.injEq] at h
      exact h ▸ hk₁
    · exact hk₁.trans (bufferKey h)
  · exact bufferKey h

theorem sysKeyboard (h : sysKeyboard k a = .ok k') : SameBase k k' := by
  unfold Xeros.sysKeyboard at h
  split at h
  · have hk : SameBase k (k.setKbd { k.kbd with keyState := (kbtoa k.kbd.keyState a.datasrc).2 }) :=
      of_proctab rfl
    exact hk.trans (handleKey h)
  · simp only [pure, Except.pure, Except.ok.injEq] at h
    exact h ▸ refl k

/-! ## Between two requests -/

theorem contextswitch (k : Kernel) (p : Slot) (t : Trap) : SameBase k (contextswitch k p t) := by
  have henter : ∀ c : Pcb, (c.enter t.esp t.cause).fd = c.fd := by
    intro c
    cases t.cause with
    | syscall req args => rfl
    | timer eax => rfl
    | keyboard eax => rfl
  exact upd (k.setMem _) p henter

end SameBase

/-! ## Turns -/

/-- Serving a request makes one device call of its process, or changes no `dev_tab`. -/
theorem serve_session (h : serve k p a req = .ok (k', p')) :
    SameBase k k' ∨
      ∃ k₁ c, SameBase k k₁ ∧ SameBase (kernelDrivers.run k₁ p c).1.2 k' := by
  -- a call of the kernel, after which the result is stored
  have hcall : ∀ {d : Int × Kernel} (k₁ : Kernel) (c : DeviceCall),
      (kernelDrivers.run k₁ p c).1 = d → SameBase k k₁ → SameBase d.2 k' →
      SameBase k k' ∨ ∃ k₁ c, SameBase k k₁ ∧ SameBase (kernelDrivers.run k₁ p c).1.2 k' := by
    intro d k₁ c hd h₁ h₂
    exact .inr ⟨k₁, c, h₁, hd ▸ h₂⟩
  cases serve_cases h with
  | openDev =>
      exact hcall k (.openDev (k.arg p 0)) (kernelDrivers_diOpen k p _) (.refl k) (.setRet _ p _)
  | close =>
      exact hcall k (.close (k.arg p 0).toInt) (kernelDrivers_diClose k p _) (.refl k)
        (.setRet _ p _)
  | write h₁ =>
      obtain ⟨m, rfl⟩ := sysWrite_cases h₁
      exact hcall (k.setMem m) (.write (k.arg p 0).toInt (k.arg p 1) (k.arg p 2).toInt)
        (kernelDrivers_diWrite _ p _ _ _) (.of_proctab rfl) (.setRet _ p _)
  | read h₁ =>
      refine hcall k (.read (k.arg p 0).toInt (k.arg p 1) (k.arg p 2).toInt)
        (kernelDrivers_diRead k p _ _ _) (.refl k) ?_
      rcases sysRead_cases h₁ with ⟨-, rfl, v, rfl⟩ | ⟨-, k₁, h₁, h₂⟩
      · exact .setRet _ p' v
      · have hu : SameBase (diRead k p (k.arg p 0).toInt (k.arg p 1) (k.arg p 2).toInt).2
            ((diRead k p (k.arg p 0).toInt (k.arg p 1) (k.arg p 2).toInt).2.upd p
              fun c => c.setNext none) := .upd _ p fun _ => rfl
        exact (hu.trans (.block h₁)).trans (.reschedule h₂)
  | ioctl =>
      exact hcall k (.ioctl (k.arg p 0).toInt a (k.arg p 1).toInt (k.arg p 2))
        (kernelDrivers_diIoctl k p a _ _ _) (.refl k) (.setRet _ p _)
  | timer h₁ => exact .inl (SamePart.sysTimer SameBase.untimed h₁)
  | stop h₁ h₂ => exact .inl ((SameBase.sysStop h₁).trans (.reschedule h₂))
  | yield h₁ h₂ => exact .inl ((SameBase.ready h₁).trans (.reschedule h₂))
  | send h₁ h₂ => exact .inl ((SameBase.sysSend h₁).trans (.reschedule h₂))
  | recv h₁ h₂ => exact .inl ((SameBase.sysRecv h₁).trans (.reschedule h₂))
  | sleep h₁ h₂ => exact .inl ((SameBase.sysSleep h₁).trans (.reschedule h₂))
  | create h₁ =>
      obtain ⟨pid, k₂, h₂, rfl⟩ := sysCreate_cases h₁
      have hk : SameBase k k₂ := SamePart.create SameBase.inherited h₂
      exact .inl (hk.trans (.setRet k₂ p pid))
  | getpid => exact .inl (.setRet k p _)
  | puts | bad => exact .inl (.refl k)
  | sighandler => exact .inl (.sysSighandler k p)
  | sigreturn => exact .inl (.sysSigreturn k p a)
  | sigkill h₁ => exact .inl (.sysSigkill h₁)
  | noHandler _ => exact .inl (.setRet k p _)
  | sigwait _ h₁ h₂ =>
      have hu : SameBase k (k.upd p fun c => { c with sigwaiter := 1, next := none }) :=
        .upd k p fun _ => rfl
      exact .inl ((hu.trans (.block h₁)).trans (.reschedule h₂))
  | keyboard h₁ => exact .inl (.sysKeyboard h₁)

section Runs

open Drivers

variable {o : Slot → Fin maxFiles → Option Word} {d d' : Disp} {t : Trap}

/-- What keeps every `dev_tab` is a step of a session. -/
theorem SameBase.step (h : SameBase k k') :
    kernelDrivers.calls.step ⟨k, o⟩ .other ⟨k', o⟩ := by
  refine ⟨fun q j => ?_, rfl⟩
  exact congrFun (h q) j

/-- A turn of the dispatcher is a run of device calls. -/
theorem turn_session (h : turn d t = .ok d') :
    ∃ o', kernelDrivers.calls.Path TSys.anyStep ⟨d.k, o⟩ ⟨d'.k, o'⟩ := by
  simp only [turn, Run.bind_eq_ok, pure, Except.pure, Except.ok.injEq] at h
  obtain ⟨⟨k₂, p₂⟩, h₂, rfl⟩ := h
  have hin := SameBase.contextswitch d.k d.p t
  have hout := SamePart.loopTop SameBase.inherited k₂ p₂
  rcases serve_session h₂ with hk | ⟨k₁, c, h₁, hk⟩
  · exact ⟨o, .tail .refl trivial ((hin.trans hk).trans hout).step⟩
  · -- into the kernel, the call, and back
    have hbefore : kernelDrivers.calls.Path TSys.anyStep ⟨d.k, o⟩ ⟨k₁, o⟩ :=
      .tail .refl trivial (hin.trans h₁).step
    have hcall : kernelDrivers.calls.Path TSys.anyStep ⟨d.k, o⟩
        ⟨(kernelDrivers.run k₁ d.p c).1.2, kernelDrivers.opened ⟨k₁, o⟩ d.p c⟩ :=
      .tail (a := .call d.p c) hbefore trivial rfl
    exact ⟨_, hcall.tail trivial (hk.trans hout).step⟩

/-- The first process starts after steps that keep every `dev_tab` as `dispatchinit` leaves
it. -/
theorem session_of_init (h : dispatcher.init d) :
    ∃ o, kernelDrivers.calls.Reachable ⟨d.k, o⟩ := by
  obtain ⟨img, h⟩ := h
  have hboot : SameBase (dispatchinit img) d.k := SamePart.boot SameBase.inherited h
  have hstart : kernelDrivers.calls.init ⟨dispatchinit img, fun _ _ => none⟩ :=
    fun q j => ⟨rfl, rfl⟩
  exact ⟨_, ⟨_, hstart, .tail .refl trivial hboot.step⟩⟩

/-- The running kernel is a session of its drivers. -/
theorem session_of_reachable (h : dispatcher.Reachable d) :
    ∃ o, kernelDrivers.calls.Reachable ⟨d.k, o⟩ := by
  obtain ⟨d₀, h₀, hp⟩ := h
  refine hp.preserves (I := fun s => ∃ o, kernelDrivers.calls.Reachable ⟨s.k, o⟩)
    (session_of_init h₀) fun s t s' hs _ hst => ?_
  obtain ⟨o, ho⟩ := hs
  obtain ⟨o', hpath⟩ := turn_session (o := o) hst
  exact ⟨o', ho.path hpath⟩

/-- Whatever the processes do, every descriptor leads to the base of the table. -/
theorem devTab_of_reachable (h : dispatcher.Reachable d) (q : Slot) (j : Fin maxFiles) :
    ((d.k.proctab q).fd j).devTab = 0 := by
  obtain ⟨o, ho⟩ := session_of_reachable h
  exact onBase_of_reachable ho q j

end Runs

end Xeros
