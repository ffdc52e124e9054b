import Xeros.Logic.Quiet

/-!
# Requests taken apart

What a request that came back has done on the way. Each of the longer `sys` functions is
inverted once, and so is the `switch` of `dispatch`; the invariants are proved by cases on
these and do not unfold the functions again.
-/

namespace Xeros

open Lib

variable {k k' : Kernel} {p p' : Slot} {a : Ambient}

/-! ## Messages -/

/-- The end of a call that did not block: its value is stored and `p` is made
ready. -/
abbrev answered (k : Kernel) (p q : Slot) (n : Int) : Kernel :=
  (k.setRet p (toWord n)).setRet q (toWord n)

/-- `SYS_SEND` completes, fails or blocks. -/
theorem sysSend_cases (h : sysSend k p a = .ok k') :
    ∃ n k₀, send k a (k.arg p 0) (k.arg p 1) (k.arg p 2).toInt p = (n, k₀) ∧
      ((0 < n ∧ ∃ k₁ k₂ r, ready (answered k₀ p (slotOf (k.arg p 0)) n) p = .ok k₁ ∧
          remove k₁ a.fuel (getQ (k₁.proctab (slotOf (k.arg p 0))).state)
            (k₁.proctab (slotOf (k.arg p 0))).pid = .ok (k₂, r) ∧
          ready k₂ (slotOf (k.arg p 0)) = .ok k') ∨
        (n < 0 ∧ ready (k₀.setRet p (toWord n)) p = .ok k') ∨
        (n = 0 ∧ block k₀ a.fuel p Request.send.code = .ok k')) := by
  unfold sysSend at h
  dsimp only at h
  obtain ⟨n, k₀, hsend⟩ : ∃ n k₀,
      send k a (k.arg p 0) (k.arg p 1) (k.arg p 2).toInt p = (n, k₀) := ⟨_, _, rfl⟩
  rw [hsend] at h
  refine ⟨n, k₀, hsend, ?_⟩
  split at h
  · rename_i hn
    simp only [Run.bind_eq_ok] at h
    obtain ⟨k₁, h₁, ⟨k₂, r⟩, h₂, h⟩ := h
    exact .inl ⟨hn, k₁, k₂, r, h₁, h₂, h⟩
  split at h
  · rename_i hn
    exact .inr (.inl ⟨hn, h⟩)
  · exact .inr (.inr ⟨by omega, h⟩)

/-- `SYS_RECV` completes, fails or blocks. It completes without a sender to release
if the cell names a slot that was never used. -/
theorem sysRecv_cases (h : sysRecv k p a = .ok k') :
    ∃ n k₀, recv k a (k.arg p 0) (k.arg p 1) (k.arg p 2).toInt p = .ok (n, k₀) ∧
      ((0 < n ∧ ∃ k₁, ready (answered k₀ p (slotOf (k₀.mem.word (k.arg p 0))) n) p = .ok k₁ ∧
          (((k₁.proctab (slotOf (k₀.mem.word (k.arg p 0)))).pid ≠ 0 ∧
            ∃ k₂ r, remove k₁ a.fuel
                (getQ (k₁.proctab (slotOf (k₀.mem.word (k.arg p 0)))).state)
                (k₁.proctab (slotOf (k₀.mem.word (k.arg p 0)))).pid = .ok (k₂, r) ∧
              ready k₂ (slotOf (k₀.mem.word (k.arg p 0))) = .ok k') ∨
          ((k₁.proctab (slotOf (k₀.mem.word (k.arg p 0)))).pid = 0 ∧ k' = k₁))) ∨
        (n < 0 ∧ ready (k₀.setRet p (toWord n)) p = .ok k') ∨
        (n = 0 ∧ block k₀ a.fuel p Request.recv.code = .ok k')) := by
  unfold sysRecv at h
  simp only [Run.bind_eq_ok] at h
  obtain ⟨⟨n, k₀⟩, h₀, h⟩ := h
  dsimp only at h
  refine ⟨n, k₀, h₀, ?_⟩
  split at h
  · rename_i hn
    simp only [Run.bind_eq_ok] at h
    obtain ⟨k₁, h₁, h⟩ := h
    refine .inl ⟨hn, k₁, h₁, ?_⟩
    split at h
    · rename_i hpid
      simp only [Run.bind_eq_ok] at h
      obtain ⟨⟨k₂, r⟩, h₂, h⟩ := h
      exact .inl ⟨hpid, k₂, r, h₂, h⟩
    · rename_i hpid
      simp only [pure, Except.pure, Except.ok.injEq] at h
      exact .inr ⟨Classical.not_not.mp hpid, h.symm⟩
  split at h
  · rename_i hn
    exact .inr (.inl ⟨hn, h⟩)
  · exact .inr (.inr ⟨by omega, h⟩)

/-! ## Devices -/

/-- `printbuffer` writes to the memory, if it returns. -/
theorem printbuffer_cases {buff : Word} {len : Int} (h : printbuffer k a buff len = .ok k') :
    ∃ m, k' = k.setMem m := by
  unfold printbuffer at h
  split at h
  · simp only [pure, Except.pure, Except.ok.injEq] at h
    exact ⟨_, h.symm⟩
  · cases h

theorem sysWrite_cases (h : sysWrite k p a = .ok k') :
    ∃ m, k' = (diWrite (k.setMem m) p (k.arg p 0).toInt (k.arg p 1) (k.arg p 2).toInt).2.setRet p
      (toWord (diWrite (k.setMem m) p (k.arg p 0).toInt (k.arg p 1) (k.arg p 2).toInt).1) := by
  simp only [sysWrite, Run.bind_eq_ok, pure, Except.pure, Except.ok.injEq] at h
  obtain ⟨k₁, h₁, rfl⟩ := h
  obtain ⟨m, rfl⟩ := printbuffer_cases h₁
  exact ⟨m, rfl⟩

/-- What a read does after the device call: unless the device has registered it, its caller
gets a value and stays on the processor. -/
theorem sysRead_cases (h : sysRead k p a = .ok (k', p')) :
    (diRead k p (k.arg p 0).toInt (k.arg p 1) (k.arg p 2).toInt).1 ≠ registeredKbdread ∧
      p' = p ∧
      (∃ v, k' = (diRead k p (k.arg p 0).toInt (k.arg p 1) (k.arg p 2).toInt).2.setRet p v) ∨
    (diRead k p (k.arg p 0).toInt (k.arg p 1) (k.arg p 2).toInt).1 = registeredKbdread ∧
      ∃ k₁, block ((diRead k p (k.arg p 0).toInt (k.arg p 1) (k.arg p 2).toInt).2.upd p
          fun c => c.setNext none) a.fuel p Request.read.code = .ok k₁ ∧
        reschedule k₁ = .ok (k', p') := by
  unfold sysRead at h
  generalize diRead k p (k.arg p 0).toInt (k.arg p 1) (k.arg p 2).toInt = d at h ⊢
  dsimp only at h
  have hstay : ∀ {v : Word}, d.1 ≠ registeredKbdread →
      (.ok (d.2.setRet p v, p) : Run (Kernel × Slot)) = .ok (k', p') →
      d.1 ≠ registeredKbdread ∧ p' = p ∧ ∃ v, k' = d.2.setRet p v := by
    intro v hne he
    simp only [Except.ok.injEq, Prod.mk.injEq] at he
    exact ⟨hne, he.2.symm, v, he.1.symm⟩
  split at h
  · rename_i heof
    exact .inl (hstay (by rw [heof]; decide) h)
  split at h
  · rename_i hreg
    exact .inr ⟨hreg, Run.bind_eq_ok.mp h⟩
  · rename_i hne
    split at h
    · exact .inl (hstay hne h)
    · exact .inl (hstay hne h)

/-! ## Signals -/

/-- The signals that `signal` accepts for a pid. -/
def accepts (k : Kernel) (pid signo : Int) : Prop :=
  minSignal ≤ pid ∧ pid ≤ maxSignal
    ∧ bit signo &&& (k.proctab (slotOf (toWord pid))).sigAllow ≠ 0

instance (k : Kernel) (pid signo : Int) : Decidable (accepts k pid signo) :=
  inferInstanceAs (Decidable (_ ∧ _ ∧ _))

/-- `validpid` never returns 0, so the mask alone decides. -/
theorem signal_eq (k : Kernel) (a : Ambient) (pid signo : Int) :
    signal k a pid signo =
      if accepts k pid signo then
        (post k (slotOf (toWord pid)) signo).map fun k => (sighdlrOk, k)
      else .ok (invalidSignal, k) := by
  have hv : validpid k a pid ≠ 0 := by
    unfold validpid
    split <;> decide
  have hs : validsignal k signo pid < 0 ↔ ¬ accepts k pid signo := by
    unfold validsignal accepts
    split
    · rename_i h
      refine iff_of_true (by decide) ?_
      rintro ⟨h₁, h₂, -⟩
      omega
    split
    · rename_i h
      refine iff_of_true (by decide) ?_
      rintro ⟨-, -, h₃⟩
      exact h₃ h
    · rename_i h₁ h₂
      refine iff_of_false (by decide) fun h => h ⟨?_, ?_, h₂⟩ <;> omega
  unfold signal
  rw [if_neg hv]
  by_cases h : accepts k pid signo
  · rw [if_neg (by rw [hs]; simpa using h), if_pos h]
    cases post k (slotOf (toWord pid)) signo <;> rfl
  · rw [if_pos (hs.mpr h), if_neg h]
    rfl

/-- What posting a signal does: it is pended, and a process that waits is made ready with a
value. -/
theorem post_cases {t : Slot} {signo : Int} (h : post k t signo = .ok k') :
    ((k.proctab t).waiting ∧ ∃ k₁ v,
      ready (k.upd t fun c => c.pend signo) t = .ok k₁ ∧ k' = k₁.setRet t v) ∨
    (¬ (k.proctab t).waiting ∧ k' = k.upd t fun c => c.pend signo) := by
  have hst : ((k.upd t fun c => c.pend signo).proctab t).state = (k.proctab t).state := by simp
  unfold post at h
  dsimp only at h
  rw [hst] at h
  split at h
  · rename_i hb
    simp only [Run.bind_eq_ok] at h
    obtain ⟨k₁, h₁, h⟩ := h
    split at h <;> simp only [pure, Except.pure, Except.ok.injEq] at h
    · exact .inl ⟨.inl hb, k₁, _, h₁, h.symm⟩
    · exact .inl ⟨.inl hb, k₁, _, h₁, h.symm⟩
  · rename_i hs
    simp only [Run.bind_eq_ok, pure, Except.pure, Except.ok.injEq] at h
    obtain ⟨k₁, h₁, rfl⟩ := h
    exact .inl ⟨.inr hs, k₁, _, h₁, rfl⟩
  · rename_i hb hs
    simp only [pure, Except.pure, Except.ok.injEq] at h
    exact .inr ⟨not_or.mpr ⟨hb, hs⟩, h.symm⟩

theorem toWord_toInt (w : Word) : toWord w.toInt = w := BitVec.ofInt_toInt

/-- What `SYS_SIGKILL` does: it posts the signal if the target accepts it, and gives the caller
the result. -/
theorem sysSigkill_cases (h : sysSigkill k p a = .ok k') :
    (accepts k (k.arg p 0).toInt (k.arg p 1).toInt ∧
      ∃ k₁, post k (slotOf (k.arg p 0)) (k.arg p 1).toInt = .ok k₁ ∧
        k' = k₁.setRet p (toWord sighdlrOk)) ∨
    (¬ accepts k (k.arg p 0).toInt (k.arg p 1).toInt ∧ k' = k.setRet p (toWord invalidSignal)) := by
  simp only [sysSigkill, Run.bind_eq_ok, pure, Except.pure, Except.ok.injEq] at h
  obtain ⟨⟨rc, k₁⟩, h₁, rfl⟩ := h
  rw [signal_eq, toWord_toInt] at h₁
  split at h₁
  · rename_i hacc
    cases hpost : post k (slotOf (k.arg p 0)) (k.arg p 1).toInt with
    | error e =>
        rw [hpost] at h₁
        cases h₁
    | ok k₂ =>
        rw [hpost] at h₁
        cases h₁
        exact .inl ⟨hacc, k₁, rfl, rfl⟩
  · rename_i hacc
    cases h₁
    exact .inr ⟨hacc, rfl⟩

/-! ## Creation -/

theorem remove_heap {Q : Option QRef} {pid : Word} {fuel : Nat} {r : Int}
    (h : remove k fuel Q pid = .ok (k', r)) : k'.heap = k.heap := by
  cases Q with
  | none => cases h
  | some Q =>
      rcases removeLoop_set h with rfl | ⟨b, -, rfl | rfl⟩
      · rfl
      · cases Q <;> rfl
      · cases Q <;> rfl

/-- `create` first takes the slot found out of `dead_q`. When no slot is free it writes the word
past the table; otherwise the slot gets its new pid, and a context if the allocator has a block
for the stack. -/
theorem create_cases {fuel : Nat} {fp stack pid : Word}
    (h : create k fuel fp stack = .ok (pid, k')) :
    (∃ k₁ n, freeSlot k = none ∧
      remove k fuel (some .deadQ) (BitVec.ofNat 32 maxProc) = .ok (k₁, n) ∧
      pid = -1 ∧ k' = k₁.setPastPid (nextPid k₁.pastPid maxProc)) ∨
    ∃ i k₁ n b heap, freeSlot k = some i ∧
      remove k fuel (some .deadQ) (BitVec.ofNat 32 i.val) = .ok (k₁, n) ∧
      kmalloc k.heap fuel ((if stack.slt procStack then procStack else stack) * 2)
        = .ok (b, heap) ∧
      ((b = 0 ∧ pid = -1 ∧ k' = (k₁.upd i fun c => c.renew i).setHeap heap) ∨
        (b ≠ 0 ∧ pid = (k'.proctab i).pid ∧
          launch ((k₁.upd i fun c => c.renew i).setHeap heap) i
            (b + (if stack.slt procStack then procStack else stack) - 4 - 44) fp = .ok k')) := by
  unfold create at h
  dsimp only at h
  split at h
  · rename_i hf
    simp only [Run.bind_eq_ok, pure, Except.pure, Except.ok.injEq, Prod.mk.injEq] at h
    obtain ⟨⟨k₁, n⟩, h₁, rfl, rfl⟩ := h
    exact .inl ⟨k₁, n, hf, h₁, rfl, rfl⟩
  · rename_i i hf
    simp only [Run.bind_eq_ok] at h
    obtain ⟨⟨k₁, n⟩, h₁, ⟨b, heap⟩, h₂, h⟩ := h
    refine .inr ⟨i, k₁, n, b, heap, hf, h₁, remove_heap h₁ ▸ h₂, ?_⟩
    split at h
    · rename_i hb
      simp only [pure, Except.pure, Except.ok.injEq, Prod.mk.injEq] at h
      exact .inl ⟨hb, h.1.symm, h.2.symm⟩
    · rename_i hb
      simp only [Run.bind_eq_ok, pure, Except.pure, Except.ok.injEq, Prod.mk.injEq] at h
      obtain ⟨k₂, h₃, rfl, rfl⟩ := h
      exact .inr ⟨hb, rfl, h₃⟩

theorem sysCreate_cases (h : sysCreate k p a = .ok k') :
    ∃ pid k₁, create k a.fuel (k.arg p 0) (k.arg p 1) = .ok (pid, k₁) ∧ k' = k₁.setRet p pid := by
  simp only [sysCreate, Run.bind_eq_ok, pure, Except.pure, Except.ok.injEq] at h
  obtain ⟨⟨pid, k₁⟩, h₁, rfl⟩ := h
  exact ⟨pid, k₁, h₁, rfl⟩

/-! ## Leaving the processor -/

theorem sysStop_cases (h : sysStop k p a = .ok k') :
    ∃ k₁, append (k.upd p fun c => (c.setState .stopped).setNext none) a.fuel .deadQ p = .ok k₁ ∧
      notifyWaiters k₁ a (k₁.proctab p).pid = .ok k' := by
  simp only [sysStop, Run.bind_eq_ok] at h
  exact h

theorem sysTimer_cases (h : sysTimer k p a = .ok (k', p')) :
    ∃ k₁ k₂, ready k p = .ok k₁ ∧ reschedule k₁ = .ok (k₂, p') ∧ tick k₂ a.fuel = .ok k' := by
  simp only [sysTimer, Run.bind_eq_ok, pure, Except.pure, Except.ok.injEq, Prod.mk.injEq] at h
  obtain ⟨k₁, h₁, ⟨k₂, q⟩, h₂, k₃, h₃, rfl, rfl⟩ := h
  exact ⟨k₁, k₂, h₁, h₂, h₃⟩

theorem sysSleep_cases (h : sysSleep k p a = .ok k') : sleep k a.fuel (k.arg p 0) p = .ok k' := by
  simp only [sysSleep, Run.bind_eq_ok] at h
  obtain ⟨_, -, _, -, h⟩ := h
  exact h

/-! ## The `switch` -/

/-- The `switch` of `dispatch` taken apart: what came back on the way, and the kernel and the
process that it ends with. -/
inductive Serving (k : Kernel) (p : Slot) (a : Ambient) : Request → Kernel → Slot → Prop
  | create {k' : Kernel} (h : sysCreate k p a = .ok k') : Serving k p a .create k' p
  | yield {k₁ k' : Kernel} {p' : Slot} (h : ready k p = .ok k₁)
      (hr : reschedule k₁ = .ok (k', p')) : Serving k p a .yield k' p'
  | stop {k₁ k' : Kernel} {p' : Slot} (h : sysStop k p a = .ok k₁)
      (hr : reschedule k₁ = .ok (k', p')) : Serving k p a .stop k' p'
  | getpid : Serving k p a .getpid (k.setRet p (k.proctab p).pid) p
  | puts : Serving k p a .puts k p
  | send {k₁ k' : Kernel} {p' : Slot} (h : sysSend k p a = .ok k₁)
      (hr : reschedule k₁ = .ok (k', p')) : Serving k p a .send k' p'
  | recv {k₁ k' : Kernel} {p' : Slot} (h : sysRecv k p a = .ok k₁)
      (hr : reschedule k₁ = .ok (k', p')) : Serving k p a .recv k' p'
  | timer {k' : Kernel} {p' : Slot} (h : sysTimer k p a = .ok (k', p')) :
      Serving k p a .timer k' p'
  | sleep {k₁ k' : Kernel} {p' : Slot} (h : sysSleep k p a = .ok k₁)
      (hr : reschedule k₁ = .ok (k', p')) : Serving k p a .sleep k' p'
  | sighandler : Serving k p a .sighandler (sysSighandler k p) p
  | sigreturn : Serving k p a .sigreturn (sysSigreturn k p a) p
  | sigkill {k' : Kernel} (h : sysSigkill k p a = .ok k') : Serving k p a .sigkill k' p
  | noHandler (hallow : (k.proctab p).sigAllow = 0) :
      Serving k p a .sigwait (k.setRet p (toWord signalInvalid)) p
  | sigwait {k₁ k' : Kernel} {p' : Slot} (hallow : (k.proctab p).sigAllow ≠ 0)
      (h : sysSigwait k p a = .ok k₁) (hr : reschedule k₁ = .ok (k', p')) :
      Serving k p a .sigwait k' p'
  | openDev : Serving k p a .openDev
      ((diOpen k p (k.arg p 0)).2.setRet p (toWord (diOpen k p (k.arg p 0)).1)) p
  | close : Serving k p a .close
      ((diClose k p (k.arg p 0).toInt).2.setRet p (toWord (diClose k p (k.arg p 0).toInt).1)) p
  | write {k' : Kernel} (h : sysWrite k p a = .ok k') : Serving k p a .write k' p
  | read {k' : Kernel} {p' : Slot} (h : sysRead k p a = .ok (k', p')) : Serving k p a .read k' p'
  | ioctl : Serving k p a .ioctl
      ((diIoctl k a p (k.arg p 0).toInt (k.arg p 1).toInt (k.arg p 2)).2.setRet p
        (toWord (diIoctl k a p (k.arg p 0).toInt (k.arg p 1).toInt (k.arg p 2)).1)) p
  | keyboard {k' : Kernel} (h : sysKeyboard k a = .ok k') : Serving k p a .keyboard k' p
  | bad : Serving k p a .bad k p

theorem serve_cases {req : Request} (h : serve k p a req = .ok (k', p')) :
    Serving k p a req k' p' := by
  -- the requests that end with the caller on the processor
  have hstay : ∀ {r : Run Kernel}, (do return (← r, p) : Run (Kernel × Slot)) = .ok (k', p') →
      r = .ok k' ∧ p' = p := by
    intro r hr
    simp only [Run.bind_eq_ok, pure, Except.pure, Except.ok.injEq, Prod.mk.injEq] at hr
    obtain ⟨k₁, h₁, rfl, rfl⟩ := hr
    exact ⟨h₁, rfl⟩
  have hpure : ∀ {k₁ : Kernel}, (.ok (k₁, p) : Run (Kernel × Slot)) = .ok (k', p') →
      k' = k₁ ∧ p' = p := by
    intro k₁ hk
    simp only [Except.ok.injEq, Prod.mk.injEq] at hk
    exact ⟨hk.1.symm, hk.2.symm⟩
  -- those that give it up
  have hleave : ∀ {r : Run Kernel}, (do reschedule (← r) : Run (Kernel × Slot)) = .ok (k', p') →
      ∃ k₁, r = .ok k₁ ∧ reschedule k₁ = .ok (k', p') := fun hr => Run.bind_eq_ok.mp hr
  cases req with
  | create =>
      obtain ⟨h₁, rfl⟩ := hstay h
      exact .create h₁
  | yield =>
      obtain ⟨k₁, h₁, h₂⟩ := hleave h
      exact .yield h₁ h₂
  | stop =>
      obtain ⟨k₁, h₁, h₂⟩ := hleave h
      exact .stop h₁ h₂
  | getpid =>
      obtain ⟨rfl, rfl⟩ := hpure h
      exact .getpid
  | puts =>
      obtain ⟨rfl, rfl⟩ := hpure h
      exact .puts
  | send =>
      obtain ⟨k₁, h₁, h₂⟩ := hleave h
      exact .send h₁ h₂
  | recv =>
      obtain ⟨k₁, h₁, h₂⟩ := hleave h
      exact .recv h₁ h₂
  | timer => exact .timer h
  | sleep =>
      obtain ⟨k₁, h₁, h₂⟩ := hleave h
      exact .sleep h₁ h₂
  | sighandler =>
      obtain ⟨rfl, rfl⟩ := hpure h
      exact .sighandler
  | sigreturn =>
      obtain ⟨rfl, rfl⟩ := hpure h
      exact .sigreturn
  | sigkill =>
      obtain ⟨h₁, rfl⟩ := hstay h
      exact .sigkill h₁
  | sigwait =>
      by_cases hallow : (k.proctab p).sigAllow = 0
      · simp only [serve, if_pos hallow] at h
        obtain ⟨rfl, rfl⟩ := hpure h
        exact .noHandler hallow
      · simp only [serve, if_neg hallow] at h
        obtain ⟨k₁, h₁, h₂⟩ := hleave h
        exact .sigwait hallow h₁ h₂
  | openDev =>
      obtain ⟨rfl, rfl⟩ := hpure h
      exact .openDev
  | close =>
      obtain ⟨rfl, rfl⟩ := hpure h
      exact .close
  | write =>
      obtain ⟨h₁, rfl⟩ := hstay h
      exact .write h₁
  | read => exact .read h
  | ioctl =>
      obtain ⟨rfl, rfl⟩ := hpure h
      exact .ioctl
  | keyboard =>
      obtain ⟨h₁, rfl⟩ := hstay h
      exact .keyboard h₁
  | bad =>
      obtain ⟨rfl, rfl⟩ := hpure h
      exact .bad

end Xeros
