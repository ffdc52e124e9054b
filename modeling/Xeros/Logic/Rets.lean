import Xeros.Logic.Safe
import Xeros.Logic.Parts

/-!
# Who writes `ret`

`ret` carries the saved `eax` of an interrupted process, the result of a call, the tag of
the call that blocks and the codes of those who wake up:

* **the queues** never write it, whatever order they are in;
* **a request** writes it in the pcb of the process that makes it, and in those of the
  processes that it wakes: the peer of a rendezvous, the waiters of a process that stops,
  the target of a signal and the reader of the keyboard;
* an interrupted process is ready or runs, so it is woken only where the kernel does not look
  at the state: by `notify_waiters` and, through the cell of a receive, by `SYS_RECV`.
-/

namespace Xeros

open Lib

variable {k k' k₁ k₂ : Kernel} {a : Ambient} {p p' q r : Slot} {req : Request} {fuel : Nat}

/-- The `ret` of `q` is the same. -/
def SameRet (q : Slot) (k k' : Kernel) : Prop := (k'.proctab q).ret = (k.proctab q).ret

namespace SameRet

theorem refl (k : Kernel) : SameRet q k k := rfl

theorem trans (h₁ : SameRet q k k₁) (h₂ : SameRet q k₁ k₂) : SameRet q k k₂ := Eq.trans h₂ h₁

theorem of_relinked (h : Relinked k k') : SameRet q k k' := h.ret q

theorem of_proctab (h : k'.proctab = k.proctab) : SameRet q k k' := by
  unfold SameRet
  rw [h]

/-- An update that leaves `ret` alone. -/
theorem upd (k : Kernel) (p : Slot) {f : Pcb → Pcb}
    (hf : (f (k.proctab p)).ret = (k.proctab p).ret) : SameRet q k (k.upd p f) := by
  unfold SameRet
  by_cases hq : q = p
  · subst hq
    rw [Kernel.upd_proctab_self]
    exact hf
  · rw [Kernel.upd_proctab_ne _ _ _ hq]

/-- An update of another process. -/
theorem upd_ne (hq : q ≠ p) (k : Kernel) (f : Pcb → Pcb) : SameRet q k (k.upd p f) := by
  unfold SameRet
  rw [Kernel.upd_proctab_ne _ _ _ hq]

theorem setRet_ne (hq : q ≠ p) (k : Kernel) (v : Word) : SameRet q k (k.setRet p v) :=
  upd_ne hq k _

/-! ## Queues and sleepers -/

theorem untimed : Pcb.Untimed Pcb.ret := ⟨⟨fun _ _ => rfl, fun _ _ => rfl⟩, fun _ _ => rfl⟩

theorem ready (h : ready k p = .ok k') : SameRet q k k' :=
  SamePart.ready untimed.toUnqueued h q

theorem reschedule (h : reschedule k = .ok (k', p)) : SameRet q k k' :=
  SamePart.reschedule untimed.toUnqueued h q

theorem sleep {ms : Word} (h : sleep k fuel ms p = .ok k') : SameRet q k k' :=
  SamePart.sleep untimed h q

theorem sysTimer (h : sysTimer k p a = .ok (k', p')) : SameRet q k k' :=
  SamePart.sysTimer untimed h q

theorem block_ne (hq : q ≠ p) {code : Word} (h : block k fuel p code = .ok k') :
    SameRet q k k' :=
  (upd_ne hq k _).trans (of_relinked (.append h))

/-! ## Devices and creation -/

theorem of_fdsOnly (h : FdsOnly k k') : SameRet q k k' := by
  obtain ⟨d, hd⟩ := h.pcb q
  unfold SameRet
  rw [hd]

theorem create {fp stack pid : Word} (hq : freeSlot k ≠ some q)
    (h : create k fuel fp stack = .ok (pid, k')) : SameRet q k k' := by
  rcases create_cases h with ⟨k₁, n, -, h₁, -, rfl⟩ | ⟨i, k₁, n, b, heap, hi, h₁, -, h₂⟩
  · have hr : SameRet q k k₁ := of_relinked (.remove h₁)
    exact hr
  · have hqi : q ≠ i := fun he => hq (he ▸ hi)
    have hr : SameRet q k (k₁.upd i fun c => c.renew i) :=
      (of_relinked (.remove h₁)).trans (upd_ne hqi k₁ _)
    rcases h₂ with ⟨-, -, rfl⟩ | ⟨-, -, h₃⟩
    · exact hr
    · have hl := (upd_ne hqi _ _).trans (ready h₃)
      exact hr.trans hl

end SameRet

/-! ## Those who wake up -/

/-- The process is ready or runs. -/
def Pcb.able (c : Pcb) : Prop := c.state = .ready ∨ c.state = .running

theorem Pcb.able.alive {c : Pcb} (h : c.able) : c.alive := by
  rcases h with h | h <;> simp [Pcb.alive, h]

theorem Pcb.Sched.able {c c' : Pcb} (h : c.Sched c') (hc : c.able) : c'.able := by
  rcases h with ⟨hs, -⟩ | h
  · unfold Pcb.able
    rwa [hs]
  · exact h

/-- A process that is able is not the one that waits. -/
theorem Pcb.able.ne (hq : (k.proctab q).able) (hr : (k.proctab r).waiting) : q ≠ r := by
  rintro rfl
  rcases hq with h | h <;> simp [Pcb.waiting, h] at hr

namespace SameRet

theorem sysSend (hq : (k.proctab q).able) (hp : q ≠ p) (h : sysSend k p a = .ok k') :
    SameRet q k k' := by
  obtain ⟨n, k₀, h₀, h⟩ := sysSend_cases h
  have hk₀ : SameRet q k k₀ := by
    rcases send_cases h₀ with ⟨r, -, -, rfl⟩ | ⟨-, -, rfl | ⟨v, rfl⟩⟩
    · exact refl k
    · exact refl _
    · exact setRet_ne hp k v
  refine hk₀.trans ?_
  rcases h with ⟨hn, k₁, k₂, m, h₁, h₂, h₃⟩ | ⟨-, h₁⟩ | ⟨-, h₁⟩
  · -- the peer is blocked
    have hd : q ≠ slotOf (k.arg p 0) := hq.ne (.inl (send_pos h₀ hn))
    have ha := (setRet_ne hp k₀ (toWord n)).trans (setRet_ne hd _ (toWord n))
    exact ((ha.trans (ready h₁)).trans (of_relinked (.remove h₂))).trans (ready h₃)
  · exact (setRet_ne hp _ _).trans (ready h₁)
  · exact block_ne hp h₁

theorem sysRecv (hp : q ≠ p)
    (hrel : ∀ r, recvPeer k a p = .ok (some r) → ¬ EmptyMessage k r p → released k p r ≠ q)
    (h : sysRecv k p a = .ok k') : SameRet q k k' := by
  obtain ⟨n, k₀, h₀, h⟩ := sysRecv_cases h
  have hcases := recv_cases h₀
  have hk₀ : SameRet q k k₀ := by
    rcases hcases with ⟨r, -, -, rfl⟩ | ⟨-, -, rfl | ⟨v, rfl⟩⟩
    · exact refl k
    · exact refl _
    · exact setRet_ne hp k v
  refine hk₀.trans ?_
  rcases h with ⟨hn, k₁, h₁, h⟩ | ⟨-, h₁⟩ | ⟨-, h₁⟩
  · rcases hcases with ⟨r, hpeer, rfl, rfl⟩ | ⟨-, hn', -⟩
    · have hr : q ≠ released k p r := (hrel r hpeer (passMessage_pos.mp (by omega))).symm
      have ha := (setRet_ne hp (k.setMem (passMessage k r p).2)
        (toWord (passMessage k r p).1)).trans (setRet_ne hr _ (toWord (passMessage k r p).1))
      have hb := ha.trans (ready h₁)
      rcases h with ⟨-, k₂, m, h₂, h₃⟩ | ⟨-, rfl⟩
      · exact (hb.trans (of_relinked (.remove h₂))).trans (ready h₃)
      · exact hb
    · omega
  · exact (setRet_ne hp _ _).trans (ready h₁)
  · exact block_ne hp h₁

theorem post {t : Slot} {signo : Int} (hq : (k.proctab q).able)
    (h : post k t signo = .ok k') : SameRet q k k' := by
  have hn : SameRet q k (k.upd t fun c => c.pend signo) := upd k t rfl
  rcases post_cases h with ⟨hw, k₁, v, h₁, rfl⟩ | ⟨-, rfl⟩
  · exact (hn.trans (ready h₁)).trans (setRet_ne (hq.ne hw) k₁ v)
  · exact hn

theorem sysSigkill (hq : (k.proctab q).able) (hp : q ≠ p) (h : sysSigkill k p a = .ok k') :
    SameRet q k k' := by
  rcases sysSigkill_cases h with ⟨-, k₁, h₁, rfl⟩ | ⟨-, rfl⟩
  · exact (post hq h₁).trans (setRet_ne hp k₁ _)
  · exact setRet_ne hp k _

theorem sysKeyboard (hg : Good k) (hq : (k.proctab q).able) (h : sysKeyboard k a = .ok k') :
    SameRet q k k' := by
  rcases sysKeyboard_cases hg h with hk | ⟨r, hw⟩
  · exact of_proctab hk.proctab
  · exact (hw.other q (hq.ne (.inl hw.blocked))).2

end SameRet

/-! ## The waiters of a process that stops -/

/-- The walk of `notify_waiters` from `o`, with `d` left from the process before, finds `q`:
it is the first one that the kernel takes for a process waiting on `pid`. -/
inductive WalkFinds (k : Kernel) (pid : Word) (q : Slot) : Option Slot → Word → Prop
  | here {d : Word} (h : waitsOn k q d = pid) : WalkFinds k pid q (some q) d
  | next {r : Slot} {d : Word} (h : waitsOn k r d ≠ pid)
      (hn : WalkFinds k pid q (k.link r) (waitsOn k r d)) : WalkFinds k pid q (some r) d

/-- A link that leads nowhere, or back, does not lead to another process. -/
theorem WalkFinds.not_of_loop {pid d : Word} {o : Option Slot} (hr : r ≠ q)
    (hl : k.link r = none ∨ k.link r = some r) (ho : o = none ∨ o = some r) :
    ¬ WalkFinds k pid q o d := by
  intro h
  induction h with
  | here =>
      rcases ho with ho | ho
      · cases ho
      · exact hr (Option.some.inj ho).symm
  | next _ _ ih =>
      rcases ho with ho | ho
      · cases ho
      · obtain rfl := Option.some.inj ho
        exact ih hl

/-- `ready` clears the link, unless the process is at the end of the queue already. -/
theorem ready_link (h : ready k r = .ok k') : k'.link r = none ∨ k'.link r = some r := by
  rw [ready_eq h, link_readied]
  split
  · exact .inr rfl
  · exact .inl (if_pos rfl)

theorem SameRet.notifyWaitersLoop {pid d : Word} {prev : Slot} {o : Option Slot}
    (ho : ¬ WalkFinds k pid q o d) (h : notifyWaitersLoop pid fuel k prev o d = .ok k') :
    SameRet q k k' := by
  induction fuel generalizing k prev o d with
  | zero => cases h
  | succ fuel ih =>
      cases o with
      | none =>
          simp only [Xeros.notifyWaitersLoop, pure, Except.pure, Except.ok.injEq] at h
          exact h ▸ refl k
      | some r =>
          simp only [Xeros.notifyWaitersLoop] at h
          split at h
          · rename_i hm
            have hr : r ≠ q := by
              rintro rfl
              exact ho (.here hm)
            simp only [Run.bind_eq_ok] at h
            obtain ⟨k₁, h₁, h⟩ := h
            have hcut : SameRet q k (k.upd prev fun c => c.setNext (k.proctab r).next) :=
              upd k prev rfl
            have hs : SameRet q k k₁ :=
              (hcut.trans (setRet_ne hr.symm _ (toWord badPid))).trans (ready h₁)
            -- the walk ends here: the link it goes on with has been cleared
            have hl := ready_link h₁
            exact hs.trans (ih (WalkFinds.not_of_loop hr hl hl) h)
          · rename_i hm
            exact ih (fun hn => ho (.next hm hn)) h

theorem SameRet.notifyWaiters {pid : Word} (hq : ¬ WalkFinds k pid q k.blockedQ a.destpid)
    (h : notifyWaiters k a pid = .ok k') : SameRet q k k' := by
  unfold Xeros.notifyWaiters at h
  split at h
  · simp only [pure, Except.pure, Except.ok.injEq] at h
    exact h ▸ refl k
  · rename_i r hr
    rw [hr] at hq
    exact notifyWaitersLoop hq h

/-- A process that is found when others have been linked to `p`, which is the last, has been
found before. -/
theorem WalkFinds.uncut {pid d : Word} {o : Option Slot} (h : WalkFinds k' pid q o d)
    (hp : q ≠ p) (hw : ∀ x d, waitsOn k' x d = waitsOn k x d) (h₁ : k'.link p = none)
    (h₂ : ∀ x, x ≠ p → k'.link x = k.link x ∨ k'.link x = some p) : WalkFinds k pid q o d := by
  -- from `p` there is no way on
  have hend : ∀ {o : Option Slot} {d : Word}, o = none ∨ o = some p →
      ¬ WalkFinds k' pid q o d := by
    intro o d ho hf
    exact WalkFinds.not_of_loop hp.symm (.inl h₁) ho hf
  induction h with
  | here h => exact .here (hw q _ ▸ h)
  | @next r d h hn ih =>
      by_cases hr : r = p
      · subst hr
        exact absurd hn (hend (.inl h₁))
      · rcases h₂ r hr with he | he
        · exact .next (hw r d ▸ h) (he ▸ hw r d ▸ ih)
        · exact absurd hn (hend (.inr he))

theorem SameRet.sysStop (hp : q ≠ p)
    (hq : ¬ WalkFinds k (k.proctab p).pid q k.blockedQ a.destpid) (h : sysStop k p a = .ok k') :
    SameRet q k k' := by
  obtain ⟨k₁, h₁, h⟩ := sysStop_cases h
  have hu : SameRet q k (k.upd p fun c => (c.setState .stopped).setNext none) := upd_ne hp k _
  have hb : k₁.blockedQ = k.blockedQ := (append_deadQ_others h₁).1
  have hcalls := SameCalls.stopped h₁
  obtain ⟨hl, hother⟩ := append_link h₁
  have hlink : ∀ x, x ≠ p →
      (k.upd p fun c => (c.setState .stopped).setNext none).link x = k.link x := by
    intro x hx
    simp [Kernel.link, hx]
  refine (hu.trans (of_relinked (.append h₁))).trans (notifyWaiters ?_ h)
  rw [hcalls.pid, hb]
  refine fun hf => hq (hf.uncut hp (fun x d => hcalls.waitsOn) hl fun x hx => ?_)
  exact hlink x hx ▸ hother x hx

/-! ## A request -/

/-- The requests after which the `ret` of `q`, which is ready or runs, is what it was: the
process asks for nothing itself, a receive does not take it for the sender, and a process
that stops does not take it for one that waits. -/
structure LeavesRet (q : Slot) (k : Kernel) (p : Slot) (a : Ambient) (req : Request) : Prop where
  caller : q ≠ p ∨ req = .timer ∨ req = .keyboard
  recv : req = .recv → ∀ r, recvPeer k a p = .ok (some r) → ¬ EmptyMessage k r p →
    released k p r ≠ q
  stop : req = .stop → ¬ WalkFinds k (k.proctab p).pid q k.blockedQ a.destpid

/-- Such a process stays ready or running. -/
theorem LeavesRet.able (hl : LeavesRet q k p a req) (hg : Good k) (hu : k.Used p)
    (hq : (k.proctab q).able) (h : serve k p a req = .ok (k', p')) : (k'.proctab q).able := by
  rcases hl.caller with hp | rfl | rfl
  · exact ((serve_served hg hu h).1.sched hp hq.alive).able hq
  · exact ((sysTimer_quiet (X := nobody) hg hu h).1.sched q id).able hq
  · cases serve_cases h with
    | keyboard h₁ => exact ((sysKeyboard_quiet (X := nobody) hg h₁).sched q id).able hq

/-- Serving a request leaves the `ret` of a process alone that is ready or runs. -/
theorem LeavesRet.sameRet (hl : LeavesRet q k p a req) (hg : Good k)
    (hq : (k.proctab q).able) (h : serve k p a req = .ok (k', p')) : SameRet q k k' := by
  by_cases ht : req = .timer
  · subst ht
    exact .sysTimer h
  by_cases hk : req = .keyboard
  · subst hk
    cases serve_cases h with
    | keyboard h₁ => exact .sysKeyboard hg hq h₁
  have hp : q ≠ p := hl.caller.resolve_right (not_or.mpr ⟨ht, hk⟩)
  cases serve_cases h with
  | timer _ => exact absurd rfl ht
  | keyboard _ => exact absurd rfl hk
  | create h₁ =>
      obtain ⟨pid, k₁, h₂, rfl⟩ := sysCreate_cases h₁
      have hfree : freeSlot k ≠ some q := by
        intro hf
        obtain ⟨-, hs | hs⟩ := freeSlot_spec hf
        · exact hq.alive.1 hs
        · exact hq.alive.2 hs
      exact (SameRet.create hfree h₂).trans (.setRet_ne hp k₁ pid)
  | yield h₁ h₂ => exact (SameRet.ready h₁).trans (.reschedule h₂)
  | stop h₁ h₂ => exact (SameRet.sysStop hp (hl.stop rfl) h₁).trans (.reschedule h₂)
  | getpid => exact .setRet_ne hp k _
  | puts => exact .refl k
  | bad => exact .refl k
  | send h₁ h₂ => exact (SameRet.sysSend hq hp h₁).trans (.reschedule h₂)
  | recv h₁ h₂ => exact (SameRet.sysRecv hp (hl.recv rfl) h₁).trans (.reschedule h₂)
  | sleep h₁ h₂ => exact (SameRet.sleep (sysSleep_cases h₁)).trans (.reschedule h₂)
  | sighandler =>
      unfold sysSighandler
      dsimp only
      split
      · exact .setRet_ne hp k _
      · have hm : SameRet q k (k.setMem (k.mem.putWord (k.arg p 2)
            ((k.proctab p).handler (k.arg p 0).toInt))) := .refl k
        exact (hm.trans (.upd_ne hp _ _)).trans (.setRet_ne hp _ _)
  | sigreturn => exact .upd_ne hp k _
  | sigkill h₁ => exact .sysSigkill hq hp h₁
  | noHandler _ => exact .setRet_ne hp k _
  | sigwait _ h₁ h₂ =>
      exact ((SameRet.upd_ne hp k _).trans (.block_ne hp h₁)).trans (.reschedule h₂)
  | openDev => exact (SameRet.of_fdsOnly (.diOpen k p _)).trans (.setRet_ne hp _ _)
  | close => exact (SameRet.of_fdsOnly (.diClose k p _)).trans (.setRet_ne hp _ _)
  | ioctl => exact (SameRet.of_fdsOnly (.diIoctl k a p _ _ _)).trans (.setRet_ne hp _ _)
  | write h₁ =>
      obtain ⟨m, rfl⟩ := sysWrite_cases h₁
      exact (SameRet.of_fdsOnly ((FdsOnly.setMem k m).trans (.diWrite _ p _ _ _))).trans
        (.setRet_ne hp _ _)
  | read h₁ =>
      have hd : SameRet q k (diRead k p (k.arg p 0).toInt (k.arg p 1) (k.arg p 2).toInt).2 :=
        .of_fdsOnly (.diRead k p _ _ _)
      rcases sysRead_cases h₁ with ⟨-, rfl, v, rfl⟩ | ⟨-, k₁, h₁, h₂⟩
      · exact hd.trans (.setRet_ne hp _ v)
      · exact ((hd.trans (.upd_ne hp _ _)).trans (.block_ne hp h₁)).trans (.reschedule h₂)

end Xeros
