import Xeros.Logic.Rest
import Xeros.Logic.Calls
import Xeros.Logic.Peers

/-!
# What stands beside the processes

Most requests have to do with processes, queues and memory only. That they leave a part of the
kernel alone which is none of these is said once for all such parts: for the driver and the
device table, and for the allocator, which the device calls leave alone too.
-/

namespace Xeros

open Lib

variable {k k' k₁ k₂ : Kernel} {p p' q : Slot} {a : Ambient} {req : Request} {fuel : Nat}
  {α : Type} {g : Kernel → α}

/-! ## Beside the processes -/

/-- A part of the kernel that is neither in a pcb nor in a queue nor in the memory. -/
structure Kernel.Aside (g : Kernel → α) : Prop where
  rest : ∀ {k k'}, Rest k k' → g k' = g k
  setMem : ∀ k m, g (k.setMem m) = g k

namespace Kernel.Aside

theorem upd (hg : Aside g) (k : Kernel) (q : Slot) (f : Pcb → Pcb) : g (k.upd q f) = g k :=
  hg.rest (.upd k q f)

theorem setRet (hg : Aside g) (k : Kernel) (q : Slot) (v : Word) : g (k.setRet q v) = g k :=
  hg.rest (.setRet k q v)

theorem answered (hg : Aside g) (k : Kernel) (p q : Slot) (n : Int) :
    g (answered k p q n) = g k :=
  hg.rest ((Rest.setRet k p _).trans (.setRet _ q _))

theorem launch (hg : Aside g) {i : Slot} {cf fp : Word} (h : launch k i cf fp = .ok k') :
    g k' = g k := by
  have hk : g ((k.setMem (startContext k.mem k.img cf fp)).upd i fun c => c.start cf) = g k :=
    (hg.upd _ i _).trans (hg.setMem k _)
  exact (hg.rest (Rest.ready h)).trans hk

theorem sysSend (hg : Aside g) (h : sysSend k p a = .ok k') : g k' = g k := by
  obtain ⟨n, k₀, h₀, h⟩ := sysSend_cases h
  have hk₀ : g k₀ = g k := by
    rcases send_cases h₀ with ⟨r, -, -, rfl⟩ | ⟨-, -, rfl | ⟨v, rfl⟩⟩
    · exact hg.setMem k _
    · rfl
    · exact hg.setRet _ _ _
  refine Eq.trans ?_ hk₀
  rcases h with ⟨-, k₁, k₂, r, h₁, h₂, h₃⟩ | ⟨-, h₁⟩ | ⟨-, h₁⟩
  · exact (hg.rest (((Rest.ready h₁).trans (.remove h₂)).trans (.ready h₃))).trans
      (hg.answered k₀ p _ n)
  · exact (hg.rest (Rest.ready h₁)).trans (hg.setRet _ _ _)
  · exact hg.rest (Rest.block h₁)

theorem sysRecv (hg : Aside g) (h : sysRecv k p a = .ok k') : g k' = g k := by
  obtain ⟨n, k₀, h₀, h⟩ := sysRecv_cases h
  have hk₀ : g k₀ = g k := by
    rcases recv_cases h₀ with ⟨q, -, -, rfl⟩ | ⟨-, -, rfl | ⟨v, rfl⟩⟩
    · exact hg.setMem k _
    · rfl
    · exact hg.setRet _ p v
  refine Eq.trans ?_ hk₀
  rcases h with ⟨-, k₁, h₁, ⟨-, k₂, r, h₂, h₃⟩ | ⟨-, rfl⟩⟩ | ⟨-, h₁⟩ | ⟨-, h₁⟩
  · exact (hg.rest (((Rest.ready h₁).trans (.remove h₂)).trans (.ready h₃))).trans
      (hg.answered k₀ p _ n)
  · exact (hg.rest (Rest.ready h₁)).trans (hg.answered k₀ p _ n)
  · exact (hg.rest (Rest.ready h₁)).trans (hg.setRet _ _ _)
  · exact hg.rest (Rest.block h₁)

theorem post (hg : Aside g) {t : Slot} {signo : Int} (h : post k t signo = .ok k') :
    g k' = g k := by
  have hk : g (k.upd t fun c => c.pend signo) = g k := hg.upd k t _
  rcases post_cases h with ⟨-, k₁, v, h₁, rfl⟩ | ⟨-, rfl⟩
  · exact (hg.setRet k₁ t v).trans ((hg.rest (Rest.ready h₁)).trans hk)
  · exact hk

theorem sysSigkill (hg : Aside g) (h : sysSigkill k p a = .ok k') : g k' = g k := by
  rcases sysSigkill_cases h with ⟨-, k₁, h₁, rfl⟩ | ⟨-, rfl⟩
  · exact (hg.setRet k₁ p _).trans (hg.post h₁)
  · exact hg.setRet k p _

theorem sysSighandler (hg : Aside g) (k : Kernel) (p : Slot) : g (sysSighandler k p) = g k := by
  unfold Xeros.sysSighandler
  dsimp only
  split
  · exact hg.setRet k p _
  · exact (hg.setRet _ p _).trans ((hg.upd _ p _).trans (hg.setMem k _))

theorem loopTop (hg : Aside g) (k : Kernel) (p : Slot) : g (loopTop k p).k = g k := by
  refine Eq.trans ?_ (hg.rest (Rest.run k p))
  show g (deliverSignalsIfany (run k p) p) = g (run k p)
  unfold deliverSignalsIfany modifyProcessStack
  dsimp only
  split
  · exact (hg.upd _ _ _).trans ((hg.upd _ p _).trans (hg.setMem _ _))
  · rfl

theorem contextswitch (hg : Aside g) (k : Kernel) (p : Slot) (t : Trap) :
    g (contextswitch k p t) = g k := by
  unfold Xeros.contextswitch
  exact (hg.upd _ p _).trans (hg.setMem k _)

end Kernel.Aside

/-! ## Beside the devices too -/

/-- A part of the kernel that belongs to no device either. -/
structure Kernel.Remote (g : Kernel → α) : Prop extends Aside g where
  setKbd : ∀ k b, g (k.setKbd b) = g k
  keyboardInit : ∀ k, g (keyboardInit k) = g k

namespace Kernel.Remote

theorem kbdOnly (hg : Remote g) (h : KbdOnly k k') : g k' = g k := by
  obtain ⟨m, b, rfl, -⟩ := h
  exact (hg.setKbd _ b).trans (hg.setMem k m)

theorem callTransfer (hg : Remote g) (f : TransferFn) (k : Kernel) (p : Slot) (buff : Word)
    (len : Int) : g (callTransfer f k p buff len).2 = g k := by
  have he : g (ekbdRead k p buff len).2 = g k := by
    unfold ekbdRead
    split
    · rfl
    · exact hg.setKbd k _
  cases f with
  | unsupported => rfl
  | kbdRead =>
      unfold Xeros.callTransfer kbdRead
      dsimp only
      split
      · exact hg.setMem k _
      · exact he
  | ekbdRead => exact he

theorem diWrite (hg : Remote g) (k : Kernel) (p : Slot) (fd : Int) (buff : Word) (len : Int) :
    g (diWrite k p fd buff len).2 = g k := by
  unfold Xeros.diWrite
  split
  · rfl
  · exact hg.callTransfer _ k p buff len

theorem diRead (hg : Remote g) (k : Kernel) (p : Slot) (fd : Int) (buff : Word) (len : Int) :
    g (diRead k p fd buff len).2 = g k := by
  unfold Xeros.diRead
  split
  · rfl
  · exact hg.callTransfer _ k p buff len

theorem diIoctl (hg : Remote g) (k : Kernel) (a : Ambient) (p : Slot) (fd cmd : Int)
    (arg : Word) : g (diIoctl k a p fd cmd arg).2 = g k := by
  unfold Xeros.diIoctl
  split
  · rfl
  · unfold callIoctl
    split
    · rfl
    · unfold kbdIoctl
      split
      · rfl
      split
      · exact hg.setKbd k _
      · rfl

theorem diClose (hg : Remote g) (k : Kernel) (p : Slot) (fd : Int) :
    g (diClose k p fd).2 = g k := by
  unfold Xeros.diClose
  split
  · rfl
  · rename_i i _
    have hc : g (callClose (devOf k p i).dvclose k).2 = g k := by
      unfold callClose
      split
      · rfl
      · exact hg.setKbd k _
    dsimp only
    split <;> dsimp only
    · exact (hg.upd _ p _).trans hc
    · exact hc

theorem diOpen (hg : Remote g) (k : Kernel) (p : Slot) (devno : Word) :
    g (diOpen k p devno).2 = g k := by
  have hopen : ∀ (f : OpenFn) (k : Kernel), g (callOpen f k p).2 = g k := by
    intro f k
    unfold callOpen
    split
    · rfl
    · exact (hg.setKbd _ _).trans (hg.keyboardInit k)
  unfold Xeros.diOpen
  dsimp only
  split
  · split
    · dsimp only
      exact hg.upd k _ _
    · split <;> exact (hopen _ _).trans ((hg.upd _ _ _).trans (hg.upd k _ _))
  · rfl

theorem notifyReader (hg : Remote g) {b : Bool} (h : notifyReader k fuel = .ok (k', b)) :
    g k' = g k := by
  unfold Xeros.notifyReader at h
  split at h
  · obtain ⟨rfl, -⟩ := Prod.mk.inj (Except.ok.inj h)
    rfl
  · rename_i r _
    split at h
    · simp only [notify, Run.bind_eq_ok, pure, Except.pure, Except.ok.injEq, Prod.mk.injEq] at h
      obtain ⟨k₁, ⟨_, -, ⟨k₂, n⟩, h₁, h₂⟩, rfl, -⟩ := h
      exact (hg.setKbd k₁ _).trans
        (hg.rest (((Rest.remove h₁).trans (.setRet k₂ r _)).trans (.ready h₂)))
    · obtain ⟨rfl, -⟩ := Prod.mk.inj (Except.ok.inj h)
      rfl

theorem bufferKey (hg : Remote g) {c ascii : Byte} (h : bufferKey k fuel c ascii = .ok k') :
    g k' = g k := by
  unfold Xeros.bufferKey at h
  split at h
  · obtain rfl := Except.ok.inj h
    rfl
  · have hs : g (storeAndFlush k c).1 = g k := hg.kbdOnly (.storeAndFlush k c)
    split at h
    · rename_i k₁ hk₁
      obtain rfl := Except.ok.inj h
      rw [hk₁] at hs
      exact hs
    · rename_i k₁ hk₁
      simp only [Run.bind_eq_ok, pure, Except.pure, Except.ok.injEq] at h
      obtain ⟨⟨k₂, b⟩, h₁, rfl⟩ := h
      rw [hk₁] at hs
      exact (hg.notifyReader h₁).trans hs

theorem handleKey (hg : Remote g) {c ascii : Byte} (h : handleKey k fuel c ascii = .ok k') :
    g k' = g k := by
  unfold Xeros.handleKey at h
  split at h
  · exact congrArg g (Except.ok.inj h).symm
  split at h
  · exact Except.ok.inj h ▸ hg.kbdOnly (.storeKey k c)
  split at h
  · simp only [Run.bind_eq_ok] at h
    obtain ⟨⟨k₁, woken⟩, h₁, h⟩ := h
    have hk₁ := (hg.notifyReader h₁).trans (hg.kbdOnly (.completeRead k c))
    split at h
    · exact Except.ok.inj h ▸ hk₁
    · exact (hg.bufferKey h).trans hk₁
  · exact hg.bufferKey h

theorem processKey (hg : Remote g) (h : processKey k a = .ok k') : g k' = g k :=
  (hg.handleKey h).trans (hg.setKbd k _)

/-- Every request but `SYS_CREATE` leaves such a part alone. -/
theorem serve (hg : Remote g) (h : serve k p a req = .ok (k', p')) (hreq : req ≠ .create) :
    g k' = g k := by
  have hleave : ∀ {k₁ : Kernel}, g k₁ = g k → reschedule k₁ = .ok (k', p') → g k' = g k :=
    fun hk hr => (hg.rest (Rest.reschedule hr)).trans hk
  cases serve_cases h with
  | create _ => exact absurd rfl hreq
  | stop h₁ h₂ => exact hleave (hg.rest (Rest.sysStop h₁)) h₂
  | yield h₁ h₂ => exact hleave (hg.rest (Rest.ready h₁)) h₂
  | timer h₁ => exact hg.rest (Rest.sysTimer h₁)
  | getpid => exact hg.setRet k p _
  | puts => rfl
  | send h₁ h₂ => exact hleave (hg.sysSend h₁) h₂
  | recv h₁ h₂ => exact hleave (hg.sysRecv h₁) h₂
  | sleep h₁ h₂ => exact hleave (hg.rest (Rest.sysSleep h₁)) h₂
  | sighandler => exact hg.sysSighandler k p
  | sigreturn => exact hg.upd k p _
  | sigkill h₁ => exact hg.sysSigkill h₁
  | noHandler _ => exact hg.setRet k p _
  | sigwait _ h₁ h₂ => exact hleave ((hg.rest (Rest.block h₁)).trans (hg.upd k p _)) h₂
  | openDev => exact (hg.setRet _ p _).trans (hg.diOpen k p _)
  | close => exact (hg.setRet _ p _).trans (hg.diClose k p _)
  | write h₁ =>
      obtain ⟨m, rfl⟩ := sysWrite_cases h₁
      exact (hg.setRet _ p _).trans ((hg.diWrite _ p _ _ _).trans (hg.setMem k m))
  | read h₁ =>
      have hd := hg.diRead k p (k.arg p 0).toInt (k.arg p 1) (k.arg p 2).toInt
      rcases sysRead_cases h₁ with ⟨-, rfl, v, rfl⟩ | ⟨-, k₁, h₁, h₂⟩
      · exact (hg.setRet _ p' v).trans hd
      · exact hleave ((hg.rest (Rest.block h₁)).trans ((hg.upd _ p _).trans hd)) h₂
  | ioctl => exact (hg.setRet _ p _).trans (hg.diIoctl k a p _ _ _)
  | keyboard h₁ =>
      unfold sysKeyboard at h₁
      split at h₁
      · exact hg.processKey h₁
      · exact congrArg g (Except.ok.inj h₁).symm
  | bad => rfl

end Kernel.Remote

/-- The allocator and the image of the kernel. -/
theorem remote_heap : Kernel.Remote fun k => (k.heap, k.img) where
  rest h := Prod.ext h.heap h.img
  setMem _ _ := rfl
  setKbd _ _ := rfl
  keyboardInit _ := rfl

end Xeros
