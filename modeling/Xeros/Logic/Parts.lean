import Xeros.Logic.Links
import Xeros.Logic.Served

/-!
# Parts of the pcb

Much of what the kernel does to a pcb has nothing to do with a given part of it: with `ret`,
with the handlers, with where the descriptors lead. What a part must not depend on is said
once for each group of operations, and the operations of the group leave it alone in every
pcb.
-/

namespace Xeros

open Lib

variable {k k' k₁ k₂ : Kernel} {p p' q : Slot} {a : Ambient} {fuel : Nat} {α : Type}
  {g : Pcb → α}

/-! ## Queues -/

/-- A part of the pcb that has nothing to do with the queue it is in. -/
structure Pcb.Unqueued (g : Pcb → α) : Prop where
  next : ∀ c o, g (c.setNext o) = g c
  state : ∀ c st, g (c.setState st) = g c

/-- That part of every pcb is the same. -/
def SamePart (g : Pcb → α) (k k' : Kernel) : Prop := ∀ q, g (k'.proctab q) = g (k.proctab q)

namespace SamePart

theorem refl (k : Kernel) : SamePart g k k := fun _ => rfl

theorem trans (h₁ : SamePart g k k₁) (h₂ : SamePart g k₁ k₂) : SamePart g k k₂ :=
  fun q => (h₂ q).trans (h₁ q)

theorem of_relinked (hg : Pcb.Unqueued g) (h : Relinked k k') : SamePart g k k' := by
  intro q
  obtain ⟨o, ho⟩ := h.pcb q
  rw [ho, hg.next]

theorem upd (k : Kernel) (p : Slot) {f : Pcb → Pcb}
    (hf : g (f (k.proctab p)) = g (k.proctab p)) : SamePart g k (k.upd p f) := by
  intro q
  by_cases hq : q = p
  · subst hq
    rw [Kernel.upd_proctab_self, hf]
  · rw [Kernel.upd_proctab_ne _ _ _ hq]

theorem setNext (hg : Pcb.Unqueued g) (k : Kernel) (p : Slot) (o : Option Slot) :
    SamePart g k (k.upd p fun c => c.setNext o) := upd k p (hg.next _ o)

theorem setState (hg : Pcb.Unqueued g) (k : Kernel) (p : Slot) (st : PState) :
    SamePart g k (k.upd p fun c => c.setState st) := upd k p (hg.state _ st)

theorem ready (hg : Pcb.Unqueued g) (h : ready k p = .ok k') : SamePart g k k' := by
  have hu : SamePart g k (k.upd p fun c => (c.setNext none).setState .ready) :=
    upd k p (by rw [hg.state, hg.next])
  rw [ready_eq h]
  exact hu.trans (of_relinked hg (.readied k p))

theorem takeHead (hg : Pcb.Unqueued g) (k : Kernel) (p : Slot) : SamePart g k (takeHead k p) := by
  have h : SamePart g k ((k.setHead (k.proctab p).next).upd p fun c => c.setNext none) :=
    setNext hg (k.setHead (k.proctab p).next) p none
  unfold Xeros.takeHead
  dsimp only
  split
  · exact h
  · exact h

theorem choose (hg : Pcb.Unqueued g) (k : Kernel) (p : Slot) : SamePart g k (choose k p).1 := by
  unfold Xeros.choose
  split
  · exact (takeHead hg k _).trans (setNext hg _ p none)
  · split
    · cases k.running with
      | none => exact refl k
      | some r => exact setState hg k r .ready
    · exact refl k

theorem next (hg : Pcb.Unqueued g) (h : next k = .ok (k', p)) : SamePart g k k' := by
  rcases next_cases h with ⟨-, rfl, -⟩ | ⟨r, -, -, hc⟩
  · exact refl _
  · have hr : SamePart g k (Xeros.choose (Xeros.takeHead k r) r).1 :=
      (takeHead hg k r).trans (choose hg _ r)
    rwa [← hc] at hr

theorem run (hg : Pcb.Unqueued g) (k : Kernel) (p : Slot) : SamePart g k (run k p) :=
  setState hg k p .running

theorem reschedule (hg : Pcb.Unqueued g) (h : reschedule k = .ok (k', p)) : SamePart g k k' := by
  simp only [Xeros.reschedule, Run.bind_eq_ok, pure, Except.pure, Except.ok.injEq,
    Prod.mk.injEq] at h
  obtain ⟨⟨k₁, r⟩, h₁, rfl, rfl⟩ := h
  exact (next hg h₁).trans (run hg k₁ r)

end SamePart

/-! ## Sleepers -/

/-- A part of the pcb that has nothing to do with queues and sleepers. -/
structure Pcb.Untimed (g : Pcb → α) : Prop extends Pcb.Unqueued g where
  ticks : ∀ c n, g (c.setTicks n) = g c

theorem Pcb.Untimed.toSleep (hg : Pcb.Untimed g) (c : Pcb) (n : Word) : g (c.toSleep n) = g c := by
  show g (((c.setState .sleep).setNext none).setTicks n) = g c
  rw [hg.ticks, hg.next, hg.state]

namespace SamePart

theorem setTicks (hg : Pcb.Untimed g) (k : Kernel) (p : Slot) (f : Pcb → Word) :
    SamePart g k (k.upd p fun c => c.setTicks (f c)) := upd k p (hg.ticks _ _)

theorem updPtr (k : Kernel) (o : Option Slot) {f : Pcb → Pcb} (hf : ∀ c, g (f c) = g c) :
    SamePart g k (k.updPtr o f) := by
  cases o with
  | none => exact refl k
  | some p => exact upd k p (hf _)

theorem pushSleeper (hg : Pcb.Untimed g) (k : Kernel) (p : Slot) :
    SamePart g k (pushSleeper k p) := by
  have h : SamePart g k (k.upd p fun c => c.setNext k.headsleeper) :=
    setNext hg.toUnqueued k p _
  unfold Xeros.pushSleeper
  dsimp only
  split
  · exact h
  · rename_i s _
    have hs := h.trans (setTicks hg _ s fun c => c.sleepticks - (k.proctab p).sleepticks)
    exact hs

theorem insertSleeper (hg : Pcb.Untimed g) (k : Kernel) (p prev : Slot) (nxt : Option Slot)
    (acc : Word) : SamePart g k (insertSleeper k p prev nxt acc) := by
  unfold Xeros.insertSleeper
  exact (((setNext hg.toUnqueued k p _).trans (setNext hg.toUnqueued _ prev _)).trans
    (setTicks hg _ p _)).trans (updPtr _ _ fun _ => hg.ticks _ _)

theorem sleep (hg : Pcb.Untimed g) {ms : Word} (h : sleep k fuel ms p = .ok k') :
    SamePart g k k' := by
  unfold Xeros.sleep at h
  simp only [Run.bind_eq_ok] at h
  obtain ⟨_, -, h⟩ := h
  have hu : SamePart g k (k.upd p fun c => c.toSleep (millisecondsToTicks ms)) :=
    upd k p (hg.toSleep _ _)
  refine hu.trans ?_
  split at h
  · simp only [pure, Except.pure, Except.ok.injEq] at h
    exact h ▸ pushSleeper hg _ p
  · split at h
    · simp only [Run.bind_eq_ok, pure, Except.pure, Except.ok.injEq] at h
      obtain ⟨⟨prev, nxt, acc⟩, -, h⟩ := h
      exact h ▸ insertSleeper hg _ p prev nxt acc
    · simp only [pure, Except.pure, Except.ok.injEq] at h
      exact h ▸ pushSleeper hg _ p

theorem tickLoop (hg : Pcb.Untimed g) (h : tickLoop fuel k = .ok k') : SamePart g k k' := by
  induction fuel generalizing k with
  | zero => cases h
  | succ fuel ih =>
      simp only [Xeros.tickLoop] at h
      split at h
      · simp only [pure, Except.pure, Except.ok.injEq] at h
        exact h ▸ refl k
      · rename_i s _
        split at h
        · simp only [Run.bind_eq_ok] at h
          obtain ⟨k₁, h₁, h⟩ := h
          have hpop : SamePart g k (popSleeper k s) := setNext hg.toUnqueued _ s none
          exact (hpop.trans (ready hg.toUnqueued h₁)).trans (ih h)
        · simp only [pure, Except.pure, Except.ok.injEq] at h
          exact h ▸ refl k

theorem countDown (hg : Pcb.Untimed g) (k : Kernel) : SamePart g k (countDown k) := by
  unfold Xeros.countDown
  split
  · exact refl k
  · split
    · exact setTicks hg k _ fun c => c.sleepticks - 1
    · exact refl k

theorem tick (hg : Pcb.Untimed g) (h : tick k fuel = .ok k') : SamePart g k k' := by
  unfold Xeros.tick at h
  split at h
  · simp only [pure, Except.pure, Except.ok.injEq] at h
    exact h ▸ refl k
  · rename_i s _
    split at h
    · simp only [Run.bind_eq_ok, pure, Except.pure, Except.ok.injEq] at h
      obtain ⟨k₁, h₁, rfl⟩ := h
      have hz : SamePart g k (k.upd s fun c => c.setTicks 0) := setTicks hg k s fun _ => 0
      exact (hz.trans (tickLoop hg h₁)).trans (countDown hg k₁)
    · simp only [pure, Except.pure, Except.ok.injEq] at h
      exact h ▸ countDown hg k

theorem sysTimer (hg : Pcb.Untimed g) (h : sysTimer k p a = .ok (k', p')) :
    SamePart g k k' := by
  obtain ⟨k₁, k₂, h₁, h₂, h₃⟩ := sysTimer_cases h
  exact ((ready hg.toUnqueued h₁).trans (reschedule hg.toUnqueued h₂)).trans (tick hg h₃)

end SamePart

/-! ## Boot -/

/-- A part of the pcb that is the same when a process is created and when it is resumed. -/
structure Pcb.Inherited (g : Pcb → α) : Prop extends Pcb.Unqueued g where
  esp : ∀ c w, g { c with esp := w } = g c
  pid : ∀ c w, g { c with pid := w } = g c
  sigPriority : ∀ c w, g { c with sigPriority := w } = g c

namespace SamePart

theorem launch (hg : Pcb.Inherited g) {i : Slot} {cf fp : Word} (h : launch k i cf fp = .ok k') :
    SamePart g k k' := by
  have hk : SamePart g k ((k.setMem (startContext k.mem k.img cf fp)).upd i
      fun c => c.start cf) := by
    refine upd (k.setMem _) i ?_
    show g (Pcb.setState { k.proctab i with esp := cf } .ready) = g (k.proctab i)
    rw [hg.state, hg.esp]
  exact hk.trans (ready hg.toUnqueued h)

theorem create (hg : Pcb.Inherited g) {fp stack pid : Word}
    (h : create k fuel fp stack = .ok (pid, k')) : SamePart g k k' := by
  rcases create_cases h with ⟨k₁, n, -, h₁, -, rfl⟩ | ⟨i, k₁, n, b, heap, -, h₁, -, h₂⟩
  · have hr : SamePart g k k₁ := of_relinked hg.toUnqueued (.remove h₁)
    exact hr
  · have hu : SamePart g k₁ (k₁.upd i fun c => c.renew i) := by
      refine upd k₁ i ?_
      show g { ({ k₁.proctab i with pid := nextPid (k₁.proctab i).pid i.val } : Pcb) with
        sigPriority := -1 } = g (k₁.proctab i)
      rw [hg.sigPriority, hg.pid]
    have hk : SamePart g k ((k₁.upd i fun c => c.renew i).setHeap heap) :=
      (of_relinked hg.toUnqueued (.remove h₁)).trans hu
    rcases h₂ with ⟨-, -, rfl⟩ | ⟨-, -, h₃⟩
    · exact hk
    · exact hk.trans (launch hg h₃)

theorem loopTop (hg : Pcb.Inherited g) (k : Kernel) (p : Slot) : SamePart g k (loopTop k p).k := by
  refine (run hg.toUnqueued k p).trans ?_
  show SamePart g (Xeros.run k p) (deliverSignalsIfany (Xeros.run k p) p)
  unfold deliverSignalsIfany
  split
  · have hf : SamePart g (Xeros.run k p) (modifyProcessStack (Xeros.run k p) p
        (getNextSignal ((Xeros.run k p).proctab p).sigPending)) :=
      upd ((Xeros.run k p).setMem _) p (hg.esp _ _)
    exact hf.trans (upd _ _ (hg.sigPriority _ _))
  · exact refl _

/-- The first process starts with what `dispatchinit` leaves. -/
theorem boot (hg : Pcb.Inherited g) {img : Image} {d : Disp} (h : boot img = .ok d) :
    SamePart g (dispatchinit img) d.k := by
  simp only [Xeros.boot, initproc, Run.bind_eq_ok, pure, Except.pure, Except.ok.injEq] at h
  obtain ⟨k₀, ⟨⟨pid₁, k₁⟩, h₁, ⟨pid₂, k₂⟩, h₂, rfl⟩, ⟨k₃, p⟩, h₃, rfl⟩ := h
  have hinit : SamePart g (dispatchinit img) (deviceinit
      ((dispatchinit img).setHeap (kmeminit img.freemem (dispatchinit img).heap.hdr))) :=
    fun _ => rfl
  have hcreate := (hinit.trans (create hg h₁)).trans (create hg h₂)
  have hset : SamePart g k₂ (k₂.setIdle pid₂) := fun _ => rfl
  have hnext : SamePart g (k₂.setIdle pid₂) k₃ := next hg.toUnqueued h₃
  exact (hcreate.trans hset).trans (hnext.trans (loopTop hg k₃ p))

end SamePart

end Xeros
