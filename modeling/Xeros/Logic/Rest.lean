import Xeros.Logic.Links
import Xeros.Logic.Serving

/-!
# What the queues do not touch

The operations on the queues change pcbs and queue heads only: the memory, the allocator
and the devices are left alone.
-/

namespace Xeros

open Lib

variable {k k' k₁ k₂ : Kernel} {a : Ambient} {p p' q : Slot} {Q : QRef} {fuel : Nat}

/-- Nothing but pcbs and queue heads differs. -/
structure Rest (k k' : Kernel) : Prop where
  img : k'.img = k.img
  idleprocPid : k'.idleprocPid = k.idleprocPid
  pastPid : k'.pastPid = k.pastPid
  devtab : k'.devtab = k.devtab
  kbd : k'.kbd = k.kbd
  heap : k'.heap = k.heap
  mem : k'.mem = k.mem

namespace Rest

theorem refl (k : Kernel) : Rest k k := ⟨rfl, rfl, rfl, rfl, rfl, rfl, rfl⟩

theorem trans (h₁ : Rest k k₁) (h₂ : Rest k₁ k₂) : Rest k k₂ where
  img := h₂.img.trans h₁.img
  idleprocPid := h₂.idleprocPid.trans h₁.idleprocPid
  pastPid := h₂.pastPid.trans h₁.pastPid
  devtab := h₂.devtab.trans h₁.devtab
  kbd := h₂.kbd.trans h₁.kbd
  heap := h₂.heap.trans h₁.heap
  mem := h₂.mem.trans h₁.mem

theorem upd (k : Kernel) (q : Slot) (f : Pcb → Pcb) : Rest k (k.upd q f) :=
  ⟨rfl, rfl, rfl, rfl, rfl, rfl, rfl⟩

theorem updPtr (k : Kernel) (o : Option Slot) (f : Pcb → Pcb) : Rest k (k.updPtr o f) := by
  cases o <;> exact ⟨rfl, rfl, rfl, rfl, rfl, rfl, rfl⟩

theorem setRet (k : Kernel) (q : Slot) (v : Word) : Rest k (k.setRet q v) := .upd k q _

theorem set (k : Kernel) (Q : QRef) (v : Option Slot) : Rest k (Q.set k v) := by
  cases Q <;> exact ⟨rfl, rfl, rfl, rfl, rfl, rfl, rfl⟩

theorem setTail (k : Kernel) (v : Option Slot) : Rest k (k.setTail v) :=
  ⟨rfl, rfl, rfl, rfl, rfl, rfl, rfl⟩

theorem setSleeper (k : Kernel) (v : Option Slot) : Rest k (k.setSleeper v) :=
  ⟨rfl, rfl, rfl, rfl, rfl, rfl, rfl⟩

/-! ## The ready queue -/

theorem enqueue (k : Kernel) (p : Slot) : Rest k (enqueue k p) := by
  unfold Xeros.enqueue
  split
  · exact (upd k _ _).trans (.setTail _ _)
  · exact (set k .head _).trans (.setTail _ _)

theorem ready (h : ready k p = .ok k') : Rest k k' := by
  unfold Xeros.ready at h
  simp only [Run.bind_eq_ok] at h
  obtain ⟨_, -, _, -, _, -, h⟩ := h
  split at h <;> simp only [pure, Except.pure, Except.ok.injEq] at h
  · exact h ▸ .upd k p _
  · exact h ▸ (upd k p _).trans (.enqueue _ p)

theorem takeHead (k : Kernel) (p : Slot) : Rest k (takeHead k p) := by
  have h := (set k .head (k.proctab p).next).trans (.upd _ p fun c => c.setNext none)
  unfold Xeros.takeHead
  dsimp only
  split
  · exact h.trans (.setTail _ none)
  · exact h

theorem choose (k : Kernel) (p : Slot) : Rest k (choose k p).1 := by
  unfold Xeros.choose
  split
  · dsimp only
    exact (takeHead k _).trans (.upd _ _ _)
  · split
    · exact .updPtr k _ _
    · exact .refl k

theorem next (h : next k = .ok (k', p)) : Rest k k' := by
  rcases next_cases h with ⟨-, rfl, -⟩ | ⟨q, -, -, hc⟩
  · exact .refl _
  · have hr := (takeHead k q).trans (.choose (Xeros.takeHead k q) q)
    rwa [← hc] at hr

theorem run (k : Kernel) (p : Slot) : Rest k (run k p) := (upd k p _).trans (.set _ .running _)

theorem reschedule (h : reschedule k = .ok (k', p)) : Rest k k' := by
  simp only [Xeros.reschedule, Run.bind_eq_ok, pure, Except.pure, Except.ok.injEq,
    Prod.mk.injEq] at h
  obtain ⟨⟨k₁, q⟩, h₁, rfl, rfl⟩ := h
  exact (next h₁).trans (.run k₁ _)

/-! ## The other queues -/

theorem remove {Q : Option QRef} {pid : Word} {n : Int}
    (h : remove k fuel Q pid = .ok (k', n)) : Rest k k' := by
  cases Q with
  | none => cases h
  | some Q =>
      rcases removeLoop_set h with rfl | ⟨b, -, rfl | rfl⟩
      · exact refl _
      · exact set k Q _
      · exact (set k Q _).trans (.upd _ b _)

theorem append (h : append k fuel Q p = .ok k') : Rest k k' := by
  obtain ⟨k₀, rfl, rfl | rfl | ⟨x, -, -, rfl⟩⟩ := append_cases h
  · exact (upd k p _).trans (.set _ Q _)
  · exact upd k p _
  · exact (upd k p _).trans (.upd _ x _)

theorem block {code : Word} (h : block k fuel p code = .ok k') : Rest k k' :=
  (upd k p _).trans (append h)

theorem notifyWaitersLoop {pid destpid : Word} {prev : Slot} {x : Option Slot}
    (h : notifyWaitersLoop pid fuel k prev x destpid = .ok k') : Rest k k' := by
  induction fuel generalizing k prev x destpid with
  | zero => cases h
  | succ fuel ih =>
      cases x with
      | none =>
          simp only [Xeros.notifyWaitersLoop, pure, Except.pure, Except.ok.injEq] at h
          exact h ▸ refl k
      | some q =>
          simp only [Xeros.notifyWaitersLoop] at h
          split at h
          · simp only [Run.bind_eq_ok] at h
            obtain ⟨k₁, h₁, h⟩ := h
            exact (((upd k prev _).trans (.setRet _ q _)).trans (ready h₁)).trans (ih h)
          · exact ih h

theorem notifyWaiters {pid : Word} (h : notifyWaiters k a pid = .ok k') : Rest k k' := by
  unfold Xeros.notifyWaiters at h
  split at h
  · simp only [pure, Except.pure, Except.ok.injEq] at h
    exact h ▸ refl k
  · exact notifyWaitersLoop h

/-! ## Sleepers -/

theorem insertSleeper (k : Kernel) (p prev : Slot) (nxt : Option Slot) (acc : Word) :
    Rest k (insertSleeper k p prev nxt acc) := by
  unfold Xeros.insertSleeper
  exact (((upd k p _).trans (.upd _ prev _)).trans (.upd _ p _)).trans (.updPtr _ _ _)

theorem pushSleeper (k : Kernel) (p : Slot) : Rest k (pushSleeper k p) := by
  unfold Xeros.pushSleeper
  dsimp only
  split
  · exact (upd k p _).trans (.setSleeper _ _)
  · exact ((upd k p _).trans (.upd _ _ _)).trans (.setSleeper _ _)

theorem sleep {ms : Word} (h : sleep k fuel ms p = .ok k') : Rest k k' := by
  unfold Xeros.sleep at h
  simp only [Run.bind_eq_ok] at h
  obtain ⟨_, -, h⟩ := h
  refine (upd k p fun c => c.toSleep (millisecondsToTicks ms)).trans ?_
  split at h
  · simp only [pure, Except.pure, Except.ok.injEq] at h
    exact h ▸ pushSleeper _ p
  · split at h
    · simp only [Run.bind_eq_ok, pure, Except.pure, Except.ok.injEq] at h
      obtain ⟨⟨prev, nxt, acc⟩, -, h⟩ := h
      exact h ▸ insertSleeper _ p prev nxt acc
    · simp only [pure, Except.pure, Except.ok.injEq] at h
      exact h ▸ pushSleeper _ p

theorem tickLoop (h : tickLoop fuel k = .ok k') : Rest k k' := by
  induction fuel generalizing k with
  | zero => cases h
  | succ fuel ih =>
      simp only [Xeros.tickLoop] at h
      split at h
      · simp only [pure, Except.pure, Except.ok.injEq] at h
        exact h ▸ refl k
      · rename_i q _
        split at h
        · simp only [Run.bind_eq_ok] at h
          obtain ⟨k₁, h₁, h⟩ := h
          exact (((setSleeper k _).trans (.upd _ q _)).trans (ready h₁)).trans (ih h)
        · simp only [pure, Except.pure, Except.ok.injEq] at h
          exact h ▸ refl k

theorem countDown (k : Kernel) : Rest k (countDown k) := by
  unfold Xeros.countDown
  split
  · exact .refl k
  · split
    · exact .upd k _ _
    · exact .refl k

theorem tick (h : tick k fuel = .ok k') : Rest k k' := by
  unfold Xeros.tick at h
  split at h
  · simp only [pure, Except.pure, Except.ok.injEq] at h
    exact h ▸ refl k
  · split at h
    · simp only [Run.bind_eq_ok, pure, Except.pure, Except.ok.injEq] at h
      obtain ⟨k₁, h₁, rfl⟩ := h
      exact ((upd k _ _).trans (tickLoop h₁)).trans (.countDown k₁)
    · simp only [pure, Except.pure, Except.ok.injEq] at h
      exact h ▸ countDown k

/-! ## Requests that only move processes -/

theorem sysTimer (h : sysTimer k p a = .ok (k', p')) : Rest k k' := by
  obtain ⟨k₁, k₂, h₁, h₂, h₃⟩ := sysTimer_cases h
  exact ((ready h₁).trans (reschedule h₂)).trans (tick h₃)

theorem sysStop (h : sysStop k p a = .ok k') : Rest k k' := by
  obtain ⟨k₁, h₁, h₂⟩ := sysStop_cases h
  exact ((upd k p _).trans (append h₁)).trans (notifyWaiters h₂)

theorem sysSleep (h : sysSleep k p a = .ok k') : Rest k k' := sleep (sysSleep_cases h)

end Rest

end Xeros
