import Xeros.Logic.Served

/-!
# Turns of the dispatcher

The inversion of a turn, and the invariant that a turn keeps the pointers good
and puts a running process on the processor.
-/

namespace Xeros

open Lib

variable {k k' : Kernel} {p q : Slot} {s s' : Disp} {t : Trap}

/-! ## Entering and leaving user code -/

theorem contextswitch_proctab (k : Kernel) (p q : Slot) (t : Trap) :
    (contextswitch k p t).proctab q =
      if q = p then (k.proctab p).enter t.esp t.cause else k.proctab q := rfl

@[simp] theorem Pcb.enter_state (c : Pcb) (esp : Word) (cause : Cause) :
    (c.enter esp cause).state = c.state := by cases cause <;> rfl

@[simp] theorem Pcb.enter_pid (c : Pcb) (esp : Word) (cause : Cause) :
    (c.enter esp cause).pid = c.pid := by cases cause <;> rfl

@[simp] theorem Pcb.enter_next (c : Pcb) (esp : Word) (cause : Cause) :
    (c.enter esp cause).next = c.next := by cases cause <;> rfl

@[simp] theorem Pcb.enter_sigPending (c : Pcb) (esp : Word) (cause : Cause) :
    (c.enter esp cause).sigPending = c.sigPending := by cases cause <;> rfl

@[simp] theorem Pcb.enter_sigAllow (c : Pcb) (esp : Word) (cause : Cause) :
    (c.enter esp cause).sigAllow = c.sigAllow := by cases cause <;> rfl

@[simp] theorem Pcb.enter_sigPriority (c : Pcb) (esp : Word) (cause : Cause) :
    (c.enter esp cause).sigPriority = c.sigPriority := by cases cause <;> rfl

@[simp] theorem Pcb.enter_handler (c : Pcb) (esp : Word) (cause : Cause) (n : Int) :
    (c.enter esp cause).handler n = c.handler n := by cases cause <;> rfl

theorem contextswitch_good (hg : Good k) (hu : k.Used p) (t : Trap) :
    Good (contextswitch k p t) := by
  have hm : Good (k.setMem (t.user (k.mem.putWord ((k.proctab p).esp + 28)
      (k.proctab p).ret))) := { hg with }
  exact hm.updSig (p := p) (f := fun c => c.enter t.esp t.cause) hu (by simp) (by simp)

@[simp] theorem contextswitch_pid (k : Kernel) (p q : Slot) (t : Trap) :
    ((contextswitch k p t).proctab q).pid = (k.proctab q).pid := by
  rw [contextswitch_proctab]
  split
  · rename_i h
    simp [h]
  · rfl

@[simp] theorem contextswitch_state (k : Kernel) (p q : Slot) (t : Trap) :
    ((contextswitch k p t).proctab q).state = (k.proctab q).state := by
  rw [contextswitch_proctab]
  split
  · rename_i h
    simp [h]
  · rfl

theorem contextswitch_used (hq : k.Used q) (t : Trap) : (contextswitch k p t).Used q :=
  hq.congr (contextswitch_pid k p q t)

/-- The pcb after a signal has been delivered. -/
def Pcb.deliver (c : Pcb) : Pcb :=
  { c with
    esp := c.esp - sigtrampFrameSize
    sigPriority := getPriorityMask (getNextSignal c.sigPending) }

theorem upd_upd (k : Kernel) (q : Slot) (f g : Pcb → Pcb) :
    (k.upd q f).upd q g = k.upd q fun c => g (f c) := by
  have : ((k.upd q f).upd q g).proctab = (k.upd q fun c => g (f c)).proctab := by
    funext r
    by_cases hr : r = q
    · subst hr
      simp
    · simp [hr]
  unfold Kernel.upd at this ⊢
  rw [Kernel.mk.injEq]
  exact ⟨rfl, this, rfl, rfl, rfl, rfl, rfl, rfl, rfl, rfl, rfl, rfl, rfl, rfl, rfl⟩

/-- Delivery changes the stack pointer and the priority of the process. -/
theorem deliverSignalsIfany_eq (hu : k.Used p) :
    deliverSignalsIfany k p =
      if deliverable (k.proctab p) then
        (k.setMem (setupFrame k (k.proctab p) (getNextSignal (k.proctab p).sigPending))).upd p
          Pcb.deliver
      else k := by
  unfold deliverSignalsIfany modifyProcessStack
  dsimp only
  split
  · have hp : slotOf (((k.setMem (setupFrame k (k.proctab p)
        (getNextSignal (k.proctab p).sigPending))).upd p fun c =>
          { c with esp := c.esp - sigtrampFrameSize }).proctab p).pid = p := by
      simpa using hu.2.1
    rw [hp, upd_upd]
    rw [Kernel.upd, Kernel.upd, Kernel.mk.injEq]
    refine ⟨rfl, ?_, rfl, rfl, rfl, rfl, rfl, rfl, rfl, rfl, rfl, rfl, rfl, rfl, rfl⟩
    funext r
    split <;> rfl
  · rfl

/-- The pcbs at the head of the loop. -/
theorem loopTop_proctab (hu : k.Used p) (q : Slot) :
    (loopTop k p).k.proctab q =
      if q = p then
        if deliverable (k.proctab p) then ((k.proctab p).setState .running).deliver
        else (k.proctab p).setState .running
      else k.proctab q := by
  have hr : ((run k p).proctab p) = (k.proctab p).setState .running := by
    simp [run]
  have hd : deliverable ((run k p).proctab p) ↔ deliverable (k.proctab p) := by
    rw [hr]
    rfl
  have hu' : (run k p).Used p := hu.congr (by rw [hr]; rfl)
  have hk : (loopTop k p).k = deliverSignalsIfany (run k p) p := rfl
  rw [hk, deliverSignalsIfany_eq hu']
  by_cases h : deliverable (k.proctab p)
  · rw [if_pos (hd.mpr h), if_pos h]
    by_cases hq : q = p
    · subst hq
      simp [hr]
    · simp [hq, run]
  · rw [if_neg (mt hd.mp h), if_neg h]
    by_cases hq : q = p
    · subst hq
      simp [hr]
    · simp [hq, run]

@[simp] theorem loopTop_p (k : Kernel) (p : Slot) : (loopTop k p).p = p := rfl

theorem loopTop_good (hg : Good k) (hu : k.Used p) :
    Good (loopTop k p).k ∧ (loopTop k p).k.Used p := by
  have hr := run_quiet (X := nobody) hg hu
  have hur := hr.used hu
  have hk : (loopTop k p).k = deliverSignalsIfany (run k p) p := rfl
  rw [hk, deliverSignalsIfany_eq hur]
  split
  · have hm : Good ((run k p).setMem (setupFrame (run k p) ((run k p).proctab p)
        (getNextSignal ((run k p).proctab p).sigPending))) := { hr.good with }
    exact ⟨hm.updSig (p := p) hur rfl rfl, hur.upd rfl⟩
  · exact ⟨hr.good, hur⟩

/-- A turn: the process enters the kernel, its request is served, and a process
is put on the processor. -/
theorem turn_cases (h : turn s t = .ok s') :
    ∃ k₂, serve (contextswitch s.k s.p t) s.p t.ambient t.cause.request = .ok (k₂, s'.p)
      ∧ s' = loopTop k₂ s'.p := by
  simp only [turn, Run.bind_eq_ok, pure, Except.pure, Except.ok.injEq] at h
  obtain ⟨⟨k₂, p₂⟩, h₂, rfl⟩ := h
  exact ⟨k₂, h₂, rfl⟩

/-! ## Good pointers in every run -/

/-- The pointers are good and the process on the processor is running. -/
structure Sound (s : Disp) : Prop where
  good : Good s.k
  used : s.k.Used s.p
  running : (s.k.proctab s.p).state = .running

theorem loopTop_sound (hg : Good k) (hu : k.Used p) : Sound (loopTop k p) := by
  obtain ⟨h₁, h₂⟩ := loopTop_good hg hu
  refine ⟨h₁, h₂, ?_⟩
  rw [loopTop_p, loopTop_proctab hu, if_pos rfl]
  split <;> rfl

/-- A turn from a sound state, with the kernel `k₁` at the entry and `k₂` when
the request has been served. -/
theorem turn_served (hs : Sound s) (h : turn s t = .ok s') :
    ∃ k₂, Served (contextswitch s.k s.p t) s.p t.ambient t.cause.request k₂ s'.p
      ∧ Good k₂ ∧ k₂.Used s'.p ∧ s' = loopTop k₂ s'.p := by
  obtain ⟨k₂, h₂, h₃⟩ := turn_cases h
  have hg := contextswitch_good hs.good hs.used t
  have hu := contextswitch_used (p := s.p) hs.used t
  obtain ⟨h₄, h₅⟩ := serve_served hg hu h₂
  exact ⟨k₂, h₄, h₄.good hg hu, h₅, h₃⟩

theorem Sound.turn (hs : Sound s) (h : turn s t = .ok s') : Sound s' := by
  obtain ⟨k₂, -, hg, hu, he⟩ := turn_served hs h
  rw [he]
  exact loopTop_sound hg hu

end Xeros
