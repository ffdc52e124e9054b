import Xeros.Logic.Line
import Xeros.Logic.Progress
import Xeros.Theorems.Queues

/-!
# Every turn comes to its end

In a run in which nobody is taken out of the middle of a list, the code of the kernel neither
stops nor hangs: whatever a process does, no assertion fails, no null pcb is followed, every loop
ends within a bounded number of rounds, and a process runs next. The memory of the model answers
at every address, so the segment limit is not part of this.

What is left for this is the assertion of `SYS_SLEEP` that its caller is not linked. A process
is not linked when it gets the processor, and while it runs nobody links it.
-/

namespace Xeros

open Lib

variable {k k' : Kernel} {p p' q r : Slot} {L : Queue → List Slot} {a : Ambient} {fuel : ℕ}
  {req : Request}

/-! ## The process that runs -/

/-- A state is set beside the link. -/
theorem setState_next (k : Kernel) (q r : Slot) (st : PState) :
    ((k.upd r fun c => c.setState st).proctab q).next = (k.proctab q).next := by
  by_cases hq : q = r
  · subst hq
    rw [Kernel.upd_proctab_self, Pcb.setState_next]
  · rw [Kernel.upd_proctab_ne _ _ _ hq]

/-- `next` cuts the link of the process that it takes from the queue. -/
theorem next_cut (h : next k = .ok (k', p')) (hi : p' ≠ slotOf k.idleprocPid) :
    (k'.proctab p').next = none := by
  have htake : ∀ (k : Kernel) (q : Slot), ((takeHead k q).proctab q).next = none := by
    intro k q
    unfold takeHead
    dsimp only
    split <;> simp
  unfold next at h
  split at h
  · obtain ⟨-, rfl⟩ := Prod.mk.inj (Except.ok.inj h)
    exact absurd rfl hi
  · rename_i q hq
    simp only [Run.bind_eq_ok, pure, Except.pure, Except.ok.injEq] at h
    obtain ⟨_, -, _, -, h⟩ := h
    unfold choose at h
    split at h
    · rename_i r hr
      cases h
      by_cases hrq : p' = q
      · rw [hrq]
        simp
      · rw [Kernel.upd_proctab_ne _ _ _ hrq]
        exact htake _ _
    · split at h
      · cases h
        cases hr : (takeHead k p').running with
        | none => exact htake k p'
        | some r => exact (setState_next _ p' r .ready).trans (htake k p')
      · cases h
        exact htake k p'

theorem reschedule_cut (h : reschedule k = .ok (k', p')) (hi : p' ≠ slotOf k.idleprocPid) :
    (k'.proctab p').next = none := by
  simp only [reschedule, Run.bind_eq_ok, pure, Except.pure, Except.ok.injEq,
    Prod.mk.injEq] at h
  obtain ⟨⟨k₁, q⟩, h₁, rfl, rfl⟩ := h
  exact (setState_next k₁ q q .running).trans (next_cut h₁ hi)

theorem reschedule_running (h : reschedule k = .ok (k', p')) :
    (k'.proctab p').state = .running := by
  simp only [reschedule, Run.bind_eq_ok, pure, Except.pure, Except.ok.injEq,
    Prod.mk.injEq] at h
  obtain ⟨⟨k₁, q⟩, -, rfl, rfl⟩ := h
  simp [run]

/-! ## Runs -/

/-- The process is not linked, unless it is the idle process. -/
def Unlinked (k : Kernel) (p : Slot) : Prop :=
  p ≠ slotOf k.idleprocPid → (k.proctab p).next = none

/-- The process that runs after a request is not linked. -/
theorem Hands.unlinked (h : Hands k p req k' p') (hq : Queues k none L)
    (hp : (k.proctab p).state = .running) (hn : Unlinked k p) : Unlinked k' p' := by
  have hout : ∀ {k : Kernel} {L : Queue → List Slot} {p : Slot}, Queues k none L →
      (k.proctab p).state = .running → k.tail ≠ some p := fun hq hp ht =>
    hq.notMem_of_running (c := .ready) hp (List.mem_of_getLast? (hq.tail ▸ ht))
  cases h with
  | stays _ he h =>
      subst he
      intro hne
      exact (h.link p' not_false (.inl hp) (hout hq hp)).1.trans (hn (h.idle ▸ hne))
  | switches _ _ hq₁ hg₁ hr h₂ =>
      obtain ⟨L₂, hq₂, -⟩ := hq₁.giveUp hg₁ hr
      have hrun := reschedule_running hr
      have hi := (reschedule_quiet (X := nobody) hg₁ hr).1.idle
      intro hne
      refine (h₂.link p' not_false (.inl hrun) (hout hq₂ hrun)).1.trans ?_
      exact reschedule_cut hr (hi ▸ h₂.idle ▸ hne)

theorem loopTop_idle (k : Kernel) (p : Slot) :
    (loopTop k p).k.idleprocPid = k.idleprocPid := by
  unfold loopTop deliverSignalsIfany
  dsimp only
  split
  · rfl
  · rfl

/-- What holds at every call of `contextswitch` in a run of this kind. -/
structure Serviceable (s : Disp) : Prop where
  sound : Sound s
  queues : ∃ L, Queues s.k none L
  unlinked : Unlinked s.k s.p

theorem Serviceable.turn {s s' : Disp} {t : Trap} (h : Serviceable s) (hc : StepMovesSafely s t)
    (ht : Xeros.turn s t = .ok s') : Serviceable s' := by
  obtain ⟨L, hq⟩ := h.queues
  refine ⟨h.sound.turn ht, hq.turn h.sound hc ht, ?_⟩
  obtain ⟨k₂, hserve, he⟩ := turn_cases ht
  have hg := contextswitch_good h.sound.good h.sound.used t
  have hu := contextswitch_used (p := s.p) h.sound.used t
  have hp : ((Xeros.contextswitch s.k s.p t).proctab s.p).state = .running := by
    rw [contextswitch_state]
    exact h.sound.running
  have hcs : Unmoved s.k (Xeros.contextswitch s.k s.p t) := .contextswitch s.k s.p t
  have hn : Unlinked (Xeros.contextswitch s.k s.p t) s.p := fun hne =>
    (hcs.next s.p).trans (h.unlinked (hcs.idle ▸ hne))
  have hq₁ := hq.unmoved hcs
  have hn' := (hq₁.serve_hands hg hu hp hc hserve).unlinked hq₁ hp hn
  obtain ⟨-, hu'⟩ := serve_served hg hu hserve
  rw [he]
  intro hne
  have hcut := hn' ?_
  · rw [loopTop_p, loopTop_proctab hu', if_pos rfl]
    split <;> exact hcut
  · intro hi
    apply hne
    rw [loopTop_p, loopTop_idle]
    exact hi

theorem serviceable_of_reachable {s : Disp} (h : dispatcher.ReachableUnder StepMovesSafely s) :
    Serviceable s := by
  have hinv : dispatcher.Inductive StepMovesSafely Serviceable := by
    constructor
    · intro s h₀
      have hb := booted_of_init h₀
      exact ⟨hb.sound, ⟨_, hb.queues⟩, fun _ => hb.next s.p⟩
    · intro s t s' hs hc ht
      exact hs.turn hc ht
  exact hinv.holds h

theorem spliced₁_safe : dispatcher.ReachableUnder StepMovesSafely spliced₁.d := by
  have hsafe : StepMovesSafely sampleStart.d (sampleCall .create [0x1400, 0]) :=
    .of_create (by decide +kernel) (by decide +kernel)
  exact Recorded.reachable_d
    (Recorded.reachable_after sampleStart_reachable hsafe (by decide +kernel))

end Xeros
