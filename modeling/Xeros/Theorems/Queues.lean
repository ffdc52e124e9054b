import Xeros.Logic.Safe
import Xeros.Logic.History

/-!
# Queues and states

Every process is in the list of its state, in every run in which nobody is taken
out of the middle of a list.
-/

namespace Xeros

open Lib

variable {k k' k₁ k₂ : Kernel} {p p' q r z : Slot} {L : Queue → List Slot} {a : Ambient}
  {fuel : Nat}

theorem Booted.queues {s : Disp} (h : Booted s) :
    Queues s.k none fun c => if c = .ready then [2] else [] where
  chain c := by
    cases c with
    | ready => exact ⟨h.head, h.next 2⟩
    | blocked => exact h.blockedQ
    | dead => exact h.deadQ
    | sleep => exact h.headsleeper
  nodup c := by split <;> simp
  tail := h.tail
  placed c q hq := by
    split at hq
    · rename_i hc
      rw [List.mem_singleton] at hq
      rw [h.state, hq, hc]
      rfl
    · cases hq
  out := by
    rintro _ ⟨⟩
  found q c _ hs hc hi := by
    rw [h.state] at hs
    split at hs
    · cases hs
    split at hs
    · rename_i hq
      obtain rfl : Queue.ready = c := Option.some.inj hs
      simp [hq]
    · exact absurd (Option.some.inj hs).symm hc
  idle := by
    rw [h.idle, h.state]
    exact .inl rfl

/-- The four lists, and how they match the states: a process in a list has the state of
the list, and a process that is ready, blocked or asleep is in the list of its state,
but for the idle process, which may be ready without being in the ready queue. -/
structure WellQueued (k : Kernel) (R B D S : List Slot) : Prop where
  ready : Chain k.link k.head R
  blocked : Chain k.link k.blockedQ B
  dead : Chain k.link k.deadQ D
  sleep : Chain k.link k.headsleeper S
  nodup : (R ++ B ++ D ++ S).Nodup
  ready_of_mem : ∀ q ∈ R, (k.proctab q).state = .ready
  blocked_of_mem : ∀ q ∈ B, (k.proctab q).state = .blocked
  dead_of_mem : ∀ q ∈ D, (k.proctab q).state = .stopped ∨ (k.proctab q).state = .dead
  sleep_of_mem : ∀ q ∈ S, (k.proctab q).state = .sleep
  mem_ready : ∀ q, (k.proctab q).state = .ready → (k.proctab q).pid ≠ k.idleprocPid → q ∈ R
  mem_blocked : ∀ q, (k.proctab q).state = .blocked → q ∈ B
  mem_sleep : ∀ q, (k.proctab q).state = .sleep → q ∈ S

theorem Queues.wellQueued (h : Queues k none L) :
    WellQueued k (L .ready) (L .blocked) (L .dead) (L .sleep) where
  ready := h.chain .ready
  blocked := h.chain .blocked
  dead := h.chain .dead
  sleep := h.chain .sleep
  nodup := by
    have hdisj : ∀ {c d : Queue}, c ≠ d → ∀ a ∈ L c, ∀ b ∈ L d, a ≠ b := by
      rintro c d hcd a ha _ hb rfl
      exact hcd (h.eq_of_mem ha hb)
    simp only [List.nodup_append, List.mem_append]
    refine ⟨⟨⟨h.nodup _, h.nodup _, hdisj (by decide)⟩, h.nodup _, ?_⟩, h.nodup _, ?_⟩
    · rintro a (ha | ha)
      · exact hdisj (by decide) a ha
      · exact hdisj (by decide) a ha
    · rintro a ((ha | ha) | ha)
      · exact hdisj (by decide) a ha
      · exact hdisj (by decide) a ha
      · exact hdisj (by decide) a ha
  ready_of_mem q hq := by
    have := h.placed .ready q hq
    revert this
    cases (k.proctab q).state <;> simp [PState.queue]
  blocked_of_mem q hq := by
    have := h.placed .blocked q hq
    revert this
    cases (k.proctab q).state <;> simp [PState.queue]
  dead_of_mem q hq := by
    have := h.placed .dead q hq
    revert this
    cases (k.proctab q).state <;> simp [PState.queue]
  sleep_of_mem q hq := by
    have := h.placed .sleep q hq
    revert this
    cases (k.proctab q).state <;> simp [PState.queue]
  mem_ready q hs hi := h.found q .ready (by simp) (by rw [hs]; rfl) (by decide) fun _ => hi
  mem_blocked q hs := h.found q .blocked (by simp) (by rw [hs]; rfl) (by decide) nofun
  mem_sleep q hs := h.found q .sleep (by simp) (by rw [hs]; rfl) (by decide) nofun

/-- In every run whose steps move processes safely, the lists are in order. -/
theorem queues_of_reachable {s : Disp} (h : dispatcher.ReachableUnder StepMovesSafely s) :
    Sound s ∧ ∃ L, Queues s.k none L := by
  refine TSys.Inductive.holds (T := dispatcher) (C := StepMovesSafely)
    (I := fun s => Sound s ∧ ∃ L, Queues s.k none L) ⟨?_, ?_⟩ h
  · intro s h₀
    have hb := booted_of_init h₀
    exact ⟨hb.sound, _, hb.queues⟩
  · rintro s t s' ⟨hs, L, hq⟩ hc ht
    exact ⟨hs.turn ht, hq.turn hs hc ht⟩

/-- In every run whose steps move processes safely, the four lists are linear, duplicate
free and disjoint, and match the states. -/
theorem queues_match_states {s : Disp} (h : dispatcher.ReachableUnder StepMovesSafely s) :
    ∃ R B D S, WellQueued s.k R B D S := by
  obtain ⟨-, L, hq⟩ := queues_of_reachable h
  exact ⟨_, _, _, _, hq.wellQueued⟩

/-- A run in which the root process creates process 3 and sends it a message. Process 3
does not receive it and stops. -/
def spliced₁ : Recorded := sampleStart.after (sampleCall .create [0x1400, 0])

@[inherit_doc spliced₁]
def spliced₂ : Recorded := spliced₁.after (sampleCall .send [3, 0x60100, 4])

@[inherit_doc spliced₁]
def spliced₃ : Recorded := spliced₂.after (sampleCallAt 0x61000 .stop [])

theorem spliced₃_reachable : dispatcher.Reachable spliced₃.d := by
  refine Recorded.reachable_d (C := TSys.anyStep) ?_
  refine Recorded.reachable_after ?_ trivial (by decide +kernel)
  refine Recorded.reachable_after ?_ trivial (by decide +kernel)
  exact Recorded.reachable_after sampleStart_reachable trivial (by decide +kernel)

/-- At the end of that run the root process is running and still in `blocked_q`. -/
theorem queues_spliced :
    ¬ ∀ s, dispatcher.Reachable s → ∃ R B D S, WellQueued s.k R B D S := by
  intro h
  obtain ⟨R, B, D, S, hq⟩ := h spliced₃.d spliced₃_reachable
  have hb : spliced₃.d.k.blockedQ = some 1 := by decide +kernel
  have hrun : (spliced₃.d.k.proctab 1).state = .running := by decide +kernel
  have hchain := hq.blocked
  rw [hb] at hchain
  obtain ⟨l, rfl, -⟩ := Chain.some_iff.mp hchain
  have := hq.blocked_of_mem 1 List.mem_cons_self
  rw [hrun] at this
  cases this

/-- A creation moves safely while nothing is in `dead_q`. -/
theorem MovesSafely.of_create (hi : p ≠ slotOf k.idleprocPid) (hd : k.deadQ = none) :
    MovesSafely k p a .create where
  idle h := absurd h hi
  create _ := by
    rintro ⟨i, -, ⟨l, hl⟩, -⟩
    rw [hd] at hl
    simp at hl
  stop := nofun
  send := nofun
  recv := nofun
  sigkill := nofun
  keyboard := nofun

/-- A request that wakes and makes nobody moves safely. -/
theorem MovesSafely.of_alone {req : Request} (hi : p ≠ slotOf k.idleprocPid)
    (h : req ≠ .create ∧ req ≠ .stop ∧ req ≠ .send ∧ req ≠ .recv ∧ req ≠ .sigkill ∧
      req ≠ .keyboard) : MovesSafely k p a req where
  idle h' := absurd h' hi
  create h' := absurd h' h.1
  stop h' := absurd h' h.2.1
  send h' := absurd h' h.2.2.1
  recv h' := absurd h' h.2.2.2.1
  sigkill h' := absurd h' h.2.2.2.2.1
  keyboard h' := absurd h' h.2.2.2.2.2

/-- A send without a peer moves safely. -/
theorem MovesSafely.of_send (hi : p ≠ slotOf k.idleprocPid) (hp : sendPeer k a p = none) :
    MovesSafely k p a .send where
  idle h := absurd h hi
  create := nofun
  stop := nofun
  send _ r hr := by
    rw [hp] at hr
    cases hr
  recv := nofun
  sigkill := nofun
  keyboard := nofun

/-- Up to the stop, the run moves processes safely, and the root process is in
`blocked_q` because it is blocked. -/
theorem queues_match_states_of_sender :
    ∃ R B D S, WellQueued spliced₂.d.k R B D S ∧ 1 ∈ B := by
  have hreach : recorder.ReachableUnder (fun s t => StepMovesSafely s.d t) spliced₂ := by
    refine Recorded.reachable_after ?_ (.of_send ?_ ?_) (by decide +kernel)
    · exact Recorded.reachable_after sampleStart_reachable
        (.of_create (by decide +kernel) (by decide +kernel)) (by decide +kernel)
    · decide +kernel
    · decide +kernel
  have hb : (spliced₂.d.k.proctab 1).state = .blocked := by decide +kernel
  obtain ⟨R, B, D, S, hq⟩ := queues_match_states (Recorded.reachable_d hreach)
  exact ⟨R, B, D, S, hq, hq.mem_blocked 1 hb⟩

end Xeros
