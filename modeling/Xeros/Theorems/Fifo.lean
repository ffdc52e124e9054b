import Xeros.Logic.Fifo
import Xeros.Theorems.Queues
import Mathlib.Data.List.Rotate

/-!
# First in, first out

The ready queue in every sequence of calls of `ready` and `next`, and what follows for processes
that only yield and are interrupted: they take turns.
-/

namespace Xeros

open Lib

variable {k k' : Kernel} {a : Ambient} {p p' q : Slot} {Q : List Slot} {s s' : Disp} {t : Trap}

/-! ## Sequences of calls -/

/-- A call of `ready` or of `next`, or a step of the rest of the kernel. -/
inductive QueueCall where
  | ready (p : Slot)
  | next
  | other

/-- The rest of the kernel leaves the queue and the processes in it alone. -/
structure QueueKept (k k' : Kernel) : Prop where
  head : k'.head = k.head
  tail : k'.tail = k.tail
  member : ∀ Q, Chain k.link k.head Q → ∀ q ∈ Q, k'.link q = k.link q ∧
    (k'.proctab q).state = (k.proctab q).state ∧ (k'.proctab q).pid = (k.proctab q).pid

/-- Sequences of calls in which `ready` is called for processes that are not in the queue. -/
def queueCalls : TSys Kernel QueueCall where
  init k := ∃ img, k = dispatchinit img
  step k c k' := match c with
    | .ready p => k.Used p ∧ (∀ Q, Chain k.link k.head Q → p ∉ Q) ∧ ready k p = .ok k'
    | .next => ∃ p, next k = .ok (k', p)
    | .other => QueueKept k k'

theorem ReadyQueue.kept (h : ReadyQueue k Q) (hk : QueueKept k k') : ReadyQueue k' Q := by
  have hm := hk.member Q h.chain
  refine ⟨h.toReadyList.congr hk.head hk.tail fun q hq => (hm q hq).1, fun q hq => ?_,
    fun q hq => ?_⟩
  · exact (h.used q hq).congr (hm q hq).2.2
  · exact (hm q hq).2.1.trans (h.state q hq)

/-- Every queue begins with idle processes only, or has a first process that is not. -/
theorem exists_first (k : Kernel) (Q : List Slot) :
    (∀ r ∈ Q, k.Idle r) ∨ ∃ A q B, Q = A ++ q :: B ∧ (∀ r ∈ A, k.Idle r) ∧ ¬ k.Idle q := by
  induction Q with
  | nil =>
      left
      intro r hr
      cases hr
  | cons x Q ih =>
      by_cases hx : k.Idle x
      · rcases ih with hQ | ⟨A, q, B, rfl, hA, hq⟩
        · exact .inl (List.forall_mem_cons.mpr ⟨hx, hQ⟩)
        · exact .inr ⟨x :: A, q, B, rfl, List.forall_mem_cons.mpr ⟨hx, hA⟩, hq⟩
      · refine .inr ⟨[], x, Q, rfl, fun r hr => ?_, hx⟩
        cases hr

/-- The calls keep a list. -/
theorem readyQueue_of_reachable (h : queueCalls.Reachable k) : ∃ Q, ReadyQueue k Q := by
  refine TSys.Inductive.holds (T := queueCalls) (I := fun k => ∃ Q, ReadyQueue k Q)
    ⟨?_, ?_⟩ h
  · rintro k ⟨img, rfl⟩
    exact ⟨[], ⟨rfl, rfl, List.nodup_nil⟩, by simp, by simp⟩
  · rintro k c k' ⟨Q, hQ⟩ - hs
    cases c with
    | ready p =>
        obtain ⟨hu, hp, hr⟩ := hs
        rw [ready_of_used hu, Except.ok.injEq] at hr
        exact ⟨_, hr ▸ hQ.readied (hp Q hQ.chain) hu⟩
    | next =>
        obtain ⟨p, hn⟩ := hs
        rcases exists_first k Q with hQ' | ⟨A, q, B, rfl, hA, hq⟩
        · obtain ⟨k₁, h₁, hk₁⟩ := hQ.next_idle hQ'
          rw [h₁, Except.ok.injEq, Prod.mk.injEq] at hn
          exact ⟨[], hn.1 ▸ hk₁⟩
        · obtain ⟨k₁, h₁, hk₁⟩ := hQ.next hA hq
          rw [h₁, Except.ok.injEq, Prod.mk.injEq] at hn
          exact ⟨B, hn.1 ▸ hk₁⟩
    | other => exact ⟨Q, hQ.kept hs⟩

/-- The queue is the list `Q`: `ready` adds a process at its end, unless it is the idle process,
and `next` takes the first one that is not the idle process and those before it. -/
structure IsFifo (k : Kernel) (Q : List Slot) : Prop extends ReadyList k Q where
  ends : k.head = Q.head? ∧ k.tail = Q.getLast?
  enters : ∀ p, k.Used p → p ∉ Q → ∃ k', ready k p = .ok k' ∧
    ReadyList k' (if k.Idle p then Q else Q ++ [p])
  leaves : ∀ A q B, Q = A ++ q :: B → (∀ r ∈ A, k.Idle r) → ¬ k.Idle q →
    ∃ k', next k = .ok (k', q) ∧ ReadyList k' B
  rests : (∀ r ∈ Q, k.Idle r) →
    ∃ k', next k = .ok (k', slotOf k.idleprocPid) ∧ ReadyList k' []

theorem ReadyQueue.isFifo (h : ReadyQueue k Q) : IsFifo k Q where
  toReadyList := h.toReadyList
  ends := h.ends
  enters p hu hp := ⟨_, ready_of_used hu, h.toReadyList.readied hp⟩
  leaves A q B hQ hA hq := by
    subst hQ
    obtain ⟨k', hk', hB⟩ := h.next hA hq
    exact ⟨k', hk', hB.toReadyList⟩
  rests hQ := by
    obtain ⟨k', hk', hB⟩ := h.next_idle hQ
    exact ⟨k', hk', hB.toReadyList⟩

/-! ## Taking turns -/

/-- `p` has the processor, the other processes that are ready are in the queue `Q`, and nobody
sleeps. -/
structure Lined (k : Kernel) (p : Slot) (Q : List Slot) : Prop where
  queue : ReadyQueue k Q
  used : k.Used p
  out : p ∉ Q
  listed : ∀ q, q ≠ p → (k.proctab q).state = .ready → ¬ k.Idle q → q ∈ Q
  awake : k.headsleeper = none

/-- The order in which the processes of the queue and `p` get the processor. -/
def Kernel.order (k : Kernel) (p : Slot) (Q : List Slot) : List Slot :=
  (Q ++ [p]).filter fun q => ¬ k.Idle q

/-- A process that is not the idle process and runs or is ready to. -/
def Disp.Runnable (s : Disp) (q : Slot) : Prop :=
  ¬ s.k.Idle q ∧ (q = s.p ∨ (s.k.proctab q).state = .ready)

theorem Lined.mem_order (h : Lined s.k s.p Q) : q ∈ s.k.order s.p Q ↔ s.Runnable q := by
  unfold Kernel.order Disp.Runnable
  rw [List.mem_filter, List.mem_append, List.mem_singleton, decide_eq_true_eq, and_comm]
  refine and_congr_right fun hi => ?_
  constructor
  · rintro (hq | hq)
    · exact .inr (h.queue.state q hq)
    · exact .inl hq
  · rintro (hq | hq)
    · exact .inr hq
    · by_cases hqp : q = s.p
      · exact .inr hqp
      · exact .inl (h.listed q hqp hq hi)

theorem Lined.nodup_order (h : Lined k p Q) : (k.order p Q).Nodup := by
  unfold Kernel.order
  rw [← List.concat_eq_append]
  exact (h.queue.nodup.concat h.out).filter _

/-- Only the links, the states, the pids and the ends of the lists matter. -/
theorem Lined.unmoved (h : Lined k p Q) (hu : Unmoved k k') : Lined k' p Q := by
  have hidle : ∀ q, k'.Idle q ↔ k.Idle q := by
    intro q
    unfold Kernel.Idle
    rw [hu.pid, hu.idle]
  refine ⟨⟨?_, fun q hq => hu.used (h.queue.used q hq), fun q hq => ?_⟩, hu.used h.used, h.out,
    fun q hq hs hi => ?_, ?_⟩
  · exact h.queue.toReadyList.congr (hu.first .ready) hu.tail fun q _ => hu.next q
  · rw [hu.state]
    exact h.queue.state q hq
  · rw [hu.state] at hs
    exact h.listed q hq hs (mt (hidle q).mpr hi)
  · exact (hu.first .sleep).trans h.awake

/-- The process is put on the processor. -/
theorem Lined.run (h : Lined k p Q) : Lined (run k p) p Q := by
  have hne : ∀ q, q ≠ p → (Xeros.run k p).proctab q = k.proctab q := by
    intro q hq
    simp [Xeros.run, hq]
  have hpid : ((Xeros.run k p).proctab p).pid = (k.proctab p).pid := by simp [Xeros.run]
  have hqueue : ReadyQueue (k.upd p fun c => c.setState .running) Q :=
    h.queue.upd (.inl rfl) (.inr h.out) rfl
  refine ⟨⟨hqueue.toReadyList.congr rfl rfl fun _ _ => rfl, hqueue.used, hqueue.state⟩,
    h.used.congr hpid, h.out, fun q hq hs hi => ?_, h.awake⟩
  rw [hne q hq] at hs
  refine h.listed q hq hs fun hidle => hi ?_
  unfold Kernel.Idle
  rw [hne q hq]
  exact hidle

/-- It gets its signals. -/
theorem Lined.loopTop (h : Lined k p Q) : Lined (loopTop k p).k p Q := by
  have hk : (Xeros.loopTop k p).k = deliverSignalsIfany (Xeros.run k p) p := rfl
  rw [hk, deliverSignalsIfany_eq h.run.used]
  split
  · exact h.run.unmoved (.trans (.setMem _ _) (.upd _ p rfl rfl rfl))
  · exact h.run

/-- The order depends on the pids. -/
theorem Kernel.order_congr (hpid : ∀ q, (k'.proctab q).pid = (k.proctab q).pid)
    (hi : k'.idleprocPid = k.idleprocPid) : k'.order p Q = k.order p Q := by
  unfold Kernel.order
  congr 1
  funext q
  refine decide_eq_decide.mpr (not_congr ?_)
  unfold Kernel.Idle
  rw [hpid, hi]

theorem order_loopTop (hu : k.Used p) : (loopTop k p).k.order p Q = k.order p Q := by
  refine Kernel.order_congr (fun q => ?_) ?_
  · rw [loopTop_proctab hu]
    split
    · rename_i hq
      subst hq
      split
      · rfl
      · rfl
    · rfl
  · unfold loopTop deliverSignalsIfany
    dsimp only
    split
    · rfl
    · rfl

/-- `p` has given up the processor. -/
structure AllLined (k : Kernel) (Q : List Slot) : Prop where
  queue : ReadyQueue k Q
  listed : ∀ q, (k.proctab q).state = .ready → ¬ k.Idle q → q ∈ Q
  awake : k.headsleeper = none

theorem readied_frame (k : Kernel) (p : Slot) : (readied k p).idleprocPid = k.idleprocPid ∧
    (readied k p).headsleeper = k.headsleeper := by
  unfold readied enqueue
  dsimp only
  split
  · exact ⟨rfl, rfl⟩
  · split
    · exact ⟨rfl, rfl⟩
    · exact ⟨rfl, rfl⟩

theorem readied_idle (k : Kernel) (p q : Slot) : (readied k p).Idle q ↔ k.Idle q := by
  unfold Kernel.Idle
  rw [readied_pid, (readied_frame k p).1]

theorem Lined.readied (h : Lined k p Q) : AllLined (readied k p) (k.queued p Q) := by
  refine ⟨h.queue.readied h.out h.used, fun q hs hi => ?_, (readied_frame k p).2.trans h.awake⟩
  rw [readied_idle] at hi
  unfold Kernel.queued
  by_cases hqp : q = p
  · subst hqp
    rw [if_neg hi]
    simp
  · rw [readied_other k hqp] at hs
    have hm := h.listed q hqp hs hi
    split
    · exact hm
    · exact List.mem_append_left _ hm

/-- The order is that of the queue after `ready`. -/
theorem filter_queued (k : Kernel) (p : Slot) (Q : List Slot) :
    ((k.queued p Q).filter fun q => ¬ (readied k p).Idle q) = k.order p Q := by
  have hf : (fun q => decide (¬ (readied k p).Idle q)) = fun q => decide (¬ k.Idle q) := by
    funext q
    exact decide_eq_decide.mpr (not_congr (readied_idle k p q))
  rw [hf]
  unfold Kernel.queued Kernel.order
  by_cases hi : k.Idle p
  · rw [if_pos hi, List.filter_append, List.filter_singleton]
    simp [hi]
  · rw [if_neg hi]

/-- The first process in the order gets the processor and is the last one then. -/
theorem AllLined.next (h : AllLined k Q) (hne : (Q.filter fun q => ¬ k.Idle q) ≠ []) :
    ∃ k' p B, Xeros.next k = .ok (k', p) ∧ Lined k' p B ∧
      k'.order p B = (Q.filter fun q => ¬ k.Idle q).rotate 1 ∧
      (Q.filter fun q => ¬ k.Idle q).head? = some p := by
  rcases exists_first k Q with hQ | ⟨A, p, B, rfl, hA, hp⟩
  · refine absurd (List.filter_eq_nil_iff.mpr fun q hq => ?_) hne
    simpa using hQ q hq
  · obtain ⟨k', hk', hB⟩ := h.queue.next hA hp
    have hf := NextFrame.next hk'
    have hidle : ∀ q, k'.Idle q ↔ k.Idle q := by
      intro q
      unfold Kernel.Idle
      rw [hf.pid, hf.idle]
    have hfun : (fun q => decide (¬ k'.Idle q)) = fun q => decide (¬ k.Idle q) := by
      funext q
      exact decide_eq_decide.mpr (not_congr (hidle q))
    have hA0 : (A.filter fun q => ¬ k.Idle q) = [] := by
      refine List.filter_eq_nil_iff.mpr fun q hq => ?_
      simpa using hA q hq
    have hfilter : ((A ++ p :: B).filter fun q => ¬ k.Idle q)
        = p :: B.filter fun q => ¬ k.Idle q := by
      rw [List.filter_append, hA0, List.nil_append, List.filter_cons_of_pos (by simpa using hp)]
    refine ⟨k', p, B, hk', ⟨hB, ?_, ?_, fun q hqp hs hi => ?_, hf.sleeper.trans h.awake⟩, ?_, ?_⟩
    · exact (h.queue.used p (by simp)).congr (hf.pid p)
    · have hnd := (List.nodup_append.mp h.queue.nodup).2.1
      exact (List.nodup_cons.mp hnd).1
    · rw [hidle] at hi
      rw [hf.state q hi] at hs
      rcases List.mem_append.mp (h.listed q hs hi) with hm | hm
      · exact absurd (hA q hm) hi
      · exact (List.mem_cons.mp hm).resolve_left hqp
    · rw [hfilter, List.rotate_cons_succ, List.rotate_zero]
      unfold Kernel.order
      rw [hfun, List.filter_append, List.filter_singleton]
      simp [hp]
    · rw [hfilter]
      rfl

/-- The requests after which a process only waits for its turn. -/
def Request.gives (req : Request) : Prop := req = .yield ∨ req = .timer

/-- The process that is chosen runs next, whatever it has been told of its signals. -/
theorem AllLined.reschedule (h : AllLined k Q) (hne : (Q.filter fun q => ¬ k.Idle q) ≠ []) :
    ∃ k' p B, reschedule k = .ok (k', p) ∧ Lined k' p B ∧
      k'.order p B = (Q.filter fun q => ¬ k.Idle q).rotate 1 ∧
      (Q.filter fun q => ¬ k.Idle q).head? = some p := by
  obtain ⟨k₁, p, B, h₁, hl, hord, hhead⟩ := h.next hne
  refine ⟨run k₁ p, p, B, ?_, hl.run, ?_, hhead⟩
  · unfold Xeros.reschedule
    rw [h₁]
    rfl
  · rw [← hord]
    refine Kernel.order_congr (fun q => ?_) rfl
    by_cases hq : q = p
    · subst hq
      simp [run]
    · simp [run, hq]

/-- A yield or a timer interrupt gives the processor to the next process in the order. -/
theorem Lined.serve (h : Lined k p Q) (hne : k.order p Q ≠ []) {req : Request}
    (hreq : req.gives) : ∃ k' p' B, serve k p a req = .ok (k', p') ∧ Lined k' p' B ∧
      k'.order p' B = (k.order p Q).rotate 1 ∧ (k.order p Q).head? = some p' := by
  have hr := ready_of_used h.used
  rw [← filter_queued] at hne ⊢
  obtain ⟨k', p', B, h₁, hl, hord, hhead⟩ := h.readied.reschedule hne
  refine ⟨k', p', B, ?_, hl, hord, hhead⟩
  rcases hreq with rfl | rfl
  · simp only [Xeros.serve, hr, bind, Except.bind]
    exact h₁
  · have htick : tick k' a.fuel = .ok k' := by
      unfold tick
      rw [hl.awake]
      rfl
    simp only [Xeros.serve, sysTimer, hr, h₁, htick, bind, Except.bind, pure, Except.pure]

/-- One turn. -/
theorem Lined.turn (h : Lined s.k s.p Q) (hne : s.k.order s.p Q ≠ [])
    (hreq : t.cause.request.gives) (hs : turn s t = .ok s') :
    ∃ B, Lined s'.k s'.p B ∧ s'.k.order s'.p B = (s.k.order s.p Q).rotate 1 ∧
      (s.k.order s.p Q).head? = some s'.p := by
  have hcs : Lined (contextswitch s.k s.p t) s.p Q := h.unmoved (.contextswitch s.k s.p t)
  have hord : (contextswitch s.k s.p t).order s.p Q = s.k.order s.p Q :=
    Kernel.order_congr (fun q => contextswitch_pid _ _ q t) rfl
  obtain ⟨k₂, hserve, he⟩ := turn_cases hs
  rw [← hord] at hne ⊢
  obtain ⟨k', p', B, h₁, hl, hrot, hhead⟩ := hcs.serve (a := t.ambient) hne hreq
  rw [h₁, Except.ok.injEq, Prod.mk.injEq] at hserve
  obtain ⟨rfl, rfl⟩ := hserve
  rw [he]
  exact ⟨B, hl.loopTop, (order_loopTop hl.used).trans hrot, hhead⟩

/-! ## Rotation -/

/-- The states of a run in which processes only yield and are interrupted. -/
structure Turns (m : ℕ) (run : ℕ → Disp) (t : ℕ → Trap) : Prop where
  step : ∀ i < m, turn (run i) (t i) = .ok (run (i + 1))
  gives : ∀ i < m, (t i).cause.request.gives

/-- Every `O.length` consecutive switches choose the processes of `O` in the same cyclic
order. -/
def Rotates (m : ℕ) (run : ℕ → Disp) (O : List Slot) : Prop :=
  ∀ i, i + O.length ≤ m →
    ((List.range O.length).map fun j => (run (i + j + 1)).p) = O.rotate i

/-- Each turn rotates the order. -/
theorem Turns.order {m : ℕ} {run : ℕ → Disp} {t : ℕ → Trap} (h : Turns m run t)
    (h₀ : Lined (run 0).k (run 0).p Q) (hne : (run 0).k.order (run 0).p Q ≠ []) {i : ℕ}
    (hi : i ≤ m) : ∃ B, Lined (run i).k (run i).p B ∧
      (run i).k.order (run i).p B = ((run 0).k.order (run 0).p Q).rotate i := by
  induction i with
  | zero => exact ⟨Q, h₀, (List.rotate_zero _).symm⟩
  | succ i ih =>
      obtain ⟨B, hl, hord⟩ := ih (by omega)
      have hne' : (run i).k.order (run i).p B ≠ [] := by
        rw [hord, Ne, List.rotate_eq_nil_iff]
        exact hne
      obtain ⟨B', hl', hord', -⟩ := hl.turn hne' (h.gives i hi) (h.step i hi)
      exact ⟨B', hl', by rw [hord', hord, List.rotate_rotate]⟩

/-- The process that the `i`-th switch chooses. -/
theorem Turns.chosen {m : ℕ} {run : ℕ → Disp} {t : ℕ → Trap} (h : Turns m run t)
    (h₀ : Lined (run 0).k (run 0).p Q) (hne : (run 0).k.order (run 0).p Q ≠ []) {i : ℕ}
    (hi : i < m) :
    (((run 0).k.order (run 0).p Q).rotate i).head? = some (run (i + 1)).p := by
  obtain ⟨B, hl, hord⟩ := h.order h₀ hne (Nat.le_of_lt hi)
  have hne' : (run i).k.order (run i).p B ≠ [] := by
    rw [hord, Ne, List.rotate_eq_nil_iff]
    exact hne
  obtain ⟨-, -, -, hhead⟩ := hl.turn hne' (h.gives i hi) (h.step i hi)
  rwa [hord] at hhead

/-- The processes take turns. -/
theorem Turns.rotates {m : ℕ} {run : ℕ → Disp} {t : ℕ → Trap} (h : Turns m run t)
    (h₀ : Lined (run 0).k (run 0).p Q) : Rotates m run ((run 0).k.order (run 0).p Q) := by
  intro i hi
  generalize hO : (run 0).k.order (run 0).p Q = O at *
  refine List.ext_getElem? fun j => ?_
  by_cases hj : j < O.length
  · have hne : (run 0).k.order (run 0).p Q ≠ [] := by
      rw [hO]
      rintro rfl
      exact Nat.not_lt_zero j hj
    have hc := h.chosen h₀ hne (i := i + j) (by omega)
    rw [hO, ← List.rotate_rotate, List.head?_rotate (by simpa using hj)] at hc
    rw [hc]
    simp [hj]
  · rw [List.getElem?_eq_none (by simpa using hj), List.getElem?_eq_none (by simpa using hj)]

/-- A state whose lists are in order and in which nobody sleeps is lined up. -/
theorem Queues.lined {L : Queue → List Slot} (h : Queues s.k none L) (hs : Sound s)
    (hsleep : s.k.headsleeper = none) : Lined s.k s.p (L .ready) := by
  have hstate : ∀ q ∈ L .ready, (s.k.proctab q).state = .ready := by
    intro q hq
    have hplaced := h.placed .ready q hq
    cases hst : (s.k.proctab q).state <;> rw [hst] at hplaced <;> first | rfl | cases hplaced
  refine ⟨⟨⟨h.chain .ready, h.tail, h.nodup .ready⟩, fun q hq => ?_, hstate⟩, hs.used,
    h.notMem_of_running hs.running, fun q _ hst hi => ?_, hsleep⟩
  · refine hs.good.used ?_
    rw [hstate q hq]
    decide
  · refine h.found q .ready (by simp) ?_ (by decide) fun _ => hi
    rw [hst]
    rfl

/-- While nobody sleeps, processes that only yield and are interrupted take turns from every
state on that is reached by moving processes safely. -/
theorem Turns.rotates_of_reachable {m : ℕ} {run : ℕ → Disp} {t : ℕ → Trap} (h : Turns m run t)
    (hr : dispatcher.ReachableUnder StepMovesSafely (run 0))
    (hsleep : (run 0).k.headsleeper = none) :
    ∃ O : List Slot, O.Nodup ∧ (∀ q, q ∈ O ↔ (run 0).Runnable q) ∧ Rotates m run O := by
  obtain ⟨hs, L, hq⟩ := queues_of_reachable hr
  have hl := hq.lined hs hsleep
  exact ⟨_, hl.nodup_order, fun q => hl.mem_order, h.rotates hl⟩

/-- The ready queue is first in, first out, and processes that only yield and are interrupted
take turns. -/
theorem ready_queue_fifo :
    (∀ k, queueCalls.Reachable k → ∃ Q, IsFifo k Q) ∧
      ∀ (m : ℕ) (run : ℕ → Disp) (t : ℕ → Trap) (Q : List Slot), Turns m run t →
        Lined (run 0).k (run 0).p Q →
          ∃ O : List Slot, O.Nodup ∧ (∀ q, q ∈ O ↔ (run 0).Runnable q) ∧ Rotates m run O := by
  constructor
  · intro k hk
    obtain ⟨Q, hQ⟩ := readyQueue_of_reachable hk
    exact ⟨Q, hQ.isFifo⟩
  · intro m run t Q hrun hl
    exact ⟨_, hl.nodup_order, fun q => hl.mem_order, hrun.rotates hl⟩

/-- The root process and process 3 yield in turn. -/
def turning : ℕ → Disp
  | 0 => (turn sampleBoot (sampleCall .create [0x1400, 0])).getD sampleBoot
  | i + 1 => (turn (turning i) (sampleCall .yield [])).getD (turning i)

/-- Two turns of the two processes. -/
theorem turning_turns : Turns 2 turning fun _ => sampleCall .yield [] := by
  have h : (turn (turning 0) (sampleCall .yield [])).isOk = true ∧
      (turn (turning 1) (sampleCall .yield [])).isOk = true := by decide +kernel
  refine ⟨fun i hi => Run.eq_getD ?_, fun i _ => .inl rfl⟩
  obtain rfl | rfl : i = 0 ∨ i = 1 := by omega
  · exact h.1
  · exact h.2

/-- The idle process and process 3 are ready, and the root process runs. -/
theorem turning_lined : Lined (turning 0).k (turning 0).p [2, 3] := by
  have hends : (turning 0).k.head = some 2 ∧ (turning 0).k.link 2 = some 3 ∧
      (turning 0).k.link 3 = none ∧ (turning 0).k.tail = some 3 ∧ (turning 0).p = 1 := by
    decide +kernel
  have hpcbs : (∀ q ∈ [(2 : Slot), 3], (turning 0).k.Used q ∧
      ((turning 0).k.proctab q).state = .ready) ∧ (turning 0).k.Used 1 ∧
      (∀ q : Slot, q ≠ 1 → ((turning 0).k.proctab q).state = .ready → q ∈ [(2 : Slot), 3]) ∧
      (turning 0).k.headsleeper = none := by
    unfold Kernel.Used
    decide +kernel
  obtain ⟨hh, h2, h3, ht, hp⟩ := hends
  obtain ⟨hq, hu, hready, hsleep⟩ := hpcbs
  rw [hp]
  exact ⟨⟨⟨⟨hh, h2, h3⟩, ht, by decide⟩, fun q hm => (hq q hm).1, fun q hm => (hq q hm).2⟩, hu,
    by decide, fun q hq hs _ => hready q hq hs, hsleep⟩

/-- Processes 1 and 3 are made ready, in this order, and the first of them is taken. -/
def queued₁ : Kernel :=
  ((dispatchinit sampleImage).upd 1 fun c => { c with pid := 1 }).upd 3 fun c => { c with pid := 3 }

@[inherit_doc queued₁]
def queued₂ : Kernel := (ready queued₁ 1).getD queued₁

@[inherit_doc queued₁]
def queued₃ : Kernel := (ready queued₂ 3).getD queued₂

@[inherit_doc queued₁]
def queued₄ : Kernel := ((next queued₃).getD (queued₃, 0)).1

theorem queued₄_reachable : queueCalls.Reachable queued₄ := by
  have hfacts : (ready queued₁ 1).isOk = true ∧ (ready queued₂ 3).isOk = true ∧
      (next queued₃).isOk = true ∧ queued₁.head = none ∧ queued₂.head = some 1 ∧
      queued₂.link 1 = none := by decide +kernel
  obtain ⟨h₁, h₂, h₃, hnone, hhead, hlink⟩ := hfacts
  have hr₁ : queueCalls.Reachable queued₁ := by
    refine TSys.ReachableUnder.tail (a := .other) ⟨dispatchinit sampleImage, ⟨_, rfl⟩, .refl⟩ trivial
      ⟨rfl, rfl, fun Q hQ q hq => ?_⟩
    obtain rfl : Q = [] := Chain.none_iff.mp hQ
    cases hq
  have hr₂ : queueCalls.Reachable queued₂ := by
    refine hr₁.tail (a := .ready 1) trivial ⟨?_, fun Q hQ hq => ?_, Run.eq_getD h₁⟩
    · exact ⟨by decide, by decide +kernel, by decide +kernel⟩
    · rw [hnone, Chain.none_iff] at hQ
      subst hQ
      cases hq
  have hr₃ : queueCalls.Reachable queued₃ := by
    refine hr₂.tail (a := .ready 3) trivial ⟨?_, fun Q hQ hq => ?_, Run.eq_getD h₂⟩
    · exact ⟨by decide, by decide +kernel, by decide +kernel⟩
    · obtain rfl : Q = [1] := hQ.unique ⟨hhead, hlink⟩
      exact absurd hq (by decide)
  exact hr₃.tail (a := .next) trivial ⟨_, Run.eq_getD (s := (queued₃, 0)) h₃⟩

/-- Process 3 is left in the queue, and two processes take turns. -/
theorem ready_queue_fifo_of_two : (queued₄.head = some 3 ∧ ∃ Q, IsFifo queued₄ Q) ∧
    ∃ O : List Slot, O.Nodup ∧ (∀ q, q ∈ O ↔ (turning 0).Runnable q) ∧ Rotates 2 turning O :=
  ⟨⟨by decide +kernel, ready_queue_fifo.1 _ queued₄_reachable⟩,
    ready_queue_fifo.2 2 turning _ _ turning_turns turning_lined⟩

end Xeros
