import Xeros.Theorems.Fifo
import Xeros.Theorems.Progress

/-!
# Nobody waits for long

A process that is ready keeps its place in the line: no other process overtakes it, and every
time the processor is handed over it moves up by one, whatever the processes do in between. So
it runs after at most as many switches as there are processes in front of it.
-/

namespace Xeros

open Lib

variable {k k' k₁ k₂ : Kernel} {p p' q r x : Slot} {Q Q' O R : List Slot} {s s' : Disp} {t : Trap}
  {X : Slot → Prop} {L : Queue → List Slot} {req : Request}

/-! ## The line -/

/-- The processes of the ready queue but for the idle process. -/
def Kernel.lineOf (k : Kernel) (Q : List Slot) : List Slot := Q.filter fun q => ¬ k.Idle q

/-- The processes that are ready to run stand in the line `O`. -/
def Line (k : Kernel) (O : List Slot) : Prop := ∃ Q, ReadyQueue k Q ∧ O = k.lineOf Q

theorem Kernel.mem_lineOf : q ∈ k.lineOf Q ↔ q ∈ Q ∧ ¬ k.Idle q := by
  unfold lineOf
  rw [List.mem_filter, decide_eq_true_eq]

/-- The list of the ready processes is a queue from which `next` can take them. -/
theorem Queues.readyQueue (h : Queues k none L) (hg : Good k) : ReadyQueue k (L .ready) := by
  have hstate : ∀ q ∈ L .ready, (k.proctab q).state = .ready := by
    intro q hq
    have hplaced := h.placed .ready q hq
    revert hplaced
    cases (k.proctab q).state <;> simp [PState.queue]
  refine ⟨⟨h.chain .ready, h.tail, h.nodup .ready⟩, fun q hq => hg.used ?_, hstate⟩
  rw [hstate q hq]
  decide

/-- A list whose links stay, but for that of the last one, is the front of the new list. -/
theorem prefix_of_chain {f g : Slot → Option Slot} {o : Option Slot} (h : Chain f o Q)
    (h' : Chain g o Q') (hlink : ∀ q ∈ Q, Q.getLast? ≠ some q → g q = f q) (hn : Q.Nodup) :
    Q <+: Q' := by
  induction Q generalizing o Q' with
  | nil => exact List.nil_prefix
  | cons q Q ih =>
      obtain ⟨rfl, hc⟩ := h
      obtain ⟨l, rfl, hl⟩ := Chain.some_iff.mp h'
      obtain ⟨hq, hn⟩ := List.nodup_cons.mp hn
      cases Q with
      | nil => exact List.prefix_cons_inj q |>.mpr List.nil_prefix
      | cons y Q =>
          have hlast : ∀ z, (q :: y :: Q).getLast? = some z ↔ (y :: Q).getLast? = some z := by
            intro z
            rw [List.getLast?_cons_cons]
          have hfirst : g q = f q := by
            refine hlink q List.mem_cons_self fun he => hq ?_
            exact List.mem_of_getLast? ((hlast q).mp he)
          rw [hfirst] at hl
          refine (List.prefix_cons_inj q).mpr (ih hc hl (fun z hz he => ?_) hn)
          exact hlink z (List.mem_cons_of_mem _ hz) fun h => he ((hlast z).mp h)

/-- The ready queue grows at its end. -/
theorem ReadyQueue.prefix (h : ReadyQueue k Q) (h' : ReadyQueue k' Q') (hk : KeepsLine X k k')
    (hX : ∀ q ∈ Q, ¬ X q) : Q <+: Q' := by
  cases Q with
  | nil => exact List.nil_prefix
  | cons y Q =>
      have hhead : k.head = some y := h.chain.1
      have hempty : k.tail = none → k.head = none := by
        intro ht
        rw [h.tail] at ht
        cases List.getLast?_eq_none_iff.mp ht
      have hhead' : k'.head = some y := (hk.ends hempty).2 y hhead
      refine prefix_of_chain h.chain (hhead.trans hhead'.symm ▸ h'.chain) (fun q hq he => ?_)
        h.nodup
      exact (hk.link q (hX q hq) (.inr (h.state q hq)) fun ht => he (h.tail ▸ ht)).1

/-- So does the line. -/
theorem ReadyQueue.line_prefix (h : ReadyQueue k Q) (h' : ReadyQueue k' Q')
    (hk : KeepsLine X k k') (hX : ∀ q ∈ Q, ¬ X q) : k.lineOf Q <+: k'.lineOf Q' := by
  obtain ⟨A, rfl⟩ := h.prefix h' hk hX
  have hidle : ∀ q ∈ Q, decide (¬ k'.Idle q) = decide (¬ k.Idle q) := by
    intro q hq
    refine decide_eq_decide.mpr (not_congr ?_)
    unfold Kernel.Idle
    rw [(hk.pcb q (hX q hq) (.inr (h.state q hq))).2, hk.idle]
  unfold Kernel.lineOf
  rw [List.filter_append, List.filter_congr hidle]
  exact List.prefix_append _ _

/-! ## The processor is handed over -/

/-- The first process in the line gets the processor, and the others move up. -/
theorem ReadyQueue.reschedule (h : ReadyQueue k Q) (hr : reschedule k = .ok (k', p))
    (hO : k.lineOf Q = x :: R) : p = x ∧ ∃ B, ReadyQueue k' B ∧ k'.lineOf B = R ∧ p ∉ B := by
  rcases exists_first k Q with hQ | ⟨A, y, B, rfl, hA, hy⟩
  · have hx : x ∈ k.lineOf Q := by
      rw [hO]
      exact List.mem_cons_self
    obtain ⟨hxQ, hxi⟩ := Kernel.mem_lineOf.mp hx
    exact absurd (hQ x hxQ) hxi
  · have hA0 : A.filter (fun q => ¬ k.Idle q) = [] := by
      refine List.filter_eq_nil_iff.mpr fun q hq => ?_
      simpa using hA q hq
    have hline : k.lineOf (A ++ y :: B) = y :: k.lineOf B := by
      unfold Kernel.lineOf
      rw [List.filter_append, hA0, List.nil_append, List.filter_cons_of_pos (by simpa using hy)]
    obtain ⟨rfl, rfl⟩ := List.cons.inj (hline.symm.trans hO)
    have hyB : y ∉ B :=
      (List.nodup_cons.mp (List.nodup_append.mp h.nodup).2.1).1
    obtain ⟨k₁, h₁, hB⟩ := h.next hA hy
    have hf := NextFrame.next h₁
    unfold Xeros.reschedule at hr
    rw [h₁] at hr
    obtain ⟨rfl, rfl⟩ := Prod.mk.inj (Except.ok.inj hr)
    have hrun : ReadyQueue (k₁.upd y fun c => c.setState .running) B :=
      hB.upd (.inl rfl) (.inr hyB) rfl
    refine ⟨rfl, B, ⟨hrun.toReadyList.congr rfl rfl fun _ _ => rfl, hrun.used, hrun.state⟩, ?_, hyB⟩
    refine List.filter_congr fun q hq => ?_
    refine decide_eq_decide.mpr (not_congr ?_)
    have hqy : q ≠ y := by
      rintro rfl
      exact hyB hq
    unfold Kernel.Idle run
    rw [← hf.pid q, ← hf.idle]
    simp [hqy]

/-- The process that is put on the processor leaves the line alone. -/
theorem loopTop_keeps (hu : k.Used p) : KeepsLine (· = p) k (loopTop k p).k := by
  have hset : KeepsLine (· = p) (k.upd p fun c => c.setState .running) (run k p) :=
    .of_ends rfl rfl rfl fun _ _ _ => ⟨rfl, rfl, rfl⟩
  have hr : KeepsLine (· = p) k (run k p) :=
    (KeepsLine.upd (X := (· = p)) k p fun _ => rfl).trans hset
  have hu' : (run k p).Used p := hu.congr (by simp [run])
  have hk : (loopTop k p).k = deliverSignalsIfany (run k p) p := rfl
  rw [hk, deliverSignalsIfany_eq hu']
  split
  · exact (hr.trans (.unmoved (.setMem _ _))).trans (.upd _ p fun _ => rfl)
  · exact hr

/-! ## A turn -/

/-- The turn gives up the processor. -/
def Disp.Switches (s : Disp) (t : Trap) : Prop :=
  Xeros.Switches (contextswitch s.k s.p t) s.p t.cause.request

/-- What a turn does to the line `O`. -/
structure MovesUp (s : Disp) (t : Trap) (s' : Disp) (O O' : List Slot) : Prop where
  line : Line s'.k O'
  stays : ¬ s.Switches t → s'.p = s.p ∧ O <+: O'
  hands : s.Switches t → ∀ x R, O = x :: R → s'.p = x ∧ R <+: O'

/-- A turn that switches gives the processor to the first process in the line; the others keep
their order, and processes join them at the end only. -/
theorem Line.turn (h : Line s.k O) (hs : Serviceable s) (hc : StepMovesSafely s t)
    (ht : Xeros.turn s t = .ok s') : ∃ O', MovesUp s t s' O O' := by
  obtain ⟨Q, hQ, rfl⟩ := h
  obtain ⟨L, hq⟩ := hs.queues
  obtain ⟨L', hq'⟩ := (hs.turn hc ht).queues
  have hQ' := hq'.readyQueue (hs.turn hc ht).sound.good
  obtain rfl : Q = L .ready := hQ.chain.unique (hq.chain .ready)
  have hout : ∀ {k : Kernel} {p : Slot} {Q : List Slot}, ReadyQueue k Q →
      (k.proctab p).state = .running → ∀ q ∈ Q, ¬ q = p := by
    rintro k _ Q hQ hp q hm rfl
    rw [hQ.state q hm] at hp
    cases hp
  obtain ⟨k₂, hserve, he⟩ := turn_cases ht
  have hg := contextswitch_good hs.sound.good hs.sound.used t
  have hu := contextswitch_used (p := s.p) hs.sound.used t
  have hp : ((contextswitch s.k s.p t).proctab s.p).state = .running := by
    rw [contextswitch_state]
    exact hs.sound.running
  have hcs : Unmoved s.k (contextswitch s.k s.p t) := .contextswitch s.k s.p t
  obtain ⟨-, hu'⟩ := serve_served hg hu hserve
  have hloop : KeepsLine (· = s'.p) k₂ s'.k := by
    have hk := loopTop_keeps hu'
    rwa [← he] at hk
  refine ⟨_, ⟨L' .ready, hQ', rfl⟩, fun hn => ?_, fun hsw x R hO => ?_⟩
  · cases (hq.unmoved hcs).serve_hands hg hu hp hc hserve with
    | stays _ hsame hk =>
        rw [hsame] at hloop
        have hline : KeepsLine (· = s.p) s.k s'.k :=
          (KeepsLine.unmoved hcs).trans ((hk.mono fun _ => False.elim).trans hloop)
        exact ⟨hsame, hQ.line_prefix hQ' hline (hout hQ hs.sound.running)⟩
    | switches hsw _ _ _ _ _ => exact absurd hsw hn
  · cases (hq.unmoved hcs).serve_hands hg hu hp hc hserve with
    | stays hn _ _ => exact absurd hsw hn
    | switches _ h₁ hq₁ hg₁ hr h₂ =>
        rename_i k₁ k₀ L₁
        have hQ₁ := hq₁.readyQueue hg₁
        obtain ⟨A, hA⟩ := hQ.line_prefix hQ₁ ((KeepsLine.unmoved hcs).trans h₁)
          (hout hQ hs.sound.running)
        rw [hO] at hA
        obtain ⟨hx, B, hB, hline, hpB⟩ := hQ₁.reschedule hr hA.symm
        have hrest := hB.line_prefix hQ' ((h₂.mono fun _ => False.elim).trans hloop)
          fun q hq hqp => hpB (hqp ▸ hq)
        rw [hline] at hrest
        exact ⟨hx, (List.prefix_append R A).trans hrest⟩

/-! ## Runs -/

/-- A run of this kind in which `q` does not get the processor, with the number of switches. -/
inductive Waiting (q : Slot) (s : Disp) : ℕ → Disp → Prop
  | start : Waiting q s 0 s
  | stays {n : ℕ} {s₁ s₂ : Disp} {t : Trap} (h : Waiting q s n s₁) (hc : StepMovesSafely s₁ t)
      (ht : turn s₁ t = .ok s₂) (hn : ¬ s₁.Switches t) : Waiting q s n s₂
  | switches {n : ℕ} {s₁ s₂ : Disp} {t : Trap} (h : Waiting q s n s₁) (hc : StepMovesSafely s₁ t)
      (ht : turn s₁ t = .ok s₂) (hs : s₁.Switches t) (hq : s₂.p ≠ q) : Waiting q s (n + 1) s₂

theorem Waiting.serviceable {n : ℕ} (h : Waiting q s n s') (hs : Serviceable s) :
    Serviceable s' := by
  induction h with
  | start => exact hs
  | stays _ hc ht _ ih => exact ih.turn hc ht
  | switches _ hc ht _ _ ih => exact ih.turn hc ht

/-- With `r` processes in front of it, a process moves up by one at every switch. -/
theorem Waiting.place {n r : ℕ} (h : Waiting q s n s') (hs : Serviceable s) (hl : Line s.k O)
    (hr : O[r]? = some q) : n ≤ r ∧ ∃ O', Line s'.k O' ∧ O'[r - n]? = some q := by
  have hprefix : ∀ {O O' : List Slot} {i : ℕ}, O <+: O' → O[i]? = some q → O'[i]? = some q := by
    rintro O _ i ⟨A, rfl⟩ hi
    obtain ⟨hlt, -⟩ := List.getElem?_eq_some_iff.mp hi
    rw [List.getElem?_append_left hlt, hi]
  induction h with
  | start => exact ⟨Nat.zero_le r, O, hl, hr⟩
  | stays h hc ht hn ih =>
      obtain ⟨hle, O₁, hl₁, hi⟩ := ih
      obtain ⟨O₂, hm⟩ := hl₁.turn (h.serviceable hs) hc ht
      exact ⟨hle, O₂, hm.line, hprefix (hm.stays hn).2 hi⟩
  | switches h hc ht hsw hq ih =>
      rename_i n s₁ s₂ t
      obtain ⟨hle, O₁, hl₁, hi⟩ := ih
      obtain ⟨O₂, hm⟩ := hl₁.turn (h.serviceable hs) hc ht
      obtain ⟨x, R, rfl⟩ : ∃ x R, O₁ = x :: R := by
        cases O₁ with
        | nil => cases hi
        | cons x R => exact ⟨x, R, rfl⟩
      obtain ⟨hx, hR⟩ := hm.hands hsw x R rfl
      cases hd : r - n with
      | zero =>
          rw [hd] at hi
          exact absurd (hx.trans (Option.some.inj hi)) hq
      | succ d =>
          rw [hd, List.getElem?_cons_succ] at hi
          refine ⟨by omega, O₂, hm.line, ?_⟩
          rw [show r - (n + 1) = d by omega]
          exact hprefix hR hi

/-- No process starves: in every run whose steps move processes safely, a process that is ready
has fewer than 64 processes in front of it, is overtaken by none of them or of those that come
later, and moves up at every switch, until it runs. -/
theorem no_starvation {s : Disp} {q : Slot} (h : dispatcher.ReachableUnder StepMovesSafely s)
    (hq : (s.k.proctab q).state = .ready) (hi : ¬ s.k.Idle q) :
    ∃ O r, Line s.k O ∧ O[r]? = some q ∧ r < maxProc ∧ ∀ n s', Waiting q s n s' →
      n ≤ r ∧ (s'.k.proctab q).state = .ready ∧ ∃ O', Line s'.k O' ∧ O'[r - n]? = some q := by
  have hs := serviceable_of_reachable h
  obtain ⟨L, hqs⟩ := hs.queues
  have hQ := hqs.readyQueue hs.sound.good
  have hm : q ∈ L .ready :=
    hqs.found q .ready (by simp) (by rw [hq]; rfl) (by decide) fun _ => hi
  have hl : Line s.k (s.k.lineOf (L .ready)) := ⟨L .ready, hQ, rfl⟩
  obtain ⟨r, hr⟩ := List.mem_iff_getElem?.mp (Kernel.mem_lineOf.mpr ⟨hm, hi⟩)
  refine ⟨_, r, hl, hr, ?_, fun n s' hw => ?_⟩
  · have hlen : (s.k.lineOf (L .ready)).length ≤ maxProc := by
      have hcard := (hQ.nodup.filter fun q => ¬ s.k.Idle q).length_le_card
      rwa [Fintype.card_fin] at hcard
    exact lt_of_lt_of_le (List.getElem?_eq_some_iff.mp hr).1 hlen
  · obtain ⟨hle, O', hl', hr'⟩ := hw.place hs hl hr
    refine ⟨hle, ?_, O', hl', hr'⟩
    obtain ⟨Q', hQ', rfl⟩ := hl'
    exact hQ'.state q (Kernel.mem_lineOf.mp (List.mem_of_getElem? hr')).1

/-- The root process has created processes 3 and 4. -/
def queued : Recorded := spliced₁.after (sampleCall .create [0x1500, 0])

/-- Then it yields to process 3. -/
def yielded : Disp := (turn queued.d (sampleCall .yield [])).getD queued.d

/-- Process 4 stands behind process 3, and waits for one switch at least. -/
theorem no_starvation_of_second : Waiting 4 queued.d 1 yielded ∧
    ∃ O r, Line queued.d.k O ∧ O[r]? = some 4 ∧ r < maxProc ∧ ∀ n s', Waiting 4 queued.d n s' →
      n ≤ r ∧ (s'.k.proctab 4).state = .ready ∧ ∃ O', Line s'.k O' ∧ O'[r - n]? = some 4 := by
  have hsafe : dispatcher.ReachableUnder StepMovesSafely queued.d := by
    refine Recorded.reachable_d (Recorded.reachable_after ?_ ?_ (by decide +kernel))
    · exact Recorded.reachable_after sampleStart_reachable
        (.of_create (by decide +kernel) (by decide +kernel)) (by decide +kernel)
    · exact .of_create (by decide +kernel) (by decide +kernel)
  refine ⟨.switches .start (t := sampleCall .yield []) ?_ ?_ trivial (by decide +kernel), ?_⟩
  · exact .of_alone (by decide +kernel) (by decide)
  · exact Run.eq_getD (s := queued.d) (by decide +kernel)
  · exact no_starvation hsafe (by decide +kernel) (by decide +kernel)

end Xeros
