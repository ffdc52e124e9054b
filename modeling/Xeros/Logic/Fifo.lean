import Xeros.Logic.Links

/-!
# The ready queue as a list

`head`, `tail` and the links represent a list: `ready` puts a process at its end, and `next`
takes the first process that is not the idle process, with everything before it.
-/

namespace Xeros

open Lib

variable {k k' : Kernel} {p q r : Slot} {Q : List Slot}

/-- The ready queue is the list `Q`. -/
structure ReadyList (k : Kernel) (Q : List Slot) : Prop where
  chain : Chain k.link k.head Q
  tail : k.tail = Q.getLast?
  nodup : Q.Nodup

/-- The processes in the queue can be taken from it: the assertions of `next` hold for them. -/
structure ReadyQueue (k : Kernel) (Q : List Slot) : Prop extends ReadyList k Q where
  used : ∀ q ∈ Q, k.Used q
  state : ∀ q ∈ Q, (k.proctab q).state = .ready

/-- `q` is the idle process. -/
def Kernel.Idle (k : Kernel) (q : Slot) : Prop := (k.proctab q).pid = k.idleprocPid

instance (k : Kernel) (q : Slot) : Decidable (k.Idle q) := inferInstanceAs (Decidable (_ = _))

/-- What `ready` makes of the queue. -/
def Kernel.queued (k : Kernel) (p : Slot) (Q : List Slot) : List Slot :=
  if k.Idle p then Q else Q ++ [p]

/-- There is one idle process. -/
theorem Kernel.Idle.eq (hi : k.Idle q) (hu : k.Used q) : q = slotOf k.idleprocPid := by
  rw [← hu.2.1, show (k.proctab q).pid = k.idleprocPid from hi]

theorem chain_head {next : Slot → Option Slot} {o : Option Slot} {l : List Slot}
    (h : Chain next o l) : o = l.head? := by
  cases l with
  | nil => exact h
  | cons a l => exact h.1

/-- `head` and `tail` are the ends of the list. -/
theorem ReadyList.ends (h : ReadyList k Q) : k.head = Q.head? ∧ k.tail = Q.getLast? :=
  ⟨chain_head h.chain, h.tail⟩

/-- Only the links of the members matter. -/
theorem ReadyList.congr (h : ReadyList k Q) (hh : k'.head = k.head) (ht : k'.tail = k.tail)
    (hl : ∀ q ∈ Q, k'.link q = k.link q) : ReadyList k' Q := by
  refine ⟨?_, ht.trans h.tail, h.nodup⟩
  rw [hh]
  exact h.chain.congr hl

/-! ## `ready` -/

/-- A process that is not in the queue and has no link is linked to its end. -/
theorem ReadyList.enqueue (h : ReadyList k Q) (hp : p ∉ Q) (hnext : k.link p = none) :
    ReadyList (enqueue k p) (Q ++ [p]) := by
  refine ⟨enqueue_chain h.chain h.tail h.nodup hp hnext, by simp, ?_⟩
  rw [← List.concat_eq_append]
  exact h.nodup.concat hp

/-- A process that was not at the end of the queue has no link after `ready`. -/
theorem readied_link_self (hp : k.tail ≠ some p) : (readied k p).link p = none := by
  rw [link_readied, if_neg fun h => hp h.2, if_pos rfl]

/-- `ready` changes the link of the process and of the last one in the queue. -/
theorem readied_link (hr : r ≠ p) (ht : k.tail ≠ some r) :
    (readied k p).link r = k.link r := by
  rw [link_readied, if_neg fun h => ht h.2, if_neg hr]

/-- `ready` puts a process at the end of the queue, unless it is the idle process. -/
theorem ReadyList.readied (h : ReadyList k Q) (hp : p ∉ Q) :
    ReadyList (readied k p) (k.queued p Q) := by
  have hu : ReadyList (k.upd p fun c => (c.setNext none).setState .ready) Q := by
    refine h.congr rfl rfl fun q hq => ?_
    have hqp : q ≠ p := by
      rintro rfl
      exact hp hq
    simp [Kernel.link, hqp]
  unfold Xeros.readied Kernel.queued
  dsimp only
  by_cases hi : k.Idle p
  · rw [if_pos hi, if_pos (show (k.proctab p).pid = k.idleprocPid from hi)]
    exact hu
  · rw [if_neg hi, if_neg (show ¬ (k.proctab p).pid = k.idleprocPid from hi)]
    exact hu.enqueue hp (by simp [Kernel.link])

/-- The state and the pid of the others are the same. -/
theorem readied_other (k : Kernel) (hq : q ≠ p) :
    ((readied k p).proctab q).state = (k.proctab q).state := by
  obtain ⟨o, ho⟩ := readied_proctab k p q
  rw [ho, if_neg hq]
  rfl

/-- The queue keeps its processes ready. -/
theorem ReadyQueue.readied (h : ReadyQueue k Q) (hp : p ∉ Q) (hu : k.Used p) :
    ReadyQueue (readied k p) (k.queued p Q) := by
  refine ⟨h.toReadyList.readied hp, fun q hq => ?_, fun q hq => ?_⟩
  · refine Kernel.Used.congr ?_ (readied_pid k p q)
    unfold Kernel.queued at hq
    split at hq
    · exact h.used q hq
    · rcases List.mem_append.mp hq with hq | hq
      · exact h.used q hq
      · exact List.mem_singleton.mp hq ▸ hu
  · by_cases hqp : q = p
    · subst hqp
      exact readied_state k q
    · rw [readied_other k hqp]
      unfold Kernel.queued at hq
      split at hq
      · exact h.state q hq
      · rcases List.mem_append.mp hq with hq | hq
        · exact h.state q hq
        · exact absurd (List.mem_singleton.mp hq) hqp

/-! ## `next` -/

/-- The head of the queue is taken out. -/
theorem ReadyList.takeHead (h : ReadyList k (p :: Q)) : ReadyList (takeHead k p) Q := by
  obtain ⟨hhead, hchain⟩ := h.chain
  obtain ⟨hpQ, hnd⟩ := List.nodup_cons.mp h.nodup
  have hrest : Chain ((k.setHead (k.proctab p).next).upd p fun c => c.setNext none).link
      (k.proctab p).next Q := by
    refine Chain.congr (fun q hq => ?_) hchain
    have hqp : q ≠ p := by
      rintro rfl
      exact hpQ hq
    simp [Kernel.link, hqp]
  unfold Xeros.takeHead
  dsimp only
  split
  · rename_i hnone
    have hnone : (k.proctab p).next = none := hnone
    rw [hnone] at hrest
    obtain rfl := Chain.none_iff.mp hrest
    exact ⟨hnone, rfl, hnd⟩
  · rename_i hsome
    refine ⟨hrest, ?_, hnd⟩
    cases Q with
    | nil => exact absurd hrest hsome
    | cons a l => exact h.tail.trans (by simp [List.getLast?_cons_cons])

theorem takeHead_pcb (k : Kernel) (p q : Slot) :
    ∃ o, (takeHead k p).proctab q = (k.proctab q).setNext o := by
  unfold takeHead
  dsimp only
  split
  all_goals
    by_cases hq : q = p
    · subst hq
      exact ⟨none, by simp⟩
    · exact ⟨(k.proctab q).next, by simp [hq]; rfl⟩

theorem takeHead_idle (k : Kernel) (p : Slot) : (takeHead k p).idleprocPid = k.idleprocPid := by
  unfold takeHead
  dsimp only
  split
  · rfl
  · rfl

/-- The queue keeps its processes ready. -/
theorem ReadyQueue.takeHead (h : ReadyQueue k (p :: Q)) : ReadyQueue (takeHead k p) Q := by
  refine ⟨h.toReadyList.takeHead, fun q hq => ?_, fun q hq => ?_⟩
  · obtain ⟨o, ho⟩ := takeHead_pcb k p q
    exact (h.used q (List.mem_cons_of_mem _ hq)).congr (by rw [ho]; rfl)
  · obtain ⟨o, ho⟩ := takeHead_pcb k p q
    rw [ho]
    exact h.state q (List.mem_cons_of_mem _ hq)

/-- A process that is written but not linked anew leaves the queue as it is, if it is not in
it or stays ready. -/
theorem ReadyQueue.upd (h : ReadyQueue k Q) {f : Pcb → Pcb}
    (hn : (f (k.proctab r)).next = (k.proctab r).next ∨ r ∉ Q)
    (hs : (f (k.proctab r)).state = .ready ∨ r ∉ Q)
    (hpid : (f (k.proctab r)).pid = (k.proctab r).pid) : ReadyQueue (k.upd r f) Q := by
  have hcases : ∀ q, q ∈ Q → q ≠ r ∨ (q = r ∧ (f (k.proctab r)).next = (k.proctab r).next ∧
      (f (k.proctab r)).state = .ready) := by
    intro q hq
    by_cases hqr : q = r
    · subst hqr
      exact .inr ⟨rfl, hn.resolve_right (not_not_intro hq), hs.resolve_right (not_not_intro hq)⟩
    · exact .inl hqr
  refine ⟨h.toReadyList.congr rfl rfl fun q hq => ?_, fun q hq => ?_, fun q hq => ?_⟩
  · rcases hcases q hq with hqr | ⟨rfl, hn, -⟩
    · simp [Kernel.link, hqr]
    · simpa [Kernel.link] using hn
  · exact (h.used q hq).upd hpid
  · rcases hcases q hq with hqr | ⟨rfl, -, hs⟩
    · rw [Kernel.upd_proctab_ne _ _ _ hqr]
      exact h.state q hq
    · rw [Kernel.upd_proctab_self]
      exact hs

/-- A process that is not the idle process and has been taken from the queue is chosen. -/
theorem ReadyQueue.choose (h : ReadyQueue k Q) (hi : ¬ k.Idle p) :
    (choose k p).2 = p ∧ ReadyQueue (choose k p).1 Q := by
  unfold Xeros.choose
  rw [if_neg (show ¬ (k.proctab p).pid = k.idleprocPid from hi)]
  dsimp only
  split
  · cases hr : k.running with
    | none =>
        exact ⟨rfl, h.toReadyList.congr rfl rfl fun _ _ => rfl, h.used, h.state⟩
    | some r =>
        have hu : ReadyQueue (k.upd r fun c => c.setState .ready) Q :=
          h.upd (.inl rfl) (.inl rfl) rfl
        exact ⟨rfl, hu⟩
  · exact ⟨rfl, h⟩

/-- `next` takes the first process from the queue that is not the idle process. -/
theorem ReadyQueue.next {A : List Slot} (h : ReadyQueue k (A ++ q :: Q)) (hA : ∀ r ∈ A, k.Idle r)
    (hq : ¬ k.Idle q) : ∃ k', next k = .ok (k', q) ∧ ReadyQueue k' Q := by
  have hpop : ∀ {p : Slot} {l : List Slot}, ReadyQueue k (p :: l) →
      Xeros.next k = .ok (Xeros.choose (Xeros.takeHead k p) p) := by
    intro p l hpl
    have hu := hpl.used p List.mem_cons_self
    have hs := hpl.state p List.mem_cons_self
    unfold Xeros.next
    rw [show k.head = some p from hpl.chain.1]
    simp only [kassert, hu.2.1, hs, if_pos, bind, Except.bind, pure, Except.pure]
  have hidle : ∀ r p, (Xeros.takeHead k p).Idle r ↔ k.Idle r := by
    intro r p
    obtain ⟨o, ho⟩ := takeHead_pcb k p r
    unfold Kernel.Idle
    rw [ho, takeHead_idle]
    rfl
  cases A with
  | nil =>
      obtain ⟨hc, hl⟩ := (ReadyQueue.takeHead h).choose (p := q) (mt (hidle q q).mp hq)
      exact ⟨_, (hpop h).trans (congrArg Except.ok (Prod.ext rfl hc)), hl⟩
  | cons i A =>
      -- the idle process heads the queue, and only it is passed
      have hi := hA i List.mem_cons_self
      have hA0 : A = [] := by
        cases A with
        | nil => rfl
        | cons j A =>
            have hij : i = j := by
              rw [hi.eq (h.used i (by simp)), (hA j (by simp)).eq (h.used j (by simp))]
            exact absurd h.nodup (by simp [hij])
      subst hA0
      have h₁ := ReadyQueue.takeHead h
      have h₂ := ReadyQueue.takeHead h₁
      have hiQ : i ∉ Q := fun hm =>
        (List.nodup_cons.mp h.nodup).1 (List.mem_cons_of_mem _ hm)
      refine ⟨_, (hpop h).trans ?_, h₂.upd (r := i) (f := fun c => c.setNext none) (.inr hiQ)
        (.inr hiQ) rfl⟩
      unfold Xeros.choose
      have hpid : ((Xeros.takeHead k i).proctab i).pid = (Xeros.takeHead k i).idleprocPid :=
        (hidle i i).mpr hi
      rw [if_pos hpid, show (Xeros.takeHead k i).head = some q from h₁.chain.1]

/-- `next` returns the idle process if no other process is in the queue. -/
theorem ReadyQueue.next_idle (h : ReadyQueue k Q) (hQ : ∀ r ∈ Q, k.Idle r) :
    ∃ k', Xeros.next k = .ok (k', slotOf k.idleprocPid) ∧ ReadyQueue k' [] := by
  cases Q with
  | nil =>
      refine ⟨k, ?_, h⟩
      unfold Xeros.next
      rw [show k.head = none from h.chain]
      rfl
  | cons i Q =>
      have hi := hQ i List.mem_cons_self
      have hu := h.used i List.mem_cons_self
      have hQ0 : Q = [] := by
        cases Q with
        | nil => rfl
        | cons j Q =>
            have hij : i = j := by
              rw [hi.eq hu, (hQ j (by simp)).eq (h.used j (by simp))]
            exact absurd h.nodup (by simp [hij])
      subst hQ0
      have h₁ := ReadyQueue.takeHead h
      have hs := h.state i List.mem_cons_self
      refine ⟨Xeros.takeHead k i, ?_, h₁⟩
      have hpid : ((Xeros.takeHead k i).proctab i).pid = (Xeros.takeHead k i).idleprocPid := by
        obtain ⟨o, ho⟩ := takeHead_pcb k i i
        rw [ho, takeHead_idle]
        exact hi
      unfold Xeros.next
      rw [show k.head = some i from h.chain.1]
      simp only [kassert, hu.2.1, hs, if_pos, bind, Except.bind, pure, Except.pure]
      unfold Xeros.choose
      rw [if_pos hpid, show (Xeros.takeHead k i).head = none from h₁.chain]
      simp only [hpid, ne_eq, not_true_eq_false, and_false, if_false]
      rw [hi.eq hu]

/-- `next` writes links and makes the idle process ready. -/
structure NextFrame (k k' : Kernel) : Prop where
  idle : k'.idleprocPid = k.idleprocPid
  sleeper : k'.headsleeper = k.headsleeper
  pid : ∀ q, (k'.proctab q).pid = (k.proctab q).pid
  state : ∀ q, ¬ k.Idle q → (k'.proctab q).state = (k.proctab q).state

theorem NextFrame.trans {k₁ : Kernel} (h₁ : NextFrame k k₁) (h₂ : NextFrame k₁ k') :
    NextFrame k k' where
  idle := h₂.idle.trans h₁.idle
  sleeper := h₂.sleeper.trans h₁.sleeper
  pid q := (h₂.pid q).trans (h₁.pid q)
  state q hq := by
    refine (h₂.state q fun hi => hq ?_).trans (h₁.state q hq)
    exact (h₁.pid q).symm.trans ((show (k₁.proctab q).pid = k₁.idleprocPid from hi).trans h₁.idle)

/-- An update of a pcb that keeps the pid, and the state unless it is the idle process. -/
theorem NextFrame.upd (k : Kernel) (r : Slot) {f : Pcb → Pcb}
    (hpid : (f (k.proctab r)).pid = (k.proctab r).pid)
    (hs : k.Idle r ∨ (f (k.proctab r)).state = (k.proctab r).state) :
    NextFrame k (k.upd r f) := by
  refine ⟨rfl, rfl, fun q => ?_, fun q hq => ?_⟩
  · by_cases hqr : q = r
    · subst hqr
      simpa using hpid
    · simp [hqr]
  · by_cases hqr : q = r
    · subst hqr
      simpa using hs.resolve_left hq
    · simp [hqr]

theorem NextFrame.takeHead (k : Kernel) (p : Slot) : NextFrame k (takeHead k p) := by
  refine ⟨takeHead_idle k p, ?_, fun q => ?_, fun q _ => ?_⟩
  · unfold Xeros.takeHead
    dsimp only
    split
    · rfl
    · rfl
  · obtain ⟨o, ho⟩ := takeHead_pcb k p q
    rw [ho]
    rfl
  · obtain ⟨o, ho⟩ := takeHead_pcb k p q
    rw [ho]
    rfl

theorem NextFrame.choose (k : Kernel) (p : Slot) : NextFrame k (choose k p).1 := by
  unfold Xeros.choose
  split
  · rename_i q _
    have hu : NextFrame (Xeros.takeHead k q)
        ((Xeros.takeHead k q).upd p fun c => c.setNext none) := .upd _ p rfl (.inr rfl)
    exact (takeHead k q).trans hu
  · split
    · rename_i hi
      cases hr : k.running with
      | none => exact ⟨rfl, rfl, fun _ => rfl, fun _ _ => rfl⟩
      | some r =>
          rw [hr] at hi
          have hu : NextFrame k (k.upd r fun c => c.setState .ready) := .upd k r rfl (.inl hi.1)
          exact hu
    · exact ⟨rfl, rfl, fun _ => rfl, fun _ _ => rfl⟩

theorem NextFrame.next (h : next k = .ok (k', p)) : NextFrame k k' := by
  rcases next_cases h with ⟨-, rfl, -⟩ | ⟨q, -, -, hc⟩
  · exact ⟨rfl, rfl, fun _ => rfl, fun _ _ => rfl⟩
  · have hf : NextFrame k (Xeros.choose (Xeros.takeHead k q) q).1 :=
      (takeHead k q).trans (choose _ q)
    rwa [← hc] at hf

end Xeros
