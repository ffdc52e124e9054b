import Xeros.Logic.Boot
import Xeros.Logic.Links

/-!
# The lists of processes

Four lists are threaded through the one link of the pcbs: the ready queue,
`blocked_q`, `dead_q` and the sleepers. `Queues k o L` says that the lists
represented are `L`, that every process is in the list of its state, and that
the process `o`, which is on its way from one list to another, is in none. The
lists are disjoint because a process has one state.
-/

namespace Xeros

open Lib

/-! ## The invariant -/

/-- The lists that are threaded through the pcbs. -/
inductive Queue where
  | ready | blocked | dead | sleep
  deriving DecidableEq

/-- The list for the processes in a state. A running process is in none. -/
def PState.queue : PState → Option Queue
  | .ready => some .ready
  | .running => none
  | .blocked => some .blocked
  | .sleep => some .sleep
  | .stopped => some .dead
  | .dead => some .dead

/-- The first pcb of a list. -/
def Kernel.first (k : Kernel) : Queue → Option Slot
  | .ready => k.head
  | .blocked => k.blockedQ
  | .dead => k.deadQ
  | .sleep => k.headsleeper

/-- The lists represented are `L`, and every process but `o`, which is in none, is in
the list of its state. The idle process may be ready without being in the queue, and
`dead_q` need not hold every stopped process. -/
structure Queues (k : Kernel) (o : Option Slot) (L : Queue → List Slot) : Prop where
  chain : ∀ c, Chain k.link (k.first c) (L c)
  nodup : ∀ c, (L c).Nodup
  tail : k.tail = (L .ready).getLast?
  placed : ∀ c, ∀ q ∈ L c, (k.proctab q).state.queue = some c
  out : ∀ p, o = some p → ∀ c, p ∉ L c
  found : ∀ q c, o ≠ some q → (k.proctab q).state.queue = some c → c ≠ .dead →
    (c = .ready → (k.proctab q).pid ≠ k.idleprocPid) → q ∈ L c
  idle : (k.proctab (slotOf k.idleprocPid)).state = .ready
    ∨ (k.proctab (slotOf k.idleprocPid)).state = .running

variable {k k' k₁ k₂ : Kernel} {o : Option Slot} {p q r : Slot} {L : Queue → List Slot}
  {c d : Queue}

/-- The lists are disjoint. -/
theorem Queues.eq_of_mem (h : Queues k o L) (hc : q ∈ L c) (hd : q ∈ L d) : c = d :=
  Option.some.inj ((h.placed c q hc).symm.trans (h.placed d q hd))

/-- A running process is in no list. -/
theorem Queues.notMem_of_running (h : Queues k o L) (hp : (k.proctab p).state = .running) :
    p ∉ L c := by
  intro hc
  have := h.placed c p hc
  rw [hp] at this
  cases this

/-- A process leaves for another list. -/
theorem Queues.leave (h : Queues k none L) (hp : ∀ c, p ∉ L c) : Queues k (some p) L where
  chain := h.chain
  nodup := h.nodup
  tail := h.tail
  placed := h.placed
  out := by
    rintro _ ⟨rfl⟩
    exact hp
  found q c _ := h.found q c (by simp)
  idle := h.idle

/-- The members of the lists `L'` were members of `L`. -/
def Within (L L' : Queue → List Slot) : Prop := ∀ q c, q ∈ L' c → ∃ d, q ∈ L d

theorem Within.refl (L : Queue → List Slot) : Within L L := fun _ c hq => ⟨c, hq⟩

theorem Within.trans {L L' L'' : Queue → List Slot} (h₁ : Within L L') (h₂ : Within L' L'') :
    Within L L'' := by
  intro q c hq
  obtain ⟨d, hd⟩ := h₂ q c hq
  exact h₁ q d hd

/-- A list is replaced by a part of it. -/
theorem Within.update {l : List Slot} (h : ∀ q ∈ l, q ∈ L c) :
    Within L (Function.update L c l) := by
  intro q d hq
  by_cases hd : d = c
  · subst hd
    rw [Function.update_self] at hq
    exact ⟨d, h q hq⟩
  · rw [Function.update_of_ne hd] at hq
    exact ⟨d, hq⟩

/-! ## Frames -/

/-- No process is moved: the links, states and pids are the same, and so are the ends of
the lists. -/
structure Unmoved (k k' : Kernel) : Prop where
  next : ∀ q, (k'.proctab q).next = (k.proctab q).next
  state : ∀ q, (k'.proctab q).state = (k.proctab q).state
  pid : ∀ q, (k'.proctab q).pid = (k.proctab q).pid
  first : ∀ c, k'.first c = k.first c
  tail : k'.tail = k.tail
  idle : k'.idleprocPid = k.idleprocPid

namespace Unmoved

theorem refl (k : Kernel) : Unmoved k k :=
  ⟨fun _ => rfl, fun _ => rfl, fun _ => rfl, fun _ => rfl, rfl, rfl⟩

theorem trans (h₁ : Unmoved k k₁) (h₂ : Unmoved k₁ k₂) : Unmoved k k₂ where
  next q := (h₂.next q).trans (h₁.next q)
  state q := (h₂.state q).trans (h₁.state q)
  pid q := (h₂.pid q).trans (h₁.pid q)
  first c := (h₂.first c).trans (h₁.first c)
  tail := h₂.tail.trans h₁.tail
  idle := h₂.idle.trans h₁.idle

theorem used (h : Unmoved k k') (hu : k.Used q) : k'.Used q := hu.congr (h.pid q)

/-- An update that leaves the link, the state and the pid. -/
theorem upd (k : Kernel) (q : Slot) {f : Pcb → Pcb}
    (hnext : (f (k.proctab q)).next = (k.proctab q).next)
    (hstate : (f (k.proctab q)).state = (k.proctab q).state)
    (hpid : (f (k.proctab q)).pid = (k.proctab q).pid) : Unmoved k (k.upd q f) := by
  have hr : ∀ r, (k.upd q f).proctab r = if r = q then f (k.proctab q) else k.proctab r :=
    fun r => rfl
  refine ⟨fun r => ?_, fun r => ?_, fun r => ?_, fun c => ?_, rfl, rfl⟩
  · rw [hr]
    split
    · rename_i h
      rw [hnext, h]
    · rfl
  · rw [hr]
    split
    · rename_i h
      rw [hstate, h]
    · rfl
  · rw [hr]
    split
    · rename_i h
      rw [hpid, h]
    · rfl
  · cases c <;> rfl

theorem setRet (k : Kernel) (q : Slot) (v : Word) : Unmoved k (k.setRet q v) :=
  .upd k q rfl rfl rfl

theorem answered (k : Kernel) (p q : Slot) (n : Int) : Unmoved k (answered k p q n) :=
  (setRet k p _).trans (.setRet _ q _)

theorem setMem (k : Kernel) (m : Bytes) : Unmoved k (k.setMem m) :=
  ⟨fun _ => rfl, fun _ => rfl, fun _ => rfl, fun c => by cases c <;> rfl, rfl, rfl⟩

theorem setKbd (k : Kernel) (b : Kbd) : Unmoved k (k.setKbd b) :=
  ⟨fun _ => rfl, fun _ => rfl, fun _ => rfl, fun c => by cases c <;> rfl, rfl, rfl⟩

theorem setHeap (k : Kernel) (b : Heap) : Unmoved k (k.setHeap b) :=
  ⟨fun _ => rfl, fun _ => rfl, fun _ => rfl, fun c => by cases c <;> rfl, rfl, rfl⟩

end Unmoved

/-- The lists depend on the links, the states, the pids and the ends only. -/
theorem Queues.unmoved (h : Queues k o L) (hu : Unmoved k k') : Queues k' o L where
  chain c := by
    rw [hu.first]
    exact (h.chain c).congr fun q _ => hu.next q
  nodup := h.nodup
  tail := hu.tail.trans h.tail
  placed c q hq := by
    rw [hu.state]
    exact h.placed c q hq
  out := h.out
  found q c hq hs hc hi := by
    rw [hu.state] at hs
    rw [hu.pid, hu.idle] at hi
    exact h.found q c hq hs hc hi
  idle := by
    rw [hu.idle, hu.state]
    exact h.idle

/-- The process on its way may be written, as long as the idle process stays able to
run. -/
theorem Queues.updOut (h : Queues k (some p) L) {f : Pcb → Pcb}
    (hidle : p = slotOf k.idleprocPid →
      (f (k.proctab p)).state = .ready ∨ (f (k.proctab p)).state = .running) :
    Queues (k.upd p f) (some p) L where
  chain c := by
    have hfirst : (k.upd p f).first c = k.first c := by cases c <;> rfl
    rw [hfirst]
    refine (h.chain c).congr fun q hq => ?_
    have hqp : q ≠ p := by
      rintro rfl
      exact h.out q rfl c hq
    simp [Kernel.link, hqp]
  nodup := h.nodup
  tail := h.tail
  placed c q hq := by
    have hqp : q ≠ p := by
      rintro rfl
      exact h.out q rfl c hq
    rw [Kernel.upd_proctab_ne _ _ _ hqp]
    exact h.placed c q hq
  out := h.out
  found q c hq hs hc hi := by
    have hqp : q ≠ p := by
      rintro rfl
      exact hq rfl
    rw [Kernel.upd_proctab_ne _ _ _ hqp] at hs hi
    exact h.found q c hq hs hc hi
  idle := by
    rw [Kernel.upd_idleprocPid, Kernel.upd_proctab]
    split
    · rename_i hp
      exact hidle hp.symm
    · exact h.idle

/-- The process on its way arrives where it needs no list, or in a list that is checked
by other means. -/
theorem Queues.arrive (h : Queues k (some p) L)
    (hp : ∀ c, (k.proctab p).state.queue = some c → c ≠ .dead →
      (c = .ready → (k.proctab p).pid ≠ k.idleprocPid) → False) : Queues k none L where
  chain := h.chain
  nodup := h.nodup
  tail := h.tail
  placed := h.placed
  out := by
    rintro _ ⟨⟩
  found q c _ hs hc hi := by
    by_cases hqp : q = p
    · subst hqp
      exact (hp c hs hc hi).elim
    · exact h.found q c (by simpa using Ne.symm hqp) hs hc hi
  idle := h.idle

/-- The process on its way is entered in the list of its state: the conditions on the
new list `l`. -/
theorem Queues.enter (h : Queues k (some p) L) {k' : Kernel} {c : Queue} {l : List Slot}
    (hchain : Chain k'.link (k'.first c) l) (hmem : ∀ q, q ∈ l ↔ q = p ∨ q ∈ L c)
    (hnodup : l.Nodup)
    (hother : ∀ d, d ≠ c → Chain k'.link (k'.first d) (L d))
    (htail : k'.tail = (Function.update L c l .ready).getLast?)
    (hstate : ∀ q, (k'.proctab q).state = (k.proctab q).state)
    (hpid : ∀ q, (k'.proctab q).pid = (k.proctab q).pid)
    (hidle : k'.idleprocPid = k.idleprocPid)
    (hp : (k.proctab p).state.queue = some c) :
    Queues k' none (Function.update L c l) where
  chain d := by
    by_cases hd : d = c
    · subst hd
      rwa [Function.update_self]
    · rw [Function.update_of_ne hd]
      exact hother d hd
  nodup d := by
    by_cases hd : d = c
    · subst hd
      rwa [Function.update_self]
    · rw [Function.update_of_ne hd]
      exact h.nodup d
  tail := htail
  placed d q hq := by
    rw [hstate]
    by_cases hd : d = c
    · subst hd
      rw [Function.update_self, hmem] at hq
      rcases hq with rfl | hq
      · exact hp
      · exact h.placed d q hq
    · rw [Function.update_of_ne hd] at hq
      exact h.placed d q hq
  out := by
    rintro _ ⟨⟩
  found q d _ hs hd hi := by
    rw [hstate] at hs
    rw [hpid, hidle] at hi
    by_cases hqp : q = p
    · subst hqp
      have hdc : d = c := Option.some.inj (hs.symm.trans hp)
      subst hdc
      rw [Function.update_self, hmem]
      exact .inl rfl
    · have hq := h.found q d (by simpa using Ne.symm hqp) hs hd hi
      by_cases hdc : d = c
      · subst hdc
        rw [Function.update_self, hmem]
        exact .inr hq
      · rwa [Function.update_of_ne hdc]
  idle := by
    rw [hidle, hstate]
    exact h.idle

/-- A process is taken out of the list `c`, of which `l` is left: all of it, unless it is
`dead_q`. -/
theorem Queues.exit (h : Queues k none L) {k' : Kernel} {c : Queue} {l : List Slot}
    (hchain : Chain k'.link (k'.first c) l) (hsub : ∀ q ∈ l, q ∈ L c) (hnodup : l.Nodup)
    (hrest : c ≠ .dead → ∀ q ∈ L c, o ≠ some q → q ∈ l)
    (hout : ∀ p, o = some p → p ∈ L c ∧ p ∉ l)
    (hother : ∀ d, d ≠ c → Chain k'.link (k'.first d) (L d))
    (htail : k'.tail = (Function.update L c l .ready).getLast?)
    (hstate : ∀ q, (k'.proctab q).state = (k.proctab q).state)
    (hpid : ∀ q, (k'.proctab q).pid = (k.proctab q).pid)
    (hidle : k'.idleprocPid = k.idleprocPid) : Queues k' o (Function.update L c l) where
  chain d := by
    by_cases hd : d = c
    · subst hd
      rwa [Function.update_self]
    · rw [Function.update_of_ne hd]
      exact hother d hd
  nodup d := by
    by_cases hd : d = c
    · subst hd
      rwa [Function.update_self]
    · rw [Function.update_of_ne hd]
      exact h.nodup d
  tail := htail
  placed d q hq := by
    rw [hstate]
    by_cases hd : d = c
    · subst hd
      rw [Function.update_self] at hq
      exact h.placed d q (hsub q hq)
    · rw [Function.update_of_ne hd] at hq
      exact h.placed d q hq
  out p hp d := by
    obtain ⟨hin, hnot⟩ := hout p hp
    by_cases hd : d = c
    · subst hd
      rwa [Function.update_self]
    · rw [Function.update_of_ne hd]
      exact fun hmem => hd (h.eq_of_mem hmem hin)
  found q d hq hs hd hi := by
    rw [hstate] at hs
    rw [hpid, hidle] at hi
    have hmem := h.found q d (by simp) hs hd hi
    by_cases hdc : d = c
    · subst hdc
      rw [Function.update_self]
      exact hrest hd q hmem hq
    · rwa [Function.update_of_ne hdc]
  idle := by
    rw [hidle, hstate]
    exact h.idle

/-- Writing a process does not change the lists that it is not in. -/
theorem Queues.chain_upd (h : Queues k o L) {f : Pcb → Pcb} (hq : q ∉ L c) :
    Chain (k.upd q f).link (k.first c) (L c) := by
  refine (h.chain c).congr fun r hr => ?_
  have hrq : r ≠ q := by
    rintro rfl
    exact hq hr
  simp [Kernel.link, hrq]

/-! ## The ready queue -/

/-- The process on its way, ready and with no link, is linked to the end of the ready
queue. -/
theorem Queues.enqueue (h : Queues k (some p) L) (hst : (k.proctab p).state = .ready)
    (hnext : (k.proctab p).next = none) :
    Queues (enqueue k p) none (Function.update L .ready (L .ready ++ [p])) := by
  have hp : ∀ d, p ∉ L d := h.out p rfl
  have hmem : ∀ q, q ∈ L .ready ++ [p] ↔ q = p ∨ q ∈ L .ready := fun q => by
    simp [or_comm]
  have hnodup : (L .ready ++ [p]).Nodup := by
    rw [← List.concat_eq_append]
    exact (h.nodup .ready).concat (hp .ready)
  have hqueue : (k.proctab p).state.queue = some .ready := by
    rw [hst]
    rfl
  have hchain := enqueue_chain (h.chain .ready) h.tail (h.nodup .ready) (hp .ready) hnext
  have htail := h.tail
  unfold Xeros.enqueue at hchain ⊢
  split at hchain
  · -- the process is linked behind the tail, which is in no other list
    rename_i t ht
    rw [ht] at htail
    obtain ⟨l, hl⟩ := List.getLast?_eq_some_iff.mp htail.symm
    have htl : t ∈ L .ready := by simp [hl]
    have hrel := Relinked.setNext k t (some p)
    refine h.enter hchain hmem hnodup (fun d hd => ?_) ?_ hrel.state hrel.pid rfl hqueue
    · have hfirst : ((k.upd t fun c => c.setNext (some p)).setTail (some p)).first d
          = k.first d := by cases d <;> rfl
      rw [hfirst]
      exact h.chain_upd (f := fun c => c.setNext (some p))
        fun hd' => hd (h.eq_of_mem hd' htl)
    · simp
  · -- only the two pointers change
    refine h.enter hchain hmem hnodup (fun d hd => ?_) ?_ (fun q => rfl) (fun q => rfl) rfl hqueue
    · have hfirst : ((k.setHead (some p)).setTail (some p)).first d = k.first d := by
        cases d with
        | ready => exact absurd rfl hd
        | _ => rfl
      rw [hfirst]
      exact h.chain d
    · simp

/-- `ready` enters the process on its way in the ready queue, unless it is the idle
process. -/
theorem Queues.ready (h : Queues k (some p) L) (hu : k.Used p) (hr : ready k p = .ok k') :
    ∃ L', Queues k' none L' ∧ (∀ c, c ≠ .ready → L' c = L c) ∧
      ∀ q c, q ∈ L' c → q = p ∨ q ∈ L c := by
  rw [ready_of_used hu, Except.ok.injEq] at hr
  have h₁ : Queues (k.upd p fun c => (c.setNext none).setState .ready) (some p) L :=
    h.updOut fun _ => .inl rfl
  subst hr
  unfold readied
  dsimp only
  split
  · rename_i hi
    refine ⟨L, h₁.arrive fun c hs _ hc => ?_, fun _ _ => rfl, fun _ _ => .inr⟩
    rw [Kernel.upd_proctab_self] at hs hc
    obtain rfl : Queue.ready = c := Option.some.inj hs
    exact hc rfl hi
  · refine ⟨_, h₁.enqueue (by simp) (by simp), fun c hc => ?_, fun q c hq => ?_⟩
    · rw [Function.update_of_ne hc]
    · by_cases hc : c = .ready
      · subst hc
        rw [Function.update_self] at hq
        simpa [or_comm] using hq
      · rw [Function.update_of_ne hc] at hq
        exact .inr hq

/-- A process that has been made ready has no link. -/
theorem Queues.ready_next (h : Queues k (some p) L) (hu : k.Used p)
    (hr : Xeros.ready k p = .ok k') : (k'.proctab p).next = none := by
  rw [ready_of_used hu, Except.ok.injEq] at hr
  subst hr
  unfold readied Xeros.enqueue
  dsimp only
  split
  · simp
  · split
    · rename_i t ht
      have htl : t ∈ L .ready := by
        have htail := h.tail
        rw [show k.tail = some t from ht] at htail
        exact List.mem_of_getLast? htail.symm
      have hpt : p ≠ t := by
        rintro rfl
        exact h.out p rfl .ready htl
      simp [hpt]
    · simp

/-- The head of the ready queue is taken out. -/
theorem Queues.takeHead (h : Queues k none L) {l : List Slot} (hl : L .ready = p :: l) :
    Queues (takeHead k p) (some p) (Function.update L .ready l) := by
  have hchain := h.chain .ready
  have hnodup := h.nodup .ready
  have htail := h.tail
  rw [hl] at hchain hnodup htail
  obtain ⟨hpl, hnl⟩ := List.nodup_cons.mp hnodup
  have hpr : p ∈ L .ready := by simp [hl]
  have hlink : ∀ d, d ≠ .ready → Chain (k.upd p fun c => c.setNext none).link (k.first d) (L d) :=
    fun d hd => h.chain_upd fun hd' => hd (h.eq_of_mem hd' hpr)
  have hrest : Chain (k.upd p fun c => c.setNext none).link (k.proctab p).next l := by
    refine Chain.congr (fun a ha => ?_) hchain.2
    have hap : a ≠ p := by
      rintro rfl
      exact hpl ha
    simp [Kernel.link, hap]
  have hrel := Relinked.setNext k p none
  have hsub : ∀ q ∈ l, q ∈ L .ready := fun q hq => by simp [hl, hq]
  have hleft : ∀ q ∈ L .ready, some p ≠ some q → q ∈ l := by
    intro q hq hqp
    rw [hl] at hq
    exact (List.mem_cons.mp hq).resolve_left fun h => hqp (h ▸ rfl)
  have hout : ∀ q, some p = some q → q ∈ L .ready ∧ q ∉ l := by
    rintro _ ⟨rfl⟩
    exact ⟨hpr, hpl⟩
  unfold Xeros.takeHead
  dsimp only
  split
  · -- it was the only one, so the tail goes too
    rename_i hnone
    have hln : l = [] := by
      have hnone' : (k.proctab p).next = none := hnone
      rw [hnone'] at hrest
      simpa using hrest
    refine h.exit ?_ hsub hnl (fun _ => hleft) hout ?_ ?_ hrel.state hrel.pid rfl
    · exact hrest
    · intro d hd
      have := hlink d hd
      cases d with
      | ready => exact absurd rfl hd
      | _ => exact this
    · simp [hln]
  · -- the last of the queue is another process, and stays the tail
    rename_i hsome
    refine h.exit ?_ hsub hnl (fun _ => hleft) hout ?_ ?_ hrel.state hrel.pid rfl
    · exact hrest
    · intro d hd
      have := hlink d hd
      cases d with
      | ready => exact absurd rfl hd
      | _ => exact this
    · rw [Function.update_self]
      cases l with
      | nil => exact absurd (Chain.nil_iff.mp hrest) hsome
      | cons a l => exact htail

/-- The link of a process in no list may be written. -/
theorem Queues.relink (h : Queues k o L) (hp : ∀ c, p ∉ L c) (x : Option Slot) :
    Queues (k.upd p fun c => c.setNext x) o L := by
  have hrel := Relinked.setNext k p x
  constructor
  · intro c
    have hfirst : (k.upd p fun c => c.setNext x).first c = k.first c := by cases c <;> rfl
    rw [hfirst]
    exact h.chain_upd (hp c)
  · exact h.nodup
  · exact h.tail
  · intro c q hq
    rw [hrel.state]
    exact h.placed c q hq
  · exact h.out
  · intro q c hq hs hc hi
    rw [hrel.state] at hs
    rw [hrel.pid] at hi
    exact h.found q c hq hs hc hi
  · rw [hrel.state]
    exact h.idle

/-- The idle process is put off the processor. -/
theorem Queues.stopIdle (h : Queues k o L) (hu : k.Used r)
    (hr : (k.proctab r).pid = k.idleprocPid) :
    Queues (k.upd r fun c => c.setState .ready) o L := by
  have hslot : r = slotOf k.idleprocPid := by rw [← hr, hu.2.1]
  -- whether it is ready or runs, the new state is that of the only list that can hold it
  have hready : ∀ c, r ∈ L c → c = .ready := by
    intro c hc
    have hq := h.placed c r hc
    rcases hslot ▸ h.idle with hs | hs
    · rw [hs] at hq
      exact (Option.some.inj hq).symm
    · rw [hs] at hq
      cases hq
  constructor
  · intro c
    have hfirst : (k.upd r fun c => c.setState .ready).first c = k.first c := by
      cases c <;> rfl
    rw [hfirst]
    refine (h.chain c).congr fun q _ => ?_
    by_cases hq : q = r
    · subst hq
      simp [Kernel.link]
    · simp [Kernel.link, hq]
  · exact h.nodup
  · exact h.tail
  · intro c q hq
    by_cases hqr : q = r
    · subst hqr
      obtain rfl := hready c hq
      simp [PState.queue]
    · rw [Kernel.upd_proctab_ne _ _ _ hqr]
      exact h.placed c q hq
  · exact h.out
  · intro q c hq hs hc hi
    by_cases hqr : q = r
    · subst hqr
      rw [Kernel.upd_proctab_self] at hs hi
      obtain rfl : Queue.ready = c := Option.some.inj hs
      exact absurd hr (hi rfl)
    · rw [Kernel.upd_proctab_ne _ _ _ hqr] at hs hi
      exact h.found q c hq hs hc hi
  · rw [Kernel.upd_idleprocPid, ← hslot, Kernel.upd_proctab_self]
    exact .inl rfl

/-- The head of a list that is not empty. -/
theorem Queues.first_eq (h : Queues k o L) (hc : k.first c = some q) :
    ∃ l, L c = q :: l ∧ Chain k.link (k.link q) l := by
  have hchain := h.chain c
  rw [hc] at hchain
  exact Chain.some_iff.mp hchain

/-- `next` takes a process out of the ready queue, or returns the idle process. -/
theorem Queues.next (h : Queues k none L) (hg : Good k) (hn : next k = .ok (k', p)) :
    ∃ L', Queues k' (some p) L' ∧ ∀ c, c ≠ .ready → L' c = L c := by
  rcases next_cases hn with ⟨hh, rfl, rfl⟩ | ⟨q, hq, hst, hc⟩
  · -- the ready queue is empty, and the idle process is in no other list
    refine ⟨L, h.leave fun c hc => ?_, fun _ _ => rfl⟩
    have hempty : L .ready = [] := by
      have hchain := h.chain .ready
      rw [show k'.first .ready = none from hh] at hchain
      exact Chain.none_iff.mp hchain
    have hq := h.placed c _ hc
    rcases h.idle with hs | hs
    · rw [hs] at hq
      obtain rfl := Option.some.inj hq
      change _ ∈ L .ready at hc
      simp [hempty] at hc
    · rw [hs] at hq
      cases hq
  · obtain ⟨l, hl, -⟩ := h.first_eq (c := .ready) hq
    have hu := hg.head q hq
    have hg₁ := (takeHead_quiet (X := nobody) hg hu).good
    have hu₁ := (takeHead_quiet (X := nobody) hg hu).used hu
    have h₁ := h.takeHead hl
    have hst₁ : ((Xeros.takeHead k q).proctab q).state = .ready := by
      unfold Xeros.takeHead
      dsimp only
      split <;> simpa using hst
    have hframe : ∀ (l : List Slot) c, c ≠ .ready → Function.update L .ready l c = L c :=
      fun l c hc => Function.update_of_ne hc _ _
    generalize Xeros.takeHead k q = k₁ at h₁ hg₁ hu₁ hst₁ hc
    generalize hL₁ : Function.update L Queue.ready l = L₁ at h₁
    have hframe₁ : ∀ c, c ≠ .ready → L₁ c = L c := fun c hc => hL₁ ▸ hframe l c hc
    unfold choose at hc
    split at hc
    · -- the idle process is left out and the one behind it taken
      rename_i r hr
      split at hr
      · rename_i hi
        have h₂ : Queues k₁ none L₁ := h₁.arrive fun c hs _ hnot => by
          rw [hst₁] at hs
          obtain rfl : Queue.ready = c := Option.some.inj hs
          exact hnot rfl hi
        obtain ⟨l', hl', -⟩ := h₂.first_eq (c := .ready) hr
        have h₃ := h₂.takeHead hl'
        have hout : ∀ c, q ∉ Function.update L₁ .ready l' c := by
          intro c
          by_cases hcr : c = .ready
          · subst hcr
            rw [Function.update_self]
            exact fun hm => h₁.out q rfl .ready (hl' ▸ List.mem_cons_of_mem _ hm)
          · rw [Function.update_of_ne hcr]
            exact h₁.out q rfl c
        simp only [Prod.mk.injEq] at hc
        obtain ⟨rfl, rfl⟩ := hc
        exact ⟨_, h₃.relink hout none, fun c hc => by
          rw [Function.update_of_ne hc]
          exact hframe₁ c hc⟩
      · cases hr
    · split at hc
      · -- the idle process, if it was running, is put off the processor
        rename_i hi
        simp only [Prod.mk.injEq] at hc
        obtain ⟨rfl, rfl⟩ := hc
        refine ⟨L₁, ?_, hframe₁⟩
        cases hr : k₁.running with
        | none =>
            refine h₁.unmoved ⟨fun _ => rfl, fun _ => rfl, fun _ => rfl, fun c => ?_, rfl, rfl⟩
            cases c <;> rfl
        | some r =>
            rw [hr] at hi
            exact h₁.stopIdle (hg₁.running r hr) hi.1
      · simp only [Prod.mk.injEq] at hc
        obtain ⟨rfl, rfl⟩ := hc
        exact ⟨L₁, h₁, hframe₁⟩

/-- The process on its way is put on the processor. -/
theorem Queues.run (h : Queues k (some p) L) : Queues (run k p) none L := by
  have h₁ : Queues (k.upd p fun c => c.setState .running) (some p) L :=
    h.updOut fun _ => .inr rfl
  have h₂ := h₁.arrive fun c hs => by
    rw [Kernel.upd_proctab_self] at hs
    cases hs
  refine h₂.unmoved ⟨fun _ => rfl, fun _ => rfl, fun _ => rfl, fun c => ?_, rfl, rfl⟩
  cases c <;> rfl

theorem Queues.reschedule (h : Queues k none L) (hg : Good k)
    (hr : reschedule k = .ok (k', p)) :
    ∃ L', Queues k' none L' ∧ ∀ c, c ≠ .ready → L' c = L c := by
  simp only [Xeros.reschedule, Run.bind_eq_ok, pure, Except.pure, Except.ok.injEq,
    Prod.mk.injEq] at hr
  obtain ⟨⟨k₁, q⟩, h₁, rfl, rfl⟩ := hr
  obtain ⟨L', h', hL⟩ := h.next hg h₁
  exact ⟨L', h'.run, hL⟩

/-! ## `blocked_q` and `dead_q` -/

/-- The list that the address of a queue head stands for. -/
def QRef.queue : QRef → Option Queue
  | .head => some .ready
  | .running => none
  | .deadQ => some .dead
  | .blockedQ => some .blocked

theorem QRef.get_eq {Q : QRef} (hQ : Q.queue = some c) (k : Kernel) : Q.get k = k.first c := by
  cases Q <;> cases hQ <;> rfl

theorem QRef.first_set {Q : QRef} (hQ : Q.queue = some c) (k : Kernel) (v : Option Slot) :
    (Q.set k v).first d = if d = c then v else k.first d := by
  cases Q <;> cases hQ <;> cases d <;> rfl

/-- `append` enters the process on its way at the end of `blocked_q` or `dead_q`. -/
theorem Queues.append (h : Queues k (some p) L) {Q : QRef} {fuel : Nat}
    (hQ : Q.queue = some c) (hc : c ≠ .ready) (hp : (k.proctab p).state.queue = some c)
    (ha : append k fuel Q p = .ok k') :
    Queues k' none (Function.update L c (L c ++ [p])) := by
  have hpc : ∀ d, p ∉ L d := h.out p rfl
  have hchain : Chain k.link (Q.get k) (L c) := QRef.get_eq hQ k ▸ h.chain c
  have hrel := Relinked.append ha
  -- the heads of the other queues stay
  obtain ⟨hfirst, htail, hidle⟩ : (∀ d, d ≠ c → k'.first d = k.first d) ∧ k'.tail = k.tail ∧
      k'.idleprocPid = k.idleprocPid := by
    have hset : ∀ (k : Kernel) (x : Slot) (o : Option Slot) d,
        (k.upd x fun c => c.setNext o).first d = k.first d := by
      intro k x o d
      cases d <;> rfl
    obtain ⟨k₀, rfl, rfl | rfl | ⟨x, -, -, rfl⟩⟩ := append_cases ha
    · exact ⟨fun d hd => by rw [QRef.first_set hQ, if_neg hd, hset], by simp, by simp⟩
    · exact ⟨fun d _ => hset _ _ _ d, rfl, rfl⟩
    · exact ⟨fun d _ => (hset _ _ _ d).trans (hset _ _ _ d), rfl, rfl⟩
  refine h.enter ?_ (fun q => by simp [or_comm]) ?_ (fun d hd => ?_) ?_ hrel.state hrel.pid hidle hp
  · rw [← QRef.get_eq hQ]
    exact append_chain hchain (h.nodup c) (hpc c) ha
  · rw [List.nodup_append_comm, List.singleton_append]
    exact List.nodup_cons.mpr ⟨hpc c, h.nodup c⟩
  · -- so do the links of those who are in them
    rw [hfirst d hd]
    refine (h.chain d).congr fun q hq => append_link_ne hchain (hpc c) ha q ?_ fun hq' => ?_
    · rintro rfl
      exact hpc d hq
    · exact hd (h.eq_of_mem hq hq')
  · rw [Function.update_of_ne (Ne.symm hc), htail]
    exact h.tail

/-- The process on its way blocks. -/
theorem Queues.block (h : Queues k (some p) L) {fuel : Nat} {code : Word}
    (hidle : p ≠ slotOf k.idleprocPid) (hb : block k fuel p code = .ok k') :
    Queues k' none (Function.update L .blocked (L .blocked ++ [p])) := by
  have h₁ := h.updOut (f := fun c => (c.setState .blocked).setRet code)
    fun hi => absurd hi hidle
  exact h₁.append rfl (by decide) (by simp [PState.queue]) hb

/-- The head of a list other than the ready queue is taken out. -/
theorem Queues.pop (h : Queues k none L) {l : List Slot} (hc : c ≠ .ready)
    (hl : L c = q :: l) (hfirst : ∀ d, k'.first d = if d = c then k.link q else k.first d)
    (hproc : k'.proctab = (k.upd q fun c => c.setNext none).proctab)
    (htail : k'.tail = k.tail) (hidle : k'.idleprocPid = k.idleprocPid) :
    Queues k' (some q) (Function.update L c l) := by
  have hchain := h.chain c
  have hnodup := h.nodup c
  rw [hl] at hchain hnodup
  obtain ⟨hql, hnl⟩ := List.nodup_cons.mp hnodup
  have hmem : q ∈ L c := by simp [hl]
  have hlink : k'.link = (k.upd q fun c => c.setNext none).link := by
    unfold Kernel.link
    rw [hproc]
  have hrel := Relinked.setNext k q none
  refine h.exit ?_ (fun r hr => by simp [hl, hr]) hnl (fun _ r hr hqr => ?_) ?_
    (fun d hd => ?_) ?_ (fun r => hproc ▸ hrel.state r) (fun r => hproc ▸ hrel.pid r) hidle
  · rw [hfirst, if_pos rfl, hlink]
    refine Chain.congr (fun a ha => ?_) hchain.2
    have haq : a ≠ q := by
      rintro rfl
      exact hql ha
    simp [Kernel.link, haq]
  · rw [hl] at hr
    exact (List.mem_cons.mp hr).resolve_left fun h => hqr (h ▸ rfl)
  · rintro _ ⟨rfl⟩
    exact ⟨hmem, hql⟩
  · rw [hfirst, if_neg hd, hlink]
    exact h.chain_upd fun hd' => hd (h.eq_of_mem hd' hmem)
  · rw [Function.update_of_ne (Ne.symm hc), htail]
    exact h.tail

/-- `remove` takes the head of `blocked_q` out when it is the process looked for. -/
theorem Queues.removeHead (h : Queues k none L) {fuel : Nat} {n : Int}
    (hq : k.blockedQ = some q)
    (hr : remove k fuel (some .blockedQ) (k.proctab q).pid = .ok (k', n)) :
    ∃ l, L .blocked = q :: l ∧ Queues k' (some q) (Function.update L .blocked l) := by
  obtain ⟨l, hl, -⟩ := h.first_eq (c := .blocked) hq
  refine ⟨l, hl, h.pop (by decide) hl ?_ ?_ ?_ ?_⟩ <;>
    obtain rfl : k' = (k.setBlockedQ (k.proctab q).next).upd q fun c => c.setNext none := by
      cases fuel with
      | zero => cases hr
      | succ fuel =>
          simp only [remove, QRef.get, hq, removeLoop, if_pos, pure, Except.pure,
            Except.ok.injEq, Prod.mk.injEq] at hr
          exact hr.1.symm
  · intro d
    cases d <;> rfl
  · rfl
  · rfl
  · rfl

end Xeros
