import Xeros.Logic.Fifo
import Xeros.Logic.Rets
import Xeros.Logic.Settle

/-!
# The peers of a process that stops

`notify_waiters` walks along `blocked_q` and moves the processes that wait for the process that
stops to the ready queue. The walk goes on with the link of the process that it has just moved,
which is empty then, and it cuts a process out through its predecessor, which the head of
`blocked_q` does not have.
-/

namespace Xeros

open Lib

variable {k k' k₁ : Kernel} {a : Ambient} {p q r prev : Slot} {B R D l₁ l₂ : List Slot}
  {pid d : Word} {fuel : Nat}

/-! ## The two lists -/

/-- `blocked_q` is the list `B` and the ready queue is the list `R`. -/
structure TwoLists (k : Kernel) (B R : List Slot) : Prop where
  blocked : Chain k.link k.blockedQ B
  ready : ReadyList k R
  nodup : B.Nodup
  apart : ∀ q ∈ B, q ∉ R

/-- Only the links of the members matter. -/
theorem TwoLists.congr (h : TwoLists k B R) (hb : k'.blockedQ = k.blockedQ)
    (hh : k'.head = k.head) (ht : k'.tail = k.tail)
    (hl : ∀ q, q ∈ B ∨ q ∈ R → k'.link q = k.link q) : TwoLists k' B R := by
  refine ⟨?_, h.ready.congr hh ht fun q hq => hl q (.inr hq), h.nodup, h.apart⟩
  rw [hb]
  exact h.blocked.congr fun q hq => hl q (.inl hq)

theorem readied_blockedQ (k : Kernel) (p : Slot) : (readied k p).blockedQ = k.blockedQ := by
  unfold readied enqueue
  dsimp only
  split
  · rfl
  · split
    · rfl
    · rfl

/-- A process in neither list becomes ready. -/
theorem TwoLists.readied (h : TwoLists k B R) (hq : q ∉ B) (hr : q ∉ R) :
    TwoLists (readied k q) B (k.queued q R) := by
  refine ⟨?_, h.ready.readied hr, h.nodup, fun x hx hm => ?_⟩
  · rw [readied_blockedQ]
    refine h.blocked.congr fun x hx => readied_link ?_ fun ht => ?_
    · rintro rfl
      exact hq hx
    · -- the last of the ready queue is not blocked
      rw [h.ready.tail] at ht
      exact h.apart x hx (List.mem_of_getLast? ht)
  · unfold Kernel.queued at hm
    split at hm
    · exact h.apart x hx hm
    · rcases List.mem_append.mp hm with hm | hm
      · exact h.apart x hx hm
      · exact hq (List.mem_singleton.mp hm ▸ hx)

/-- A process behind the head is cut out of `blocked_q`. -/
theorem TwoLists.cut (h : TwoLists k (l₁ ++ [prev] ++ q :: l₂) R) :
    TwoLists (k.upd prev fun c => c.setNext (k.proctab q).next) (l₁ ++ [prev] ++ l₂) R := by
  refine ⟨h.blocked.cut h.nodup (fun b hbp => ?_) ?_, h.ready.congr rfl rfl fun x hx => ?_,
    ?_, ?_⟩
  · simp [Kernel.link, hbp]
  · simp [Kernel.link]
  · have hxp : x ≠ prev := by
      rintro rfl
      exact h.apart x (by simp) hx
    simp [Kernel.link, hxp]
  · refine List.Nodup.sublist ?_ h.nodup
    exact List.Sublist.append_left (List.sublist_cons_self q l₂) _
  · intro x hx
    refine h.apart x ?_
    rcases List.mem_append.mp hx with hx | hx
    · exact List.mem_append_left _ hx
    · exact List.mem_append_right _ (List.mem_cons_of_mem _ hx)

/-! ## The walk -/

/-- `q` is in a send to the pid, or in a receive from it. -/
def PeerOf (k : Kernel) (pid : Word) (q : Slot) : Prop :=
  ((k.proctab q).ret = Request.send.code ∧ k.arg q 0 = pid) ∨
    ((k.proctab q).ret = Request.recv.code ∧ k.mem.word (k.arg q 0) = pid)

instance : Decidable (PeerOf k pid q) := inferInstanceAs (Decidable (_ ∨ _))

/-- A process is taken for a peer if it is one, or if it is in another call and the process
before it was taken for one. -/
theorem waitsOn_eq_iff : waitsOn k q d = pid ↔ PeerOf k pid q ∨
    (d = pid ∧ (k.proctab q).ret ≠ Request.send.code ∧ (k.proctab q).ret ≠ Request.recv.code) := by
  unfold waitsOn PeerOf
  by_cases hs : (k.proctab q).ret = Request.send.code
  · have hne : Request.send.code ≠ Request.recv.code := by decide
    simp [hs, hne]
  · by_cases hr : (k.proctab q).ret = Request.recv.code
    · have hne : Request.recv.code ≠ Request.send.code := by decide
      simp [hr, hne]
    · simp [hs, hr]

/-- The kernel after `notify_waiters` has found `q` behind `prev`. -/
def notified (k : Kernel) (prev q : Slot) : Kernel :=
  readied ((k.upd prev fun c => c.setNext (k.proctab q).next).setRet q (toWord badPid)) q

/-- The process that is found keeps its pid until it is made ready. -/
theorem found_pid (k : Kernel) (prev q : Slot) (v : Word) :
    (((k.upd prev fun c => c.setNext (k.proctab q).next).setRet q v).proctab q).pid
      = (k.proctab q).pid := by
  rw [(Unmoved.setRet _ q v).pid]
  exact (Relinked.setNext k prev _).pid q

theorem notified_proctab (k : Kernel) (prev q r : Slot) :
    ((notified k prev q).proctab r).pid = (k.proctab r).pid ∧
      ((notified k prev q).proctab r).state = (if r = q then .ready else (k.proctab r).state) ∧
      ((notified k prev q).proctab r).ret
        = if r = q then toWord badPid else (k.proctab r).ret := by
  obtain ⟨o, ho⟩ := readied_proctab
    ((k.upd prev fun c => c.setNext (k.proctab q).next).setRet q (toWord badPid)) q r
  unfold notified
  rw [ho]
  have hrel := Relinked.setNext k prev (k.proctab q).next
  by_cases hr : r = q
  · subst hr
    rw [if_pos rfl, if_pos rfl, if_pos rfl]
    simp [Kernel.setRet, hrel.pid]
  · rw [if_neg hr, if_neg hr, if_neg hr]
    simp [Kernel.setRet, hr, hrel.pid, hrel.state, hrel.ret]

/-- The head of `blocked_q` stays where it is. -/
theorem notified_blockedQ (k : Kernel) (prev q : Slot) :
    (notified k prev q).blockedQ = k.blockedQ := readied_blockedQ _ q

/-- The walk ends at the first process that it takes for a peer. -/
theorem loop_found (hu : k.Used q) (ht : k.tail ≠ some q) (hw : waitsOn k q d = pid) :
    notifyWaitersLoop pid (fuel + 2) k prev (some q) d = .ok (notified k prev q) := by
  have hr := ready_of_used (hu.congr (found_pid k prev q (toWord badPid)))
  have hnext : ((notified k prev q).proctab q).next = none := readied_link_self ht
  simp only [notifyWaitersLoop, if_pos hw, hr, bind, Except.bind]
  rw [show (readied _ q).proctab q = (notified k prev q).proctab q from rfl, hnext]
  rfl

/-- The lists after a process behind the head has been found. -/
theorem TwoLists.notified (h : TwoLists k (l₁ ++ [prev] ++ q :: l₂) R) :
    TwoLists (notified k prev q) (l₁ ++ [prev] ++ l₂) (k.queued q R) := by
  have hq : q ∉ l₁ ++ [prev] ++ l₂ := (List.nodup_cons.mp (List.nodup_middle.mp h.nodup)).1
  have hr : q ∉ R := h.apart q (by simp)
  have hcut : TwoLists ((k.upd prev fun c => c.setNext (k.proctab q).next).setRet q
      (toWord badPid)) (l₁ ++ [prev] ++ l₂) R := by
    refine h.cut.congr rfl rfl rfl fun x _ => ?_
    exact (Unmoved.setRet _ q (toWord badPid)).next x
  have hqueued : ((k.upd prev fun c => c.setNext (k.proctab q).next).setRet q
      (toWord badPid)).queued q R = k.queued q R := by
    unfold Kernel.queued Kernel.Idle
    simp only [found_pid]
    rfl
  rw [← hqueued]
  exact hcut.readied hq hr

/-- A blocked process is not the last of the ready queue. -/
theorem TwoLists.tail_ne (h : TwoLists k B R) (hq : q ∈ B) : k.tail ≠ some q := by
  intro ht
  rw [h.ready.tail] at ht
  exact h.apart q hq (List.mem_of_getLast? ht)

/-- The walk from behind `prev` on, with nobody taken for a peer so far. -/
theorem loop_spec (h : TwoLists k (l₁ ++ [prev] ++ l₂) R) (hu : ∀ q ∈ l₂, k.Used q)
    {x : Option Slot} (hx : Chain k.link x l₂) (hd : d ≠ pid) (hf : l₂.length < fuel) :
    ((∀ q ∈ l₂, ¬ PeerOf k pid q) ∧ notifyWaitersLoop pid fuel k prev x d = .ok k) ∨
      ∃ l₃ q l₄ r, l₂ = l₃ ++ q :: l₄ ∧ PeerOf k pid q ∧
        notifyWaitersLoop pid fuel k prev x d = .ok (notified k r q) ∧
        TwoLists (notified k r q) (l₁ ++ [prev] ++ l₃ ++ l₄) (k.queued q R) := by
  induction l₂ generalizing fuel l₁ prev x d with
  | nil =>
      obtain rfl : x = none := hx
      obtain ⟨f, rfl⟩ : ∃ f, fuel = f + 1 := ⟨fuel - 1, by simp at hf; omega⟩
      exact .inl ⟨by simp, rfl⟩
  | cons q l₂ ih =>
      obtain ⟨rfl, hx'⟩ := hx
      have hlen : l₂.length + 1 < fuel := by simpa using hf
      obtain ⟨f, rfl⟩ : ∃ f, fuel = f + 2 := ⟨fuel - 2, by omega⟩
      have hpeer : waitsOn k q d = pid ↔ PeerOf k pid q := by
        rw [waitsOn_eq_iff]
        exact or_iff_left fun h => hd h.1
      by_cases hw : waitsOn k q d = pid
      · refine .inr ⟨[], q, l₂, prev, rfl, hpeer.mp hw,
          loop_found (hu q List.mem_cons_self) (h.tail_ne (by simp)) hw, ?_⟩
        simpa using h.notified
      · have hcons : l₁ ++ [prev] ++ q :: l₂ = (l₁ ++ [prev]) ++ [q] ++ l₂ := by simp
        rw [hcons] at h
        have hloop : notifyWaitersLoop pid (f + 2) k prev (some q) d
            = notifyWaitersLoop pid (f + 1) k q (k.link q) (waitsOn k q d) := by
          rw [notifyWaitersLoop, if_neg hw]
          rfl
        have hlt : l₂.length < f + 1 := by omega
        rw [hloop]
        rcases ih h (fun r hr => hu r (List.mem_cons_of_mem _ hr)) hx' hw hlt with
          ⟨hno, hk⟩ | ⟨l₃, r, l₄, s, rfl, hr, hk, hlists⟩
        · exact .inl ⟨List.forall_mem_cons.mpr ⟨mt hpeer.mpr hw, hno⟩, hk⟩
        · refine .inr ⟨q :: l₃, r, l₄, s, rfl, hr, hk, ?_⟩
          simpa using hlists

/-! ## The release -/

/-- One element is dropped. -/
theorem filter_drop {P : Slot → Prop} [DecidablePred P] (hq : P q) (h₁ : ∀ y ∈ l₁, ¬ P y)
    (h₂ : ∀ y ∈ l₂, ¬ P y) : ((l₁ ++ q :: l₂).filter fun y => ¬ P y) = l₁ ++ l₂ := by
  have hkeep : ∀ l : List Slot, (∀ y ∈ l, ¬ P y) → (l.filter fun y => ¬ P y) = l :=
    fun l hl => List.filter_eq_self.mpr fun y hy => by simpa using hl y hy
  rw [List.filter_append, List.filter_cons_of_neg (by simpa using hq), hkeep l₁ h₁, hkeep l₂ h₂]

/-- The processes of `blocked_q` that wait for the pid are in the ready queue once, with
`BAD_PID`, and the others are still in `blocked_q`, in the same order, with the `ret` they
had. -/
structure PeersReleased (k k' : Kernel) (pid : Word) (B : List Slot) : Prop where
  released : ∀ q ∈ B, PeerOf k pid q → (∃ l, Chain k'.link k'.head l ∧ l.count q = 1) ∧
    (k'.proctab q).state = .ready ∧ (k'.proctab q).ret = toWord badPid
  left : Chain k'.link k'.blockedQ (B.filter fun q => ¬ PeerOf k pid q)
  kept : ∀ q ∈ B, ¬ PeerOf k pid q → (k'.proctab q).state = .blocked ∧
    (k'.proctab q).ret = (k.proctab q).ret

/-- At most one process waits for the pid; it is not the idle process, and the head of
`blocked_q` is not taken for one, as it is when it waits for the pid, or when it is in another
call and the uninitialised `destpid` is the pid. -/
structure OnePeer (k : Kernel) (a : Ambient) (pid : Word) (B : List Slot) : Prop where
  head : ∀ q, B.head? = some q → waitsOn k q a.destpid ≠ pid
  one : ∀ q ∈ B, ∀ r ∈ B, PeerOf k pid q → PeerOf k pid r → q = r
  idle : ∀ q ∈ B, PeerOf k pid q → ¬ k.Idle q

/-- When the head of `blocked_q` is found it stays the head, so it has not been released. -/
theorem head_not_released {x : Slot} {l : List Slot} (h : TwoLists k (x :: l) R) :
    ¬ PeersReleased k (notified k x x) pid (x :: l) := by
  intro hr
  have hleft := hr.left
  rw [notified_blockedQ, show k.blockedQ = some x from h.blocked.1] at hleft
  obtain ⟨l', hl', -⟩ := Chain.some_iff.mp hleft
  have hx : x ∈ (x :: l).filter fun q => ¬ PeerOf k pid q := hl' ▸ List.mem_cons_self
  have hnot : ¬ PeerOf k pid x := by simpa using (List.mem_filter.mp hx).2
  -- and yet it is ready
  have hst := (hr.kept x List.mem_cons_self hnot).1
  rw [(notified_proctab k x x x).2.1, if_pos rfl] at hst
  cases hst

/-- Nobody waits for the pid. -/
theorem released_nobody (h : TwoLists k B R) (hb : ∀ q ∈ B, (k.proctab q).state = .blocked)
    (hno : ∀ q ∈ B, ¬ PeerOf k pid q) : PeersReleased k k pid B := by
  refine ⟨fun q hq hp => absurd hp (hno q hq), ?_, fun q hq _ => ⟨hb q hq, rfl⟩⟩
  rw [List.filter_eq_self.mpr fun q hq => by simpa using hno q hq]
  exact h.blocked

/-- The walk has released `q` and no other process: this is right if `q` is the only peer, and
can be put in the ready queue. -/
theorem notified_released_iff (h : TwoLists k (l₁ ++ q :: l₂) R)
    (hb : ∀ y ∈ l₁ ++ q :: l₂, (k.proctab y).state = .blocked) (hq : PeerOf k pid q)
    (hlists : TwoLists (notified k r q) (l₁ ++ l₂) (k.queued q R)) :
    PeersReleased k (notified k r q) pid (l₁ ++ q :: l₂) ↔
      (∀ y ∈ l₁ ++ q :: l₂, PeerOf k pid y → y = q) ∧ ¬ k.Idle q := by
  have hqB : q ∈ l₁ ++ q :: l₂ := by simp
  constructor
  · intro hr
    refine ⟨fun y hy hp => ?_, fun hi => ?_⟩
    · -- every other peer would still be in `blocked_q`
      by_contra hne
      have hfilter := hr.left.unique hlists.blocked
      have hy' : y ∈ l₁ ++ l₂ := by
        simp only [List.mem_append, List.mem_cons] at hy ⊢
        tauto
      rw [← hfilter, List.mem_filter] at hy'
      simp [hp] at hy'
    · -- the idle process is not put in the ready queue
      obtain ⟨⟨l, hl, hcount⟩, -⟩ := hr.released q hqB hq
      have hready := hlists.ready.chain
      unfold Kernel.queued at hready
      rw [if_pos hi] at hready
      rw [hl.unique hready, List.count_eq_zero.mpr (h.apart q hqB)] at hcount
      cases hcount
  · rintro ⟨heq, hidle⟩
    refine ⟨fun y hy hp => ?_, ?_, fun y hy hp => ?_⟩
    · obtain rfl := heq y hy hp
      obtain ⟨-, hst, hret⟩ := notified_proctab k r y y
      rw [if_pos rfl] at hst hret
      refine ⟨⟨_, hlists.ready.chain, ?_⟩, hst, hret⟩
      refine List.count_eq_one_of_mem hlists.ready.nodup ?_
      unfold Kernel.queued
      rw [if_neg hidle]
      simp
    · have hparts := List.nodup_append.mp h.nodup
      have hfilter : ((l₁ ++ q :: l₂).filter fun y => ¬ PeerOf k pid y) = l₁ ++ l₂ := by
        refine filter_drop hq (fun y hy hp => ?_) fun y hy hp => ?_
        · obtain rfl := heq y (List.mem_append_left _ hy) hp
          exact hparts.2.2 y hy y List.mem_cons_self rfl
        · obtain rfl := heq y (by simp [hy]) hp
          exact (List.nodup_cons.mp hparts.2.1).1 hy
      rw [hfilter]
      exact hlists.blocked
    · have hne : y ≠ q := by
        rintro rfl
        exact hp hq
      obtain ⟨-, hst, hret⟩ := notified_proctab k r q y
      rw [if_neg hne] at hst hret
      exact ⟨hst.trans (hb y hy), hret⟩

/-- The walk releases the peers and only them if and only if there is one at most that can be
released. -/
theorem notifyWaiters_releases_iff (h : TwoLists k B R) (hu : ∀ q ∈ B, k.Used q)
    (hb : ∀ q ∈ B, (k.proctab q).state = .blocked) (hf : B.length < a.fuel) :
    ∃ k', notifyWaiters k a pid = .ok k' ∧ (PeersReleased k k' pid B ↔ OnePeer k a pid B) := by
  unfold notifyWaiters
  cases B with
  | nil =>
      rw [show k.blockedQ = none from h.blocked]
      refine ⟨k, rfl, iff_of_true ⟨by simp, h.blocked, by simp⟩ ⟨by simp, by simp, by simp⟩⟩
  | cons x l =>
      rw [show k.blockedQ = some x from h.blocked.1]
      have hlen : l.length + 1 < a.fuel := by simpa using hf
      obtain ⟨f, hfuel⟩ : ∃ f, a.fuel = f + 2 := ⟨a.fuel - 2, by omega⟩
      dsimp only
      rw [hfuel]
      by_cases hw : waitsOn k x a.destpid = pid
      · -- the head is found, and is not taken out of `blocked_q`
        exact ⟨_, loop_found (hu x List.mem_cons_self) (h.tail_ne List.mem_cons_self) hw,
          iff_of_false (head_not_released h) fun ho => ho.head x rfl hw⟩
      · have hx : ¬ PeerOf k pid x := fun hp => hw (waitsOn_eq_iff.mpr (.inl hp))
        have hloop : notifyWaitersLoop pid (f + 2) k x (some x) a.destpid
            = notifyWaitersLoop pid (f + 1) k x (k.link x) (waitsOn k x a.destpid) := by
          rw [notifyWaitersLoop, if_neg hw]
          rfl
        have hlt : l.length < f + 1 := by omega
        have h' : TwoLists k ([] ++ [x] ++ l) R := h
        have hhead : ∀ y, (x :: l).head? = some y → waitsOn k y a.destpid ≠ pid := by
          rintro y ⟨⟩
          exact hw
        rw [hloop]
        rcases loop_spec h' (fun r hr => hu r (List.mem_cons_of_mem _ hr)) h.blocked.2 hw hlt with
          ⟨hno, hk⟩ | ⟨l₃, q, l₄, r, rfl, hq, hk, hlists⟩
        · -- there are no peers at all
          have hnone : ∀ q ∈ x :: l, ¬ PeerOf k pid q := List.forall_mem_cons.mpr ⟨hx, hno⟩
          exact ⟨k, hk, iff_of_true (released_nobody h hb hnone)
            ⟨hhead, fun q hq _ _ hp => absurd hp (hnone q hq), fun q hq hp => absurd hp (hnone q hq)⟩⟩
        · -- `q` is released, and the walk ends with it
          have hq' : q ∈ x :: l₃ ++ q :: l₄ := by simp
          refine ⟨_, hk, (notified_released_iff h hb hq hlists).trans ?_⟩
          constructor
          · rintro ⟨heq, hidle⟩
            refine ⟨hhead, fun y hy z hz hpy hpz => ?_, fun y hy hp => ?_⟩
            · rw [heq y hy hpy, heq z hz hpz]
            · rw [heq y hy hp]
              exact hidle
          · intro ho
            exact ⟨fun y hy hp => ho.one y hy q hq' hp hq, ho.idle q hq' hq⟩

/-! ## The end of a process -/

/-- `p` runs, and `blocked_q`, the ready queue and `dead_q` are lists of processes in the states
they are for. -/
structure Listed (k : Kernel) (p : Slot) (B R D : List Slot) : Prop where
  blocked : Chain k.link k.blockedQ B
  ready : ReadyList k R
  dead : Chain k.link k.deadQ D
  nodup : B.Nodup
  nodupDead : D.Nodup
  running : (k.proctab p).state = .running
  stateBlocked : ∀ q ∈ B, (k.proctab q).state = .blocked
  stateReady : ∀ q ∈ R, (k.proctab q).state = .ready
  stateDead : ∀ q ∈ D, ¬ (k.proctab q).alive

theorem SameCalls.peerOf (h : SameCalls k k') : PeerOf k' pid q ↔ PeerOf k pid q := by
  unfold PeerOf
  rw [h.ret, h.arg, h.mem]

theorem SameCalls.onePeer (h : SameCalls k k') : OnePeer k' a pid B ↔ OnePeer k a pid B := by
  have hidle : ∀ q, k'.Idle q ↔ k.Idle q := by
    intro q
    unfold Kernel.Idle
    rw [h.pid, h.idle]
  constructor
  · rintro ⟨h₁, h₂, h₃⟩
    simp only [h.waitsOn, h.peerOf, hidle] at h₁ h₂ h₃
    exact ⟨h₁, h₂, h₃⟩
  · rintro ⟨h₁, h₂, h₃⟩
    simp only [← h.waitsOn, ← h.peerOf, ← hidle] at h₁ h₂ h₃
    exact ⟨h₁, h₂, h₃⟩

theorem SameCalls.released (h : SameCalls k k₁) :
    PeersReleased k₁ k' pid B ↔ PeersReleased k k' pid B := by
  constructor
  · rintro ⟨h₁, h₂, h₃⟩
    simp only [h.peerOf, h.ret] at h₁ h₂ h₃
    exact ⟨h₁, h₂, h₃⟩
  · rintro ⟨h₁, h₂, h₃⟩
    simp only [← h.peerOf, ← h.ret] at h₁ h₂ h₃
    exact ⟨h₁, h₂, h₃⟩

/-- The process that stops is put on `dead_q`, which leaves the lists alone. -/
theorem Listed.append (hl : Listed k p B R D) (hf : maxProc < fuel) :
    ∃ k₁, Xeros.append (k.upd p fun c => (c.setState .stopped).setNext none) fuel .deadQ p = .ok k₁ ∧
      SameCalls k k₁ ∧ TwoLists k₁ B R ∧ ∀ q ∈ B, (k₁.proctab q).state = .blocked := by
  have hp : ∀ {st : PState} {l : List Slot}, (∀ q ∈ l, (k.proctab q).state = st) →
      st ≠ .running → p ∉ l := by
    intro st l hall hst hm
    exact hst ((hall p hm).symm.trans hl.running)
  have hpB := hp hl.stateBlocked (by decide)
  have hpR := hp hl.stateReady (by decide)
  have hpD : p ∉ D := by
    intro hm
    exact hl.stateDead p hm (by simp [Pcb.alive, hl.running])
  have hlink : ∀ x, x ≠ p →
      (k.upd p fun c => (c.setState .stopped).setNext none).link x = k.link x := by
    intro x hx
    simp [Kernel.link, hx]
  have hdead : Chain (k.upd p fun c => (c.setState .stopped).setNext none).link
      (k.upd p fun c => (c.setState .stopped).setNext none).deadQ D := by
    refine hl.dead.congr fun x hx => hlink x ?_
    rintro rfl
    exact hpD hx
  obtain ⟨k₁, hk₁⟩ := append_ok (Q := .deadQ) hdead hpD
    (Nat.lt_of_le_of_lt (length_le_maxProc hl.nodupDead) hf)
  obtain ⟨hblocked, hhead, htail, -⟩ := append_deadQ_others hk₁
  have hlists : TwoLists k₁ B R := by
    -- only the links of those on `dead_q` and of `p` change
    have hkeep : ∀ q, q ∈ B ∨ q ∈ R → k₁.link q = k.link q := by
      intro q hq
      have hqp : q ≠ p := by
        rintro rfl
        exact hq.elim hpB hpR
      have hqD : q ∉ D := by
        intro hm
        refine hl.stateDead q hm ?_
        rcases hq with hq | hq
        · simp [Pcb.alive, hl.stateBlocked q hq]
        · simp [Pcb.alive, hl.stateReady q hq]
      rw [append_link_ne (Q := .deadQ) hdead hpD hk₁ q hqp hqD, hlink q hqp]
    refine TwoLists.congr (k := k) ⟨hl.blocked, hl.ready, hl.nodup, fun q hq hm => ?_⟩
      hblocked hhead htail hkeep
    have hst := hl.stateBlocked q hq
    rw [hl.stateReady q hm] at hst
    cases hst
  refine ⟨k₁, hk₁, .stopped hk₁, hlists, fun q hq => ?_⟩
  have hqp : q ≠ p := by
    rintro rfl
    exact hpB hq
  rw [(Relinked.append hk₁).state, Kernel.upd_proctab_ne _ _ _ hqp]
  exact hl.stateBlocked q hq

/-- `SYS_STOP` releases the processes that wait for the process that stops, and only them, if
and only if there is one at most that can be released. -/
theorem stop_releases_iff (hg : Good k) (hl : Listed k p B R D) (hf : maxProc < a.fuel) :
    ∃ k', sysStop k p a = .ok k' ∧
      (PeersReleased k k' (k.proctab p).pid B ↔ OnePeer k a (k.proctab p).pid B) := by
  obtain ⟨k₁, hk₁, hsame, hlists, hblocked⟩ := hl.append hf
  have hused : ∀ q ∈ B, k₁.Used q := by
    intro q hq
    refine Kernel.Used.congr (hg.used ?_) (hsame.pid q)
    rw [hl.stateBlocked q hq]
    decide
  obtain ⟨k', hk', hiff⟩ : ∃ k', notifyWaiters k₁ a (k₁.proctab p).pid = .ok k' ∧
      (PeersReleased k₁ k' (k₁.proctab p).pid B ↔ OnePeer k₁ a (k₁.proctab p).pid B) :=
    notifyWaiters_releases_iff hlists hused hblocked
      (Nat.lt_of_le_of_lt (length_le_maxProc hl.nodup) hf)
  refine ⟨k', ?_, ?_⟩
  · unfold sysStop
    simp only [hk₁, bind, Except.bind]
    exact hk'
  · rw [hsame.released, hsame.onePeer, hsame.pid] at hiff
    exact hiff

/-- A run in which the root process creates processes 3 and 4 and receives from any process, and
process 3 sends to process 4. -/
def parting₁ : Disp := (turn sampleBoot (sampleCall .create [0x1400, 0])).getD sampleBoot

@[inherit_doc parting₁]
def parting₂ : Disp := (turn parting₁ (sampleCall .create [0x1500, 0])).getD parting₁

@[inherit_doc parting₁]
def parting₃ : Disp :=
  (turn parting₂ (sampleCall .recv [0x60010, 0x60100, 8, 0, 0])).getD parting₂

@[inherit_doc parting₁]
def parting₄ : Disp :=
  (turn parting₃ (sampleCallAt 0x61000 .send [4, 0x61100, 8])).getD parting₃

/-- Process 4 stops. -/
def parted : Kernel := contextswitch parting₄.k parting₄.p (sampleCallAt 0x62000 .stop [])

theorem parting₄_reachable : dispatcher.Reachable parting₄ := by
  have h : (turn sampleBoot (sampleCall .create [0x1400, 0])).isOk = true ∧
      (turn parting₁ (sampleCall .create [0x1500, 0])).isOk = true ∧
      (turn parting₂ (sampleCall .recv [0x60010, 0x60100, 8, 0, 0])).isOk = true ∧
      (turn parting₃ (sampleCallAt 0x61000 .send [4, 0x61100, 8])).isOk = true := by
    decide +kernel
  obtain ⟨h₁, h₂, h₃, h₄⟩ := h
  have hr₁ : dispatcher.Reachable parting₁ :=
    ⟨_, sampleBoot_init, TSys.Path.refl.tail trivial (Run.eq_getD h₁)⟩
  have hr₂ : dispatcher.Reachable parting₂ :=
    TSys.ReachableUnder.tail hr₁ trivial (Run.eq_getD h₂)
  have hr₃ : dispatcher.Reachable parting₃ :=
    TSys.ReachableUnder.tail hr₂ trivial (Run.eq_getD h₃)
  exact TSys.ReachableUnder.tail hr₃ trivial (Run.eq_getD h₄)

/-- Process 3 is released. -/
theorem stop_releases_one : ∃ k', sysStop parted parting₄.p sampleAmbient = .ok k' ∧
    PeersReleased parted k' (parted.proctab parting₄.p).pid [1, 3] := by
  have hs := sound_of_reachable parting₄_reachable
  have hq : parted.blockedQ = some 1 ∧ parted.link 1 = some 3 ∧ parted.link 3 = none ∧
      parted.head = none ∧ parted.tail = none ∧ parted.deadQ = none ∧
      (parted.proctab parting₄.p).state = .running ∧
      ∀ q ∈ [(1 : Slot), 3], (parted.proctab q).state = .blocked := by decide +kernel
  have ho : waitsOn parted 1 sampleAmbient.destpid ≠ (parted.proctab parting₄.p).pid ∧
      (∀ q ∈ [(1 : Slot), 3], PeerOf parted (parted.proctab parting₄.p).pid q →
        q = 3 ∧ (parted.proctab q).pid ≠ parted.idleprocPid) := by decide +kernel
  obtain ⟨hb, h1, h3, hh, ht, hd, hrun, hst⟩ := hq
  obtain ⟨hhead, hpeer⟩ := ho
  have hl : Listed parted parting₄.p [1, 3] [] [] :=
    ⟨⟨hb, h1, h3⟩, ⟨hh, ht, List.nodup_nil⟩, hd, by decide, List.nodup_nil, hrun, hst, by simp,
      by simp⟩
  obtain ⟨k', hk', hiff⟩ := stop_releases_iff (a := sampleAmbient)
    (contextswitch_good hs.good hs.used _) hl (by decide)
  refine ⟨k', hk', hiff.mpr ⟨?_, fun q hq r hr hpq hpr => ?_, fun q hq hp => (hpeer q hq hp).2⟩⟩
  · rintro q ⟨⟩
    exact hhead
  · rw [(hpeer q hq hpq).1, (hpeer r hr hpr).1]

/-- A run in which the root process sends to process 3, which has just been created. -/
def orphan : Disp := (turn parting₁ (sampleCall .send [3, 0x60100, 8])).getD parting₁

/-- Process 3 stops. -/
def orphaned : Kernel := contextswitch orphan.k orphan.p (sampleCallAt 0x61000 .stop [])

/-- The only process in `blocked_q` waits for the process that stops, and stays there. -/
theorem stop_keeps_head :
    ¬ ∀ (s : Disp) (t : Trap) (B R D : List Slot) (k' : Kernel), dispatcher.Reachable s →
      t.cause.request = .stop → Listed (contextswitch s.k s.p t) s.p B R D →
      sysStop (contextswitch s.k s.p t) s.p t.ambient = .ok k' →
      PeersReleased (contextswitch s.k s.p t) k' ((contextswitch s.k s.p t).proctab s.p).pid B := by
  intro h
  have hok : (turn sampleBoot (sampleCall .create [0x1400, 0])).isOk = true ∧
      (turn parting₁ (sampleCall .send [3, 0x60100, 8])).isOk = true ∧
      (sysStop orphaned orphan.p sampleAmbient).isOk = true := by decide +kernel
  have hq : orphaned.blockedQ = some 1 ∧ orphaned.link 1 = none ∧
      orphaned.head = none ∧ orphaned.tail = none ∧ orphaned.deadQ = none ∧
      (orphaned.proctab orphan.p).state = .running ∧
      (∀ q ∈ [(1 : Slot)], (orphaned.proctab q).state = .blocked) ∧
      PeerOf orphaned (orphaned.proctab orphan.p).pid 1 ∧
      ((sysStop orphaned orphan.p sampleAmbient).getD orphaned).blockedQ = some 1 := by
    decide +kernel
  obtain ⟨h₁, h₂, h₃⟩ := hok
  obtain ⟨hb, h1, hh, ht, hd, hrun, hst, hpeer, hstay⟩ := hq
  have hr₁ : dispatcher.Reachable parting₁ :=
    ⟨_, sampleBoot_init, TSys.Path.refl.tail trivial (Run.eq_getD h₁)⟩
  have hr : dispatcher.Reachable orphan := TSys.ReachableUnder.tail hr₁ trivial (Run.eq_getD h₂)
  have hl : Listed orphaned orphan.p [1] [] [] :=
    ⟨⟨hb, h1⟩, ⟨hh, ht, List.nodup_nil⟩, hd, by decide, List.nodup_nil, hrun, hst, by simp,
      by simp⟩
  have hleft := (h orphan (sampleCallAt 0x61000 .stop []) [1] [] [] _ hr rfl hl
    (Run.eq_getD (s := orphaned) h₃)).left
  have hnil : ([(1 : Slot)].filter fun q =>
      ¬ PeerOf orphaned (orphaned.proctab orphan.p).pid q) = [] := by simp [hpeer]
  have hleft : Chain ((sysStop orphaned orphan.p sampleAmbient).getD orphaned).link
      ((sysStop orphaned orphan.p sampleAmbient).getD orphaned).blockedQ
      ([(1 : Slot)].filter fun q => ¬ PeerOf orphaned (orphaned.proctab orphan.p).pid q) := hleft
  rw [hnil, hstay] at hleft
  cases hleft

end Xeros
