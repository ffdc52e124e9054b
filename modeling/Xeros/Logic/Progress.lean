import Xeros.Logic.Fifo
import Xeros.Logic.Heap
import Xeros.Logic.Keys
import Xeros.Logic.Rest
import Xeros.Logic.Asserts
import Xeros.Logic.Settle
import Xeros.Logic.Sleepers

/-!
# The kernel comes back

While every process is in the list of its state, the walks of the kernel end and its
assertions hold. No list is longer than the process table, so that a bound on the steps of a
loop is known beforehand.
-/

namespace Xeros

open Lib

variable {k k' : Kernel} {o : Option Slot} {p p' q r z : Slot} {L : Queue → List Slot}
  {a : Ambient} {fuel : ℕ} {req : Request}

/-! ## The lists -/

theorem Queues.length_lt (h : Queues k o L) (hf : maxProc < fuel) (c : Queue) :
    (L c).length < fuel :=
  Nat.lt_of_le_of_lt (length_le_maxProc (h.nodup c)) hf

/-- `blocked_q` is a list of the blocked processes. -/
theorem Queues.blockedListed (h : Queues k none L) : BlockedListed k := by
  refine ⟨L .blocked, h.chain .blocked, h.nodup .blocked, fun q => ⟨fun hq => ?_, fun hs => ?_⟩⟩
  · have hc := h.placed .blocked q hq
    revert hc
    cases (k.proctab q).state <;> simp [PState.queue]
  · refine h.found q .blocked (by simp) (by rw [hs]; rfl) (by decide) fun hr => ?_
    cases hr

/-- Processes with their ticks. -/
def Kernel.ticking (k : Kernel) (l : List Slot) : Deltas Slot :=
  l.map fun q => (q, (k.proctab q).sleepticks.toNat)

theorem procs_ticking (k : Kernel) (l : List Slot) : procs (k.ticking l) = l := by
  unfold procs Kernel.ticking
  rw [List.map_map]
  exact List.map_id l

theorem length_ticking (k : Kernel) (l : List Slot) : (k.ticking l).length = l.length :=
  List.length_map _

/-- The list of the sleepers. -/
theorem Queues.sleepList (h : Queues k o L) : SleepList k (k.ticking (L .sleep)) := by
  refine ⟨?_, ?_, fun e he => ?_⟩
  · rw [procs_ticking]
    exact h.chain .sleep
  · rw [procs_ticking]
    exact h.nodup .sleep
  · obtain ⟨q, -, rfl⟩ := List.mem_map.mp he
    rfl

/-- The tail of the ready queue is in no other list. -/
theorem Queues.tail_notMem (h : Queues k o L) {c : Queue} (hc : c ≠ .ready) :
    ∀ t, k.tail = some t → t ∉ L c := by
  intro t ht hm
  rw [h.tail] at ht
  exact hc (h.eq_of_mem (List.mem_of_getLast? ht) hm).symm

/-! ## The next process -/

/-- `next` finds a process that is ready. -/
theorem Queues.reschedule_ok (h : Queues k none L) (hg : Good k) :
    ∃ k' p', Xeros.reschedule k = .ok (k', p') := by
  obtain ⟨⟨k₁, p'⟩, h₁⟩ : ∃ r, Xeros.next k = .ok r := by
    unfold Xeros.next
    split
    · exact ⟨_, rfl⟩
    · rename_i q hq
      have hu := hg.head q hq
      obtain ⟨l, hl, -⟩ := h.first_eq (c := .ready) hq
      have hs : (k.proctab q).state = .ready := by
        have hc := h.placed .ready q (hl ▸ List.mem_cons_self)
        revert hc
        cases (k.proctab q).state <;> simp [PState.queue]
      simp only [kassert, hu.2.1, hs, if_pos, bind, Except.bind, pure, Except.pure]
      exact ⟨_, rfl⟩
  refine ⟨Xeros.run k₁ p', p', ?_⟩
  unfold Xeros.reschedule
  rw [h₁]
  rfl

/-- A request that gives up the processor comes back when its first part does. -/
theorem Queues.giveUp_ok {x : Run Kernel} {k₁ : Kernel} {L₁ : Queue → List Slot} (hx : x = .ok k₁)
    (h : Queues k₁ none L₁) (hg : Good k₁) : ∃ k' p', x >>= Xeros.reschedule = .ok (k', p') := by
  rw [hx]
  exact h.reschedule_ok hg

theorem Queues.tick_ok (h : Queues k o L) (hg : Good k) (hf : maxProc < fuel) :
    ∃ k', Xeros.tick k fuel = .ok k' := by
  refine h.sleepList.tick_ok (fun q hq => ?_) (fun t ht hm => ?_) ?_
  · rw [procs_ticking] at hq
    exact hg.used_of_chain (h.chain .sleep) hg.headsleeper q hq
  · rw [procs_ticking] at hm
    exact h.tail_notMem (by decide) t ht hm
  · rw [length_ticking]
    exact h.length_lt hf .sleep

/-! ## Waiting -/

/-- A process that is in no list can be put into `blocked_q`. -/
theorem Queues.waiting_ok (h : Queues k o L) (hp : ∀ c, p ∉ L c) (hf : maxProc < fuel)
    (code : Word) : ∃ k', Xeros.block k fuel p code = .ok k' := by
  have hlink : (k.upd p fun c => (c.setState .blocked).setRet code).link = k.link := by
    funext q
    by_cases hq : q = p
    · subst hq
      simp [Kernel.link]
    · simp [Kernel.link, hq]
  refine append_ok (l := L .blocked) ?_ (hp .blocked) (h.length_lt hf .blocked)
  rw [hlink]
  exact h.chain .blocked

/-- A process that runs can be put into `blocked_q`. -/
theorem Queues.block_ok (h : Queues k o L) (hp : (k.proctab p).state = .running)
    (hf : maxProc < fuel) (code : Word) : ∃ k', Xeros.block k fuel p code = .ok k' :=
  h.waiting_ok (fun _ => h.notMem_of_running hp) hf code

theorem Queues.sleep_ok (h : Queues k none L) (hp : (k.proctab p).state = .running) (hp0 : p ≠ 0)
    (hf : maxProc < fuel) (ms : Word) : ∃ k', Xeros.sleep k fuel ms p = .ok k' := by
  refine h.sleepList.sleep_ok ?_ hp0 ?_
  · rw [procs_ticking]
    exact h.notMem_of_running hp
  · rw [length_ticking]
    exact h.length_lt hf .sleep

/-! ## Messages -/

/-- `SYS_SEND` comes back, whether it finds its receiver or not. -/
theorem Queues.sysSend_ok (h : Queues k none L) (hg : Good k) (hu : k.Used p)
    (hp : (k.proctab p).state = .running) (hf : maxProc + 1 < a.fuel)
    (hhead : ∀ r, sendPeer k a p = some r → ¬ EmptyMessage k p r → k.blockedQ = some r) :
    ∃ k', Xeros.sysSend k p a = .ok k' := by
  have hst : (k.proctab p).state ≠ .blocked := by
    rw [hp]
    decide
  obtain ⟨n, k₀, h₀⟩ : ∃ n k₀, send k a (k.arg p 0) (k.arg p 1) (k.arg p 2).toInt p = (n, k₀) :=
    ⟨_, _, rfl⟩
  unfold Xeros.sysSend
  simp only [h₀]
  rcases send_cases h₀ with ⟨r, hpeer, rfl, rfl⟩ | ⟨-, hn, hk₀⟩
  · obtain ⟨hdest, hb⟩ := sendPeer_found hpeer
    rw [hdest]
    by_cases hn : 0 < (passMessage k p r).1
    · have hr := hg.blockedQ r (hhead r hpeer (passMessage_pos.mp hn))
      obtain ⟨k₁, k₂, i, k', h₁, -, h₂, h₃, -⟩ := h.blockedListed.answer hu hr hst hb hf
        (passMessage k p r).2 (passMessage k p r).1
      rw [if_pos (Int.natCast_pos.mpr hn), h₁]
      simp only [h₂, bind, Except.bind]
      exact ⟨k', h₃⟩
    · obtain ⟨k', hk', -⟩ := h.blockedListed.wait hst hb (Nat.lt_of_succ_lt hf)
        (passMessage k p r).2 Request.send.code
      rw [if_neg (by omega), if_neg (by omega)]
      exact ⟨k', hk'⟩
  · have hun : Unmoved k k₀ := by
      rcases hk₀ with rfl | ⟨v, rfl⟩
      · exact .refl _
      · exact .setRet _ _ _
    rw [if_neg (by omega)]
    split
    · exact ⟨_, ready_of_used ((hun.trans (.setRet k₀ p (toWord n))).used hu)⟩
    · exact (h.unmoved hun).block_ok (by rw [hun.state]; exact hp) (Nat.lt_of_succ_lt hf) _

/-- The search for a sender ends. -/
theorem recvScan_ok {x : Option Slot} {l : List Slot} (hc : Chain k.link x l)
    (hf : l.length < fuel) : ∃ m, recvScan k p fuel x = .ok m := by
  induction fuel generalizing x l with
  | zero => exact absurd hf (Nat.not_lt_zero _)
  | succ fuel ih =>
      cases x with
      | none => exact ⟨_, rfl⟩
      | some b =>
          obtain ⟨l', rfl, hc'⟩ := Chain.some_iff.mp hc
          have hrest := ih hc' (Nat.lt_of_succ_lt_succ hf)
          simp only [recvScan]
          split
          · exact hrest
          · split
            · exact ⟨_, rfl⟩
            · exact hrest

theorem Queues.recv_ok (h : Queues k none L) (hf : maxProc < a.fuel) :
    ∃ n k₀, recv k a (k.arg p 0) (k.arg p 1) (k.arg p 2).toInt p = .ok (n, k₀) := by
  have hmatch : ∃ m, recvMatch k a.fuel p (k.mem.word (k.arg p 0)) = .ok m := by
    unfold recvMatch
    split
    · exact recvScan_ok (h.chain .blocked) (h.length_lt hf .blocked)
    · dsimp only
      split
      · exact ⟨_, rfl⟩
      · split <;> exact ⟨_, rfl⟩
  obtain ⟨m, hm⟩ := hmatch
  unfold recv
  dsimp only
  split
  · exact ⟨_, _, rfl⟩
  · rename_i hneg
    rw [show (validateRecv k a p (k.mem.word (k.arg p 0)) (k.arg p 1) (k.arg p 2).toInt).2 = k
      from validatePeer_ok hneg, hm]
    cases m <;> exact ⟨_, _, rfl⟩

/-- `SYS_RECV` comes back. -/
theorem Queues.sysRecv_ok (h : Queues k none L) (hg : Good k) (hu : k.Used p)
    (hp : (k.proctab p).state = .running) (hf : maxProc + 1 < a.fuel)
    (hhead : ∀ q, recvPeer k a p = .ok (some q) → ¬ EmptyMessage k q p →
      (k.proctab (released k p q)).pid = 0 ∨ k.blockedQ = some (released k p q)) :
    ∃ k', Xeros.sysRecv k p a = .ok k' := by
  have hst : (k.proctab p).state ≠ .blocked := by
    rw [hp]
    decide
  obtain ⟨n, k₀, h₀⟩ := h.recv_ok (p := p) (Nat.lt_of_succ_lt hf)
  unfold Xeros.sysRecv
  simp only [h₀, bind, Except.bind]
  rcases recv_cases h₀ with ⟨q, hpeer, rfl, rfl⟩ | ⟨-, hn, hk₀⟩
  · have hz : slotOf ((k.setMem (passMessage k q p).2).mem.word (k.arg p 0)) = released k p q := rfl
    rw [hz]
    by_cases hn : 0 < (passMessage k q p).1
    · rw [if_pos (Int.natCast_pos.mpr hn)]
      have hun : Unmoved k (answered (k.setMem (passMessage k q p).2) p (released k p q)
          (passMessage k q p).1) := (Unmoved.setMem k _).trans (.answered _ p _ _)
      rcases hhead q hpeer (passMessage_pos.mp hn) with h0 | hb
      · -- the slot that the cell names has never been used
        rw [ready_of_used (hun.used hu)]
        dsimp only
        rw [if_neg (Classical.not_not.mpr ?_)]
        · exact ⟨_, rfl⟩
        · rw [readied_pid, hun.pid]
          exact h0
      · have hblocked : (k.proctab (released k p q)).state = .blocked := by
          obtain ⟨l, hl, -⟩ := h.first_eq (c := .blocked) hb
          have hc := h.placed .blocked _ (hl ▸ List.mem_cons_self)
          revert hc
          cases (k.proctab (released k p q)).state <;> simp [PState.queue]
        obtain ⟨k₁, k₂, i, k', h₁, hpid, h₂, h₃, -⟩ := h.blockedListed.answer hu
          (hg.blockedQ _ hb) hst hblocked hf (passMessage k q p).2 (passMessage k q p).1
        rw [h₁]
        dsimp only
        rw [if_pos hpid]
        simp only [h₂]
        exact ⟨k', h₃⟩
    · rw [if_neg (by omega), if_neg (by omega)]
      exact (h.unmoved (.setMem k (passMessage k q p).2)).block_ok hp (Nat.lt_of_succ_lt hf) _
  · have hun : Unmoved k k₀ := by
      rcases hk₀ with rfl | ⟨v, rfl⟩
      · exact .refl _
      · exact .setRet _ _ _
    rw [if_neg (by omega)]
    split
    · exact ⟨_, ready_of_used ((hun.trans (.setRet k₀ p (toWord n))).used hu)⟩
    · exact (h.unmoved hun).block_ok (by rw [hun.state]; exact hp) (Nat.lt_of_succ_lt hf) _

/-! ## Processes that stop and processes that are made -/

/-- The walk of `notify_waiters` ends: it ends behind the first process that it wakes. -/
theorem notifyWaitersLoop_ok {pid destpid : Word} {prev : Slot} {x : Option Slot} {l : List Slot}
    (hu : ∀ q ∈ l, k.Used q) (ht : ∀ t, k.tail = some t → t ∉ l) (hc : Chain k.link x l)
    (hf : l.length < fuel) : ∃ k', notifyWaitersLoop pid fuel k prev x destpid = .ok k' := by
  induction l generalizing fuel prev x destpid with
  | nil =>
      obtain ⟨fuel, rfl⟩ := Nat.exists_eq_succ_of_ne_zero (Nat.ne_zero_of_lt hf)
      obtain rfl : x = none := hc
      exact ⟨k, rfl⟩
  | cons q l ih =>
      obtain ⟨fuel, rfl⟩ := Nat.exists_eq_succ_of_ne_zero (Nat.ne_zero_of_lt hf)
      obtain ⟨rfl, hc'⟩ := hc
      have hf' := Nat.lt_of_succ_lt_succ hf
      simp only [notifyWaitersLoop]
      split
      · -- `ready` cuts the link of `q`, so the walk is over
        generalize hk₁ : (k.upd prev fun c => c.setNext (k.proctab q).next).setRet q
          (toWord badPid) = k₁
        have hq₁ : k₁.Used q := by
          rw [← hk₁]
          exact Kernel.Used.upd rfl (Kernel.Used.upd rfl (hu q List.mem_cons_self))
        have htail : k₁.tail ≠ some q := by
          rw [← hk₁]
          exact fun h => ht q h List.mem_cons_self
        have hnone : ((readied k₁ q).proctab q).next = none := by
          unfold readied
          dsimp only
          split
          · simp
          · unfold enqueue
            split
            · rename_i t h
              have hqt : q ≠ t := by
                rintro rfl
                exact htail h
              simp [hqt]
            · simp
        rw [ready_of_used hq₁]
        obtain ⟨fuel, rfl⟩ := Nat.exists_eq_succ_of_ne_zero (Nat.ne_zero_of_lt hf')
        simp only [bind, Except.bind, hnone, notifyWaitersLoop]
        exact ⟨_, rfl⟩
      · exact ih (fun r hr => hu r (List.mem_cons_of_mem _ hr))
          (fun t h hm => ht t h (List.mem_cons_of_mem _ hm)) hc' hf'

/-- `SYS_STOP` comes back. -/
theorem Queues.sysStop_ok (h : Queues k none L) (hg : Good k) (hu : k.Used p)
    (hp : (k.proctab p).state = .running) (hi : p ≠ slotOf k.idleprocPid)
    (hf : maxProc < a.fuel) : ∃ k', Xeros.sysStop k p a = .ok k' := by
  have hout : ∀ c, p ∉ L c := fun c => h.notMem_of_running hp
  have hq₀ := (h.leave hout).updOut (f := fun c => (c.setState .stopped).setNext none)
    fun he => absurd he hi
  have hg₀ : Good (k.upd p fun c => (c.setState .stopped).setNext none) := hg.upd hu rfl (by simp)
  obtain ⟨k₁, h₁⟩ : ∃ k₁, Xeros.append (k.upd p fun c => (c.setState .stopped).setNext none) a.fuel
      .deadQ p = .ok k₁ :=
    append_ok (hq₀.chain .dead) (hout .dead) (h.length_lt hf .dead)
  have hg₁ := (append_quiet (X := nobody) hg₀ (hu.upd rfl) h₁).good
  have hq₁ := hq₀.append rfl (by decide) (by simp [PState.queue]) h₁
  unfold Xeros.sysStop
  simp only [h₁, bind, Except.bind]
  unfold Xeros.notifyWaiters
  split
  · exact ⟨_, rfl⟩
  · rename_i q hq
    refine notifyWaitersLoop_ok (hg₁.used_of_chain (hq₁.chain .blocked) hg₁.blockedQ)
      (hq₁.tail_notMem (by decide)) (hq ▸ hq₁.chain .blocked) (hq₁.length_lt hf .blocked)

/-- The list of free blocks ends within the steps of a loop. -/
def HeapEnds (h : Heap) (fuel : ℕ) : Prop := ∃ l, FreeList h l ∧ l.length < fuel

/-- `SYS_CREATE` comes back. -/
theorem Queues.sysCreate_ok (h : Queues k none L) (hf : maxProc < a.fuel)
    (hheap : HeapEnds k.heap a.fuel) : ∃ k', Xeros.sysCreate k p a = .ok k' := by
  have hremove : ∀ pid, ∃ k₁ n, remove k a.fuel (some .deadQ) pid = .ok (k₁, n) := fun pid =>
    removeLoop_ok (Q := .deadQ) (h.chain .dead) (h.length_lt hf .dead)
  suffices hc : ∃ pid k', Xeros.create k a.fuel (k.arg p 0) (k.arg p 1) = .ok (pid, k') by
    obtain ⟨pid, k', hk'⟩ := hc
    unfold Xeros.sysCreate
    rw [hk']
    exact ⟨_, rfl⟩
  unfold Xeros.create
  dsimp only
  split
  · obtain ⟨k₁, n, h₁⟩ := hremove (BitVec.ofNat 32 maxProc)
    rw [h₁]
    exact ⟨_, _, rfl⟩
  · rename_i i hi
    obtain ⟨k₁, n, h₁⟩ := hremove (BitVec.ofNat 32 i.val)
    obtain ⟨l, hl, hlen⟩ := hheap
    have hk₁ : (k₁.upd i fun c => c.renew i).heap = k.heap := (Rest.remove h₁).heap
    obtain ⟨b, heap, hb⟩ := kmalloc_ok hl hlen
      ((if (k.arg p 1).slt procStack then procStack else k.arg p 1) * 2)
    simp only [h₁, bind, Except.bind, hk₁, hb]
    split
    · exact ⟨_, _, rfl⟩
    · unfold launch
      rw [ready_of_used ⟨(freeSlot_spec hi).1, by simpa using nextPid_used (k₁.proctab i).pid i⟩]
      exact ⟨_, _, rfl⟩

/-- `SYS_SIGKILL` comes back. -/
theorem sysSigkill_ok (hw : accepts k (k.arg p 0).toInt (k.arg p 1).toInt →
    ¬ (k.proctab (slotOf (k.arg p 0))).waiting) : ∃ k', Xeros.sysSigkill k p a = .ok k' := by
  unfold Xeros.sysSigkill
  rw [signal_eq, toWord_toInt]
  split
  · rename_i hacc
    have hpost : ∃ k', post k (slotOf (k.arg p 0)) (k.arg p 1).toInt = .ok k' := by
      have hnot := hw hacc
      unfold post
      dsimp only
      split
      · rename_i hs
        exact absurd (.inl (by simpa using hs)) hnot
      · rename_i hs
        exact absurd (.inr (by simpa using hs)) hnot
      · exact ⟨_, rfl⟩
    obtain ⟨k', hk'⟩ := hpost
    rw [hk']
    exact ⟨_, rfl⟩
  · exact ⟨_, rfl⟩

/-! ## The keyboard -/

/-- `notify` is called for a blocked reader only, and comes back. -/
theorem Queues.notifyReader_ok (h : Queues k none L) (hg : Good k) (hf : maxProc < fuel) :
    ∃ k' b, Xeros.notifyReader k fuel = .ok (k', b) := by
  cases hr : k.kbd.reader with
  | none =>
      unfold Xeros.notifyReader
      rw [hr]
      exact ⟨_, _, rfl⟩
  | some r =>
      by_cases hb : (k.proctab r).state = .blocked
      · obtain ⟨k', hk'⟩ := notifyReader_back hg hr hb
          (removeLoop_ok (Q := .blockedQ) (h.chain .blocked) (h.length_lt hf .blocked))
        exact ⟨k', true, hk'⟩
      · unfold Xeros.notifyReader
        simp only [hr, hb, if_false]
        exact ⟨_, _, rfl⟩

theorem Queues.bufferKey_ok {c ascii : Byte} (h : Queues k none L) (hg : Good k)
    (hf : maxProc < fuel) : ∃ k', Xeros.bufferKey k fuel c ascii = .ok k' := by
  have hk := KbdOnly.storeAndFlush k c
  unfold Xeros.bufferKey
  split
  · exact ⟨_, rfl⟩
  · split
    · exact ⟨_, rfl⟩
    · rename_i k₁ hk₁
      rw [hk₁] at hk
      obtain ⟨k', b, hk'⟩ := (h.unmoved hk.unmoved).notifyReader_ok
        (hk.quiet (X := nobody) hg).good hf
      rw [hk']
      exact ⟨_, rfl⟩

/-- A key is processed. -/
theorem Queues.sysKeyboard_ok (h : Queues k none L) (hg : Good k) (hf : maxProc < a.fuel) :
    ∃ k', Xeros.sysKeyboard k a = .ok k' := by
  have hn := KbdOnly.noteKey k a
  have hqn := h.unmoved hn.unmoved
  have hgn := (hn.quiet (X := nobody) hg).good
  have hhandle : ∃ k', Xeros.handleKey (k.noteKey a) a.fuel a.datasrc
      ((kbtoa k.kbd.keyState a.datasrc).1.setWidth 8) = .ok k' := by
    unfold Xeros.handleKey
    split
    · exact ⟨_, rfl⟩
    · split
      · exact ⟨_, rfl⟩
      · split
        · have hc := KbdOnly.completeRead (k.noteKey a) a.datasrc
          obtain ⟨k₁, b, h₁⟩ := (hqn.unmoved hc.unmoved).notifyReader_ok
            (hc.quiet (X := nobody) hgn).good hf
          rw [h₁]
          rcases notifyReader_cases (hc.quiet (X := nobody) hgn).good h₁ with
            ⟨rfl, rfl, -⟩ | ⟨rfl, -⟩
          · exact (hqn.unmoved hc.unmoved).bufferKey_ok (hc.quiet (X := nobody) hgn).good hf
          · exact ⟨_, rfl⟩
        · exact hqn.bufferKey_ok hgn hf
  unfold Xeros.sysKeyboard
  split
  · exact hhandle
  · exact ⟨_, rfl⟩

/-! ## Requests -/

/-- A request that moves nobody out of the middle of a list is served: its loops end, its
assertions hold and it finds a process to run next. A write must fit the buffer on the stack
of the kernel, and a process that goes to sleep must not be linked to another. -/
theorem Queues.serve_ok (h : Queues k none L) (hg : Good k) (hu : k.Used p)
    (hp : (k.proctab p).state = .running) (hc : MovesSafely k p a req)
    (hf : maxProc + 1 < a.fuel) (hlink : req = .sleep → (k.proctab p).next = none)
    (hheap : req = .create → HeapEnds k.heap a.fuel)
    (hwrite : req = .write → 0 ≤ (k.arg p 2).toInt ∧ (k.arg p 2).toInt < 256) :
    ∃ k' p', Xeros.serve k p a req = .ok (k', p') := by
  have hidle : Retires k p a req → p ≠ slotOf k.idleprocPid := fun hr hi => hc.idle hi hr
  have hf₁ : maxProc < a.fuel := Nat.lt_of_succ_lt hf
  have hkeep : ∀ {x : Run Kernel}, (∃ k', x = .ok k') →
      ∃ k' p', (do return (← x, p)) = (.ok (k', p') : Run (Kernel × Slot)) := by
    rintro _ ⟨k', rfl⟩
    exact ⟨k', p, rfl⟩
  cases req with
  | getpid => exact ⟨_, _, rfl⟩
  | puts => exact ⟨_, _, rfl⟩
  | bad => exact ⟨_, _, rfl⟩
  | sighandler => exact ⟨_, _, rfl⟩
  | sigreturn => exact ⟨_, _, rfl⟩
  | openDev => exact ⟨_, _, rfl⟩
  | close => exact ⟨_, _, rfl⟩
  | ioctl => exact ⟨_, _, rfl⟩
  | create => exact hkeep (h.sysCreate_ok hf₁ (hheap rfl))
  | sigkill => exact hkeep (sysSigkill_ok (hc.sigkill rfl))
  | keyboard => exact hkeep (h.sysKeyboard_ok hg hf₁)
  | write =>
      refine hkeep ?_
      unfold Xeros.sysWrite printbuffer
      dsimp only
      rw [if_pos (hwrite rfl)]
      exact ⟨_, rfl⟩
  | yield =>
      have h₁ := ready_of_used hu
      obtain ⟨L₁, hq₁, -⟩ := h.readyRunning hu hp h₁
      exact Queues.giveUp_ok h₁ hq₁ (ready_quiet (X := nobody) hg hu h₁).good
  | timer =>
      have h₁ := ready_of_used hu
      obtain ⟨L₁, hq₁, -⟩ := h.readyRunning hu hp h₁
      have hg₁ := (ready_quiet (X := nobody) hg hu h₁).good
      obtain ⟨k₂, p₂, h₂⟩ := hq₁.reschedule_ok hg₁
      obtain ⟨L₂, hq₂, -⟩ := hq₁.giveUp hg₁ h₂
      obtain ⟨k₃, h₃⟩ := hq₂.tick_ok (reschedule_quiet (X := nobody) hg₁ h₂).1.good hf₁
      show ∃ k' p', Xeros.sysTimer k p a = .ok (k', p')
      unfold Xeros.sysTimer
      simp only [h₁, h₂, h₃, bind, Except.bind]
      exact ⟨_, _, rfl⟩
  | stop =>
      obtain ⟨k₁, h₁⟩ := h.sysStop_ok hg hu hp (hidle trivial) hf₁
      obtain ⟨L₁, hq₁, -⟩ := h.sysStop hg hu hp (hidle trivial) (hc.stop rfl) h₁
      exact Queues.giveUp_ok h₁ hq₁ (sysStop_quiet (X := (· = p)) hg hu rfl h₁).good
  | send =>
      obtain ⟨k₁, h₁⟩ := h.sysSend_ok hg hu hp hf (hc.send rfl)
      obtain ⟨L₁, hq₁, -⟩ := h.sysSend hg hu hp hidle (hc.send rfl) h₁
      exact Queues.giveUp_ok h₁ hq₁ (sysSend_quiet (X := (· = p)) hg hu rfl h₁).good
  | recv =>
      obtain ⟨k₁, h₁⟩ := h.sysRecv_ok hg hu hp hf (hc.recv rfl)
      obtain ⟨L₁, hq₁, -⟩ := h.sysRecv hg hu hp (fun k₀ h₀ => hidle ⟨k₀, h₀⟩) (hc.recv rfl) h₁
      exact Queues.giveUp_ok h₁ hq₁ (sysRecv_quiet (X := (· = p)) hg hu rfl h₁).good
  | sleep =>
      obtain ⟨k₁, h₁⟩ := h.sleep_ok hp hu.1 hf₁ (k.arg p 0)
      have hs : Xeros.sysSleep k p a = .ok k₁ := by
        unfold Xeros.sysSleep
        simp only [kassert, if_pos hp, if_pos (hlink rfl), bind, Except.bind]
        exact h₁
      obtain ⟨L₁, hq₁, -⟩ := h.sleep hp (hidle trivial) h₁
      exact Queues.giveUp_ok hs hq₁ (sysSleep_quiet (X := (· = p)) hg hu rfl hs).good
  | sigwait =>
      show ∃ k' p', (if (k.proctab p).sigAllow = 0 then
        (return (k.setRet p (toWord signalInvalid), p) : Run (Kernel × Slot))
        else Xeros.sysSigwait k p a >>= Xeros.reschedule) = .ok (k', p')
      split
      · exact ⟨_, _, rfl⟩
      · rename_i hallow
        have hout := h.leave fun c => h.notMem_of_running hp
        have hq₀ := hout.updOut (f := fun c => { c with sigwaiter := 1, next := none })
          fun _ => .inr hp
        obtain ⟨k₁, h₁⟩ : ∃ k₁, Xeros.sysSigwait k p a = .ok k₁ := by
          refine hq₀.waiting_ok ?_ hf₁ _
          exact fun c => h.notMem_of_running hp
        obtain ⟨L₁, hq₁, -⟩ := h.sysSigwait hp (hidle hallow) h₁
        exact Queues.giveUp_ok h₁ hq₁ (sysSigwait_quiet (X := (· = p)) hg hu rfl h₁).good
  | read =>
      have hout : ∀ c, p ∉ L c := fun c => h.notMem_of_running hp
      have hun := (FdsOnly.diRead k p (k.arg p 0).toInt (k.arg p 1) (k.arg p 2).toInt).unmoved
      have hx := diRead_quiet (X := nobody) (k.arg p 0).toInt (k.arg p 1) (k.arg p 2).toInt hg hu
      show ∃ k' p', Xeros.sysRead k p a = .ok (k', p')
      unfold Xeros.sysRead
      dsimp only
      split
      · exact ⟨_, _, rfl⟩
      split
      · rename_i hrc
        have hq₀ := ((h.leave hout).unmoved hun).relink (p := p) hout none
        have hy := hx.trans (.updNext hx.good (hx.used hu) (o := none) (by simp))
        obtain ⟨k₁, h₁⟩ := hq₀.waiting_ok hout hf₁ Request.read.code
        obtain ⟨L₁, hq₁, -⟩ := hq₀.blockOut (hun.idle ▸ hidle hrc) h₁
        exact Queues.giveUp_ok h₁ hq₁ (block_quiet (X := (· = p)) hy.good (hy.used hu) rfl h₁).good
      split <;> exact ⟨_, _, rfl⟩

end Xeros
