import Xeros.Logic.Fifo
import Xeros.Logic.Peers
import Xeros.Logic.Safe
import Xeros.Theorems.Rendezvous

/-!
# Rejected messages

A send or a receive that fails is found out before anything is written: the codes come from
the validation and from the look at the peer, and the copying comes after both. The caller is
made ready with the code in `ret`, which for the idle process does not mean that it is put in the
ready queue.
-/

namespace Xeros

open Lib

variable {k k' k₀ : Kernel} {a : Ambient} {p q : Slot} {L : Queue → List Slot} {rc : Int}

/-! ## The codes -/

/-- The codes of a message that is rejected. -/
def Rejects (rc : Int) : Prop :=
  rc = badPid ∨ rc = srcDstSame ∨ rc = badBufferParm ∨ rc = wouldDeadlock

theorem validateBuffer_code {buf : Word} {len : Int} :
    validateBuffer k buf len = badBufferParm ∨ validateBuffer k buf len = 0 := by
  unfold validateBuffer
  split
  · exact .inl rfl
  split
  · exact .inl rfl
  split
  · exact .inl rfl
  split
  · exact .inl rfl
  · exact .inr rfl

theorem validatePeer_code {pid buf : Word} {len : Int}
    (h : (validatePeer k a p pid buf len).1 < 0) :
    Rejects (validatePeer k a p pid buf len).1 := by
  unfold validatePeer at h ⊢
  split
  · exact .inl rfl
  split
  · exact .inr (.inl rfl)
  · rename_i hv hs
    rw [if_neg hv, if_neg hs] at h
    have hcode : validateBuffer k buf len = badBufferParm ∨ validateBuffer k buf len = 0 :=
      validateBuffer_code
    rcases hcode with hb | hb
    · exact .inr (.inr (.inl hb))
    · -- a buffer that is accepted gives no code
      exact absurd (hb ▸ h) (Int.lt_irrefl 0)

/-- A send that fails has one of the codes, and has written at most the `ret` of the caller. -/
theorem send_rejects
    (h : send k a (k.arg p 0) (k.arg p 1) (k.arg p 2).toInt p = (rc, k₀)) (hrc : rc < 0) :
    Rejects rc ∧ (k₀ = k ∨ ∃ v, k₀ = k.setRet p v) := by
  rcases send_cases h with ⟨r, -, hn, -⟩ | ⟨-, -, hk⟩
  · -- the length of a message that is passed is no code
    omega
  refine ⟨?_, hk⟩
  unfold send at h
  dsimp only at h
  split at h
  · rename_i hneg
    obtain rfl := congrArg Prod.fst h
    exact validatePeer_code hneg
  · rename_i hneg
    rw [show (validateSend k a p (k.arg p 0) (k.arg p 1) (k.arg p 2).toInt).2 = k from
      validatePeer_ok hneg] at h
    split at h
    · rename_i rc' hm
      obtain rfl := congrArg Prod.fst h
      exact .inr (.inr (.inr (sendMatch_refuse hm)))
    · obtain rfl : (0 : Int) = rc := congrArg Prod.fst h
      exact absurd hrc (Int.lt_irrefl 0)
    · obtain rfl := congrArg Prod.fst h
      exact absurd hrc (Int.not_lt.mpr (Int.natCast_nonneg _))

/-- A receive that fails likewise. -/
theorem recv_rejects
    (h : recv k a (k.arg p 0) (k.arg p 1) (k.arg p 2).toInt p = .ok (rc, k₀)) (hrc : rc < 0) :
    Rejects rc ∧ (k₀ = k ∨ ∃ v, k₀ = k.setRet p v) := by
  rcases recv_cases h with ⟨q, -, hn, -⟩ | ⟨-, -, hk⟩
  · omega
  refine ⟨?_, hk⟩
  unfold recv at h
  dsimp only at h
  split at h
  · rename_i hneg
    simp only [pure, Except.pure, Except.ok.injEq, Prod.mk.injEq] at h
    obtain ⟨rfl, -⟩ := h
    exact validatePeer_code hneg
  · simp only [Run.bind_eq_ok] at h
    obtain ⟨m, hm, h⟩ := h
    cases m with
    | refuse rc' =>
        simp only [pure, Except.pure, Except.ok.injEq, Prod.mk.injEq] at h
        obtain ⟨rfl, -⟩ := h
        exact .inr (.inr (.inr (recvMatch_refuse hm)))
    | wait =>
        simp only [pure, Except.pure, Except.ok.injEq, Prod.mk.injEq] at h
        obtain ⟨rfl, -⟩ := h
        exact absurd hrc (Int.lt_irrefl 0)
    | found q =>
        simp only [pure, Except.pure, Except.ok.injEq, Prod.mk.injEq] at h
        obtain ⟨rfl, -⟩ := h
        exact absurd hrc (Int.not_lt.mpr (Int.natCast_nonneg _))

/-! ## What is left of the call -/

/-- The lists that are threaded through the pcbs: each is well formed, and no process is in two
of them. -/
structure Lists (k : Kernel) (L : Queue → List Slot) : Prop where
  chain : ∀ c, Chain k.link (k.first c) (L c)
  nodup : ∀ c, (L c).Nodup
  tail : k.tail = (L .ready).getLast?
  apart : ∀ c d, ∀ q ∈ L c, q ∈ L d → c = d

/-- The pcb of a caller that is told a code. -/
def Pcb.told (c : Pcb) (rc : Int) : Pcb :=
  ((c.setRet (toWord rc)).setNext none).setState .ready

/-- The call of `p` fails with `rc` and leaves `k'`: the caller has the code in `ret` and is ready,
of the others only the last in the ready queue is linked to it, and no other variable changes.
The caller is at the end of the ready queue, unless it is the idle process. -/
structure Rejected (k k' : Kernel) (p : Slot) (rc : Int) (L : Queue → List Slot) : Prop where
  code : Rejects rc
  lists : Lists k' (Function.update L .ready (k.queued p (L .ready)))
  caller : k'.proctab p = (k.proctab p).told rc
  other : ∀ q, q ≠ p → k'.proctab q = (k.proctab q).setNext
    (if ¬ k.Idle p ∧ (L .ready).getLast? = some q then some p else k.link q)
  rest : k' = { k with proctab := k'.proctab, head := k'.head, tail := k'.tail }

/-- Between the calls of the kernel the processes are in such lists. -/
theorem Queues.lists {o : Option Slot} (h : Queues k o L) : Lists k L :=
  ⟨h.chain, h.nodup, h.tail, fun _ _ _ hc hd => h.eq_of_mem hc hd⟩

theorem Lists.ready (h : Lists k L) : ReadyList k (L .ready) :=
  ⟨h.chain .ready, h.tail, h.nodup .ready⟩

/-- Of the other variables, `ready` changes the ends of the ready queue. -/
theorem readied_rest (k : Kernel) (p : Slot) : readied k p =
    { k with proctab := (readied k p).proctab, head := (readied k p).head,
             tail := (readied k p).tail } := by
  unfold readied enqueue
  dsimp only
  split
  · rfl
  · split
    · rfl
    · rfl

theorem readied_first (k : Kernel) (p : Slot) {c : Queue} (hc : c ≠ .ready) :
    (readied k p).first c = k.first c := by
  rw [readied_rest k p]
  cases c with
  | ready => exact absurd rfl hc
  | blocked => rfl
  | dead => rfl
  | sleep => rfl

/-- A caller that is in none of the lists is put at the end of the ready queue. -/
theorem Lists.readied (h : Lists k L) (hp : ∀ c, p ∉ L c) :
    Lists (readied k p) (Function.update L .ready (k.queued p (L .ready))) := by
  have hready := h.ready.readied (hp .ready)
  have hmem : ∀ c, ∀ q ∈ Function.update L .ready (k.queued p (L .ready)) c,
      q ∈ L c ∨ (c = .ready ∧ q = p) := by
    intro c q hq
    by_cases hc : c = .ready
    · subst hc
      rw [Function.update_self] at hq
      unfold Kernel.queued at hq
      split at hq
      · exact .inl hq
      · rcases List.mem_append.mp hq with hq | hq
        · exact .inl hq
        · exact .inr ⟨rfl, List.mem_singleton.mp hq⟩
    · rw [Function.update_of_ne hc] at hq
      exact .inl hq
  refine ⟨fun c => ?_, fun c => ?_, ?_, fun c d q hc hd => ?_⟩
  · by_cases hc : c = .ready
    · subst hc
      rw [Function.update_self]
      exact hready.chain
    · rw [Function.update_of_ne hc, readied_first k p hc]
      refine (h.chain c).congr fun x hx => readied_link ?_ fun ht => ?_
      · rintro rfl
        exact hp c hx
      · -- the last of the ready queue is in no other list
        rw [h.tail] at ht
        exact hc (h.apart c .ready x hx (List.mem_of_getLast? ht))
  · by_cases hc : c = .ready
    · subst hc
      rw [Function.update_self]
      exact hready.nodup
    · rw [Function.update_of_ne hc]
      exact h.nodup c
  · rw [Function.update_self]
    exact hready.tail
  · rcases hmem c q hc with hqc | ⟨hc, hqp⟩
    · rcases hmem d q hd with hqd | ⟨-, hqp⟩
      · exact h.apart c d q hqc hqd
      · exact absurd (hqp ▸ hqc) (hp c)
    · rcases hmem d q hd with hqd | ⟨hd, -⟩
      · exact absurd (hqp ▸ hqd) (hp d)
      · exact hc.trans hd.symm

theorem Lists.setRet (h : Lists k L) (p : Slot) (v : Word) : Lists (k.setRet p v) L := by
  have hlink : (k.setRet p v).link = k.link := by
    funext q
    exact (Unmoved.setRet k p v).next q
  refine ⟨fun c => ?_, h.nodup, h.tail, h.apart⟩
  rw [hlink]
  cases c with
  | ready => exact h.chain .ready
  | blocked => exact h.chain .blocked
  | dead => exact h.chain .dead
  | sleep => exact h.chain .sleep

/-- The code replaces the one that the validation has noted. -/
theorem Kernel.setRet_setRet (k : Kernel) (p : Slot) (v w : Word) :
    (k.setRet p v).setRet p w = k.setRet p w := by
  have htab : ((k.setRet p v).setRet p w).proctab = (k.setRet p w).proctab := by
    funext r
    by_cases hr : r = p
    · subst hr
      simp [Kernel.setRet, Pcb.setRet]
    · simp [Kernel.setRet, hr]
  show { k with proctab := ((k.setRet p v).setRet p w).proctab } = _
  rw [htab]
  rfl

/-- A process that is made ready with a code is told it, and the others keep all but the link. -/
theorem readied_told (k : Kernel) (p q : Slot) (rc : Int) :
    (readied (k.setRet p (toWord rc)) p).proctab q =
      (if q = p then (k.proctab p).told rc else k.proctab q).setNext
        ((readied (k.setRet p (toWord rc)) p).link q) := by
  obtain ⟨o, ho⟩ := readied_proctab (k.setRet p (toWord rc)) p q
  have hlink : (readied (k.setRet p (toWord rc)) p).link q = o := by
    unfold Kernel.link
    rw [ho]
    split <;> rfl
  rw [ho, hlink]
  by_cases hq : q = p
  · subst hq
    rw [if_pos rfl, if_pos rfl, Kernel.setRet, Kernel.upd_proctab_self]
    rfl
  · rw [if_neg hq, if_neg hq, Kernel.setRet, Kernel.upd_proctab_ne _ _ _ hq]

/-- Making the caller ready with the code in `ret` is all that is done. -/
theorem Lists.rejected (h : Lists k L) (hp : ∀ c, p ∉ L c) (hrc : Rejects rc) :
    Rejected k (Xeros.readied (k.setRet p (toWord rc)) p) p rc L := by
  have hunmoved := Unmoved.setRet k p (toWord rc)
  have hidle : (k.setRet p (toWord rc)).Idle p ↔ k.Idle p := by
    unfold Kernel.Idle
    rw [hunmoved.pid]
    rfl
  have hqueued : (k.setRet p (toWord rc)).queued p (L .ready) = k.queued p (L .ready) := by
    unfold Kernel.queued
    simp only [hidle]
  have hlists := (h.setRet p (toWord rc)).readied hp
  rw [hqueued] at hlists
  have hlast : (k.setRet p (toWord rc)).tail ≠ some p := by
    rw [hunmoved.tail, h.tail]
    exact fun ht => hp .ready (List.mem_of_getLast? ht)
  refine ⟨hrc, hlists, ?_, fun q hq => ?_, ?_⟩
  · -- the caller was not in the queue, so nothing is linked behind it
    rw [readied_told, if_pos rfl, readied_link_self hlast]
    rfl
  · rw [readied_told, if_neg hq, link_readied, if_neg hq]
    congr 1
    rw [show (k.setRet p (toWord rc)).link q = k.link q from hunmoved.next q, ← h.tail]
    exact if_congr (and_congr (not_congr hidle) Iff.rfl) rfl rfl
  · exact readied_rest _ p

/-! ## The calls -/

/-- The caller is told `rc` and the next process is chosen. -/
theorem Lists.told (h : Lists k L) (hp : ∀ c, p ∉ L c) (hrc : Rejects rc) {x : Run Kernel}
    (hx : x = Xeros.ready (k.setRet p (toWord rc)) p) :
    (k.Used p → ∃ k', x = .ok k') ∧ ∀ k', x = .ok k' → Rejected k k' p rc L := by
  subst hx
  refine ⟨fun hu => ⟨_, ready_of_used ((Unmoved.setRet k p _).used hu)⟩, ?_⟩
  intro k' hk
  rw [ready_eq hk]
  exact h.rejected hp hrc

theorem sysSend_rejected
    (hsend : send k a (k.arg p 0) (k.arg p 1) (k.arg p 2).toInt p = (rc, k₀)) (hrc : rc < 0) :
    sysSend k p a = ready (k.setRet p (toWord rc)) p := by
  unfold sysSend
  dsimp only
  rw [hsend]
  dsimp only
  rw [if_neg (by omega), if_pos hrc]
  obtain ⟨-, rfl | ⟨v, rfl⟩⟩ := send_rejects hsend hrc
  · rfl
  · rw [Kernel.setRet_setRet]

theorem sysRecv_rejected
    (hrecv : recv k a (k.arg p 0) (k.arg p 1) (k.arg p 2).toInt p = .ok (rc, k₀)) (hrc : rc < 0) :
    sysRecv k p a = ready (k.setRet p (toWord rc)) p := by
  unfold sysRecv
  dsimp only
  rw [hrecv]
  show (if 0 < rc then _ else if rc < 0 then _ else _) = _
  rw [if_neg (by omega), if_pos hrc]
  obtain ⟨-, rfl | ⟨v, rfl⟩⟩ := recv_rejects hrecv hrc
  · rfl
  · rw [Kernel.setRet_setRet]

/-- A send or a receive that is rejected leaves nothing behind but the code in the `ret` of the
caller and the caller at the end of the ready queue, where the idle process is not put. It comes
back when the assertions of `ready` hold for the caller, and the next process is chosen then. -/
theorem rejected_leaves_no_trace (h : Lists k L) (hp : ∀ c, p ∉ L c) :
    (∀ rc k₀, send k a (k.arg p 0) (k.arg p 1) (k.arg p 2).toInt p = (rc, k₀) → rc < 0 →
      (k.Used p → ∃ k', sysSend k p a = .ok k') ∧ ∀ k', sysSend k p a = .ok k' →
        serve k p a .send = reschedule k' ∧ Rejected k k' p rc L) ∧
    (∀ rc k₀, recv k a (k.arg p 0) (k.arg p 1) (k.arg p 2).toInt p = .ok (rc, k₀) → rc < 0 →
      (k.Used p → ∃ k', sysRecv k p a = .ok k') ∧ ∀ k', sysRecv k p a = .ok k' →
        serve k p a .recv = reschedule k' ∧ Rejected k k' p rc L) := by
  refine ⟨fun rc k₀ hsend hrc => ?_, fun rc k₀ hrecv hrc => ?_⟩
  · obtain ⟨hback, hleft⟩ := h.told hp (send_rejects hsend hrc).1 (sysSend_rejected hsend hrc)
    refine ⟨hback, fun k' hk => ⟨?_, hleft k' hk⟩⟩
    unfold serve
    rw [hk]
    rfl
  · obtain ⟨hback, hleft⟩ := h.told hp (recv_rejects hrecv hrc).1 (sysRecv_rejected hrecv hrc)
    refine ⟨hback, fun k' hk => ⟨?_, hleft k' hk⟩⟩
    unfold serve
    rw [hk]
    rfl

/-- The switch to the kernel leaves the lists as they are. -/
theorem Lists.contextswitch (h : Lists k L) (t : Trap) : Lists (contextswitch k p t) L where
  chain c := by
    have hun := Unmoved.contextswitch k p t
    have hc := (h.chain c).congr fun r _ => hun.next r
    cases c <;> exact hc
  nodup := h.nodup
  tail := h.tail
  apart := h.apart

/-- Process 4 is ready, and the root process is blocked. -/
def waitingLists : Queue → List Slot
  | .ready => [4]
  | .blocked => [1]
  | _ => []

theorem crossed₃_lists : Lists crossed₃.d.k waitingLists := by
  have hfacts : crossed₃.d.k.head = some 4 ∧ crossed₃.d.k.link 4 = none ∧
      crossed₃.d.k.tail = some 4 ∧ crossed₃.d.k.blockedQ = some 1 ∧ crossed₃.d.k.link 1 = none ∧
      crossed₃.d.k.deadQ = none ∧ crossed₃.d.k.headsleeper = none := by decide +kernel
  obtain ⟨hhead, hlink₄, htail, hblocked, hlink₁, hdead, hsleep⟩ := hfacts
  refine ⟨fun c => ?_, fun c => by cases c <;> decide, htail, fun c d q hc hd => ?_⟩
  · cases c with
    | ready => exact ⟨hhead, hlink₄⟩
    | blocked => exact ⟨hblocked, hlink₁⟩
    | dead => exact hdead
    | sleep => exact hsleep
  · cases c <;> cases d <;> simp_all [waitingLists]

/-- Process 3 sends to process 9, and receives from it; there is none. -/
def sendsAstray : Trap := sampleCallAt 0x61000 .send [9, 0x61000, 8]

@[inherit_doc sendsAstray]
def recvsAstray : Trap := sampleCallAt 0x61000 .recv [0x6100c, 0x61100, 8, 9]

/-- Either time it gets the code and waits behind process 4. -/
theorem rejected_leaves_no_trace_of_astray :
    (∃ k', sysSend (contextswitch crossed₃.d.k 3 sendsAstray) 3 sampleAmbient = .ok k' ∧
      Rejected (contextswitch crossed₃.d.k 3 sendsAstray) k' 3 badPid waitingLists) ∧
    ∃ k', sysRecv (contextswitch crossed₃.d.k 3 recvsAstray) 3 sampleAmbient = .ok k' ∧
      Rejected (contextswitch crossed₃.d.k 3 recvsAstray) k' 3 badPid waitingLists := by
  have hsend : (send (contextswitch crossed₃.d.k 3 sendsAstray) sampleAmbient
      ((contextswitch crossed₃.d.k 3 sendsAstray).arg 3 0)
      ((contextswitch crossed₃.d.k 3 sendsAstray).arg 3 1)
      ((contextswitch crossed₃.d.k 3 sendsAstray).arg 3 2).toInt 3).1 = badPid ∧
      (contextswitch crossed₃.d.k 3 sendsAstray).Used 3 := by
    unfold Kernel.Used
    decide +kernel
  have hrecv : (recv (contextswitch crossed₃.d.k 3 recvsAstray) sampleAmbient
      ((contextswitch crossed₃.d.k 3 recvsAstray).arg 3 0)
      ((contextswitch crossed₃.d.k 3 recvsAstray).arg 3 1)
      ((contextswitch crossed₃.d.k 3 recvsAstray).arg 3 2).toInt 3).isOk = true ∧
      ((recv (contextswitch crossed₃.d.k 3 recvsAstray) sampleAmbient
      ((contextswitch crossed₃.d.k 3 recvsAstray).arg 3 0)
      ((contextswitch crossed₃.d.k 3 recvsAstray).arg 3 1)
      ((contextswitch crossed₃.d.k 3 recvsAstray).arg 3 2).toInt 3).getD (0, crossed₃.d.k)).1
        = badPid ∧
      (contextswitch crossed₃.d.k 3 recvsAstray).Used 3 := by
    unfold Kernel.Used
    decide +kernel
  have hout : ∀ c, (3 : Slot) ∉ waitingLists c := by
    intro c
    cases c <;> decide
  obtain ⟨hcode, hused⟩ := hsend
  obtain ⟨hok, hcode', hused'⟩ := hrecv
  obtain ⟨hsent, -⟩ := rejected_leaves_no_trace (a := sampleAmbient)
    (crossed₃_lists.contextswitch (p := 3) sendsAstray) hout
  obtain ⟨-, hreceived⟩ := rejected_leaves_no_trace (a := sampleAmbient)
    (crossed₃_lists.contextswitch (p := 3) recvsAstray) hout
  have hreturns := Run.eq_getD (s := (0, crossed₃.d.k)) hok
  generalize (recv _ _ _ _ _ _).getD (0, crossed₃.d.k) = r at hreturns hcode'
  obtain ⟨rc, k₀⟩ := r
  subst hcode'
  have hrejected := hsent badPid
  generalize send (contextswitch crossed₃.d.k 3 sendsAstray) _ _ _ _ _ = r at hcode hrejected
  obtain ⟨rc, k₁⟩ := r
  subst hcode
  obtain ⟨hback, hleft⟩ := hrejected k₁ rfl (by decide)
  obtain ⟨hback', hleft'⟩ := hreceived badPid k₀ hreturns (by decide)
  obtain ⟨k', hk⟩ := hback hused
  obtain ⟨k'', hk'⟩ := hback' hused'
  exact ⟨⟨k', hk, (hleft k' hk).2⟩, k'', hk', (hleft' k'' hk').2⟩

/-- Process 1 runs, and no process is in a queue. Its arguments are all zero: it sends from a
buffer that is no user memory. -/
def messenger (idle : Word) : Kernel :=
  ((dispatchinit sampleImage).upd 1 fun c => { c with pid := 1, state := .running }).setIdle idle

theorem messenger_lists (idle : Word) : Lists (messenger idle) fun _ => [] := by
  refine ⟨fun c => ?_, fun _ => List.nodup_nil, rfl, fun c d q hq => ?_⟩
  · cases c <;> rfl
  · exact absurd hq List.not_mem_nil

theorem messenger_send (idle : Word) :
    send (messenger idle) sampleAmbient ((messenger idle).arg 1 0) ((messenger idle).arg 1 1)
      ((messenger idle).arg 1 2).toInt 1 = (badBufferParm, messenger idle) := by
  have harg : ∀ i, (messenger idle).arg 1 i = 0 := by
    intro i
    show (0 : Byte) ++ (0 : Byte) ++ (0 : Byte) ++ (0 : Byte) = (0 : Word)
    rfl
  have hpeer : validateSend (messenger idle) sampleAmbient 1 0 0 (0 : Word).toInt
      = (badBufferParm, messenger idle) := rfl
  unfold send
  rw [harg, harg, harg, hpeer]
  rfl

theorem messenger_used (idle : Word) : (messenger idle).Used 1 :=
  ⟨by decide, rfl, Nat.lt_of_sub_eq_succ rfl⟩

/-- The idle process gets its code, but is not put in the ready queue. -/
theorem rejected_unqueued : ¬ ∀ (k : Kernel) (a : Ambient) (p : Slot) (L : Queue → List Slot)
    (rc : Int) (k₀ k' : Kernel), Lists k L → (∀ c, p ∉ L c) → k.Used p →
    send k a (k.arg p 0) (k.arg p 1) (k.arg p 2).toInt p = (rc, k₀) → rc < 0 →
    sysSend k p a = .ok k' → k'.tail = some p := by
  intro h
  obtain ⟨k', hk⟩ : ∃ k', sysSend (messenger 1) 1 sampleAmbient = .ok k' := by
    rw [sysSend_rejected (messenger_send 1) (by decide)]
    exact ⟨_, ready_of_used ((Unmoved.setRet _ 1 _).used (messenger_used 1))⟩
  have htail := h _ _ _ _ _ _ _ (messenger_lists 1) (fun c => List.not_mem_nil)
    (messenger_used 1) (messenger_send 1) (by decide) hk
  rw [sysSend_rejected (messenger_send 1) (by decide)] at hk
  rw [ready_eq hk] at htail
  cases htail

end Xeros
