import Xeros.Logic.Copy
import Xeros.Logic.Rest
import Xeros.Theorems.Queues
import Xeros.Theorems.Rendezvous

/-!
# Missed rendezvous

A sender and a receiver that wait for each other have missed each other. In runs of
processes that only create, yield, send and receive this happens only after `remove` has
taken a process out of the middle of `blocked_q`.
-/

namespace Xeros

open Lib

variable {k k' k₁ k₂ : Kernel} {p p' q r x y : Slot} {L : Queue → List Slot} {a : Ambient}
  {req : Request} {w : Word}

/-! ## What is stored -/

/-- The words of its call that the kernel reads of a blocked process: the first argument
and, for a receive, the place for the pid. -/
def CallWord (k : Kernel) (q : Slot) (w : Word) : Prop :=
  InRange (k.proctab q).args 4 w ∨
    (k.proctab q).ret = Request.recv.code ∧ InRange (k.arg q 0) 4 w

/-- What the kernel stores to: the first context of a new process; the place for the pid
and the receive buffer with the byte behind it. -/
def Stores (k : Kernel) (p : Slot) (a : Ambient) (w : Word) : Request → Prop
  | .create => ∃ b h, stackBlock k a.fuel (k.arg p 1) = .ok (b, h) ∧
      InRange (b + (if (k.arg p 1).slt procStack then procStack else k.arg p 1) - 4 - 44) 48 w
  | .send => ∃ r, sendPeer k a p = some r ∧
      (InRange (k.arg r 0) 4 w ∨ InRange (k.arg r 1) ((k.arg r 2).toInt.toNat + 1) w)
  | .recv => ∃ q, recvPeer k a p = .ok (some q) ∧
      (InRange (k.arg p 0) 4 w ∨ InRange (k.arg p 1) ((k.arg p 2).toInt.toNat + 1) w)
  | _ => False

theorem startContext_frame {m : Bytes} {img : Image} {cf fp : Word} (h : ¬ InRange cf 48 w) :
    startContext m img cf fp w = m w := by
  have hpart : ∀ {d : Word} {n : Nat}, d.toNat + n ≤ 48 → ¬ InRange (cf + d) n w :=
    fun hd hx => h (hx.of_part hd)
  have h44 : ¬ InRange cf 44 w := by
    have := hpart (d := 0) (n := 44) (by decide)
    simpa using this
  unfold startContext Bytes.putWord
  repeat rw [Bytes.splice_of_not_inRange (hpart (by decide))]
  rw [Bytes.splice_of_not_inRange h44]

theorem passMessage_frame {s : Slot} (h₁ : ¬ InRange (k.arg r 0) 4 w)
    (h₂ : ¬ InRange (k.arg r 1) ((k.arg r 2).toInt.toNat + 1) w) :
    (passMessage k s r).2 w = k.mem w := by
  have hann : announce k s r w = k.mem w := by
    unfold announce
    split
    · exact Bytes.splice_of_not_inRange h₁
    · rfl
  exact (copy_frame h₂).trans hann

theorem create_frame {fuel : Nat} {fp stack pid : Word}
    (h : create k fuel fp stack = .ok (pid, k'))
    (hw : ∀ b heap, stackBlock k fuel stack = .ok (b, heap) →
      ¬ InRange (b + (if stack.slt procStack then procStack else stack) - 4 - 44) 48 w) :
    k'.mem w = k.mem w := by
  rcases create_cases h with ⟨k₁, n, -, h₁, -, rfl⟩ | ⟨i, k₁, n, b, heap, -, h₁, h₂, h⟩
  · exact congrFun (Rest.remove h₁).mem w
  · rcases h with ⟨-, -, rfl⟩ | ⟨-, -, h₃⟩
    · exact congrFun (Rest.remove h₁).mem w
    · rw [(Rest.ready h₃).mem]
      exact (startContext_frame (hw b heap h₂)).trans (congrFun (Rest.remove h₁).mem w)

theorem sysSend_frame (h : sysSend k p a = .ok k') (hw : ¬ Stores k p a w .send) :
    k'.mem w = k.mem w := by
  obtain ⟨n, k₀, h₀, h⟩ := sysSend_cases h
  have hk₀ : k₀.mem w = k.mem w := by
    rcases send_cases h₀ with ⟨r, hpeer, -, rfl⟩ | ⟨-, -, rfl | ⟨v, rfl⟩⟩
    · exact passMessage_frame (fun hx => hw ⟨r, hpeer, .inl hx⟩) fun hx => hw ⟨r, hpeer, .inr hx⟩
    · rfl
    · rfl
  rw [← hk₀]
  rcases h with ⟨-, k₁, k₂, r, h₁, h₂, h₃⟩ | ⟨-, h₁⟩ | ⟨-, h₁⟩
  · exact congrFun (((Rest.ready h₁).trans (.remove h₂)).trans (.ready h₃)).mem w
  · exact congrFun (Rest.ready h₁).mem w
  · exact congrFun (Rest.block h₁).mem w

theorem sysRecv_frame (h : sysRecv k p a = .ok k') (hw : ¬ Stores k p a w .recv) :
    k'.mem w = k.mem w := by
  obtain ⟨n, k₀, h₀, h⟩ := sysRecv_cases h
  have hk₀ : k₀.mem w = k.mem w := by
    rcases recv_cases h₀ with ⟨q, hpeer, -, rfl⟩ | ⟨-, -, rfl | ⟨v, rfl⟩⟩
    · exact passMessage_frame (fun hx => hw ⟨q, hpeer, .inl hx⟩) fun hx => hw ⟨q, hpeer, .inr hx⟩
    · rfl
    · rfl
  rw [← hk₀]
  rcases h with ⟨-, k₁, h₁, ⟨-, k₂, r, h₂, h₃⟩ | ⟨-, rfl⟩⟩ | ⟨-, h₁⟩ | ⟨-, h₁⟩
  · exact congrFun (((Rest.ready h₁).trans (.remove h₂)).trans (.ready h₃)).mem w
  · exact congrFun (Rest.ready h₁).mem w
  · exact congrFun (Rest.ready h₁).mem w
  · exact congrFun (Rest.block h₁).mem w

/-! ## Conversations -/

/-- The requests of a conversation, with messages that are not empty. The kernel's own
stores leave alone what it reads of the calls of blocked processes. -/
structure Converses (k : Kernel) (p : Slot) (a : Ambient) (req : Request) : Prop where
  request : req = .create ∨ req = .yield ∨ req = .send ∨ req = .recv ∨ req = .timer
  send : req = .send → ∀ r, sendPeer k a p = some r → ¬ EmptyMessage k p r
  recv : req = .recv → ∀ q, recvPeer k a p = .ok (some q) → ¬ EmptyMessage k q p
  spares : ∀ q, (k.proctab q).state = .blocked → (req = .send → sendPeer k a p ≠ some q) →
    ∀ w, CallWord k q w → ¬ Stores k p a w req

/-- A turn of a conversation: the process that runs leaves alone what the kernel reads of
the calls of blocked processes, and makes a request of a conversation. -/
structure StepConverses (s : Disp) (t : Trap) : Prop where
  user : ∀ q, (s.k.proctab q).state = .blocked → ∀ w, CallWord s.k q w →
    (contextswitch s.k s.p t).mem w = s.k.mem w
  converses : Converses (contextswitch s.k s.p t) s.p t.ambient t.cause.request

/-- The words that the request does not store to are left alone. -/
theorem serve_frame (hreq : req = .create ∨ req = .yield ∨ req = .send ∨ req = .recv ∨
    req = .timer) (h : serve k p a req = .ok (k', p')) (hw : ¬ Stores k p a w req) :
    k'.mem w = k.mem w := by
  rcases hreq with rfl | rfl | rfl | rfl | rfl
  · cases serve_cases h with
    | create h₁ =>
        obtain ⟨pid, k₁, h₂, rfl⟩ := sysCreate_cases h₁
        have hk : k₁.mem w = k.mem w := create_frame h₂ fun b heap hb hx => hw ⟨b, heap, hb, hx⟩
        exact hk
  · cases serve_cases h with
    | yield h₁ h₂ => exact congrFun ((Rest.ready h₁).trans (.reschedule h₂)).mem w
  · cases serve_cases h with
    | send h₁ h₂ => exact (congrFun (Rest.reschedule h₂).mem w).trans (sysSend_frame h₁ hw)
  · cases serve_cases h with
    | recv h₁ h₂ => exact (congrFun (Rest.reschedule h₂).mem w).trans (sysRecv_frame h₁ hw)
  · exact congrFun (Rest.sysTimer h).mem w

/-! ## Who waits -/

/-- A send that returns 0 without a peer has found its receiver not blocked. -/
theorem send_zero (h : (send k a (k.arg p 0) (k.arg p 1) (k.arg p 2).toInt p).1 = 0)
    (hp : sendPeer k a p = none) : (k.proctab (slotOf (k.arg p 0))).state ≠ .blocked := by
  unfold sendPeer at hp
  unfold send at h
  dsimp only at h
  split at h
  · dsimp only at h
    omega
  · rename_i hneg
    rw [if_neg hneg] at hp
    rw [show (validateSend k a p (k.arg p 0) (k.arg p 1) (k.arg p 2).toInt).2 = k from
      validatePeer_ok hneg] at h
    intro hb
    cases hm : sendMatch k p (k.arg p 0) with
    | refuse rc =>
        rw [hm] at h
        have h0 : rc = 0 := h
        rw [sendMatch_refuse hm] at h0
        exact absurd h0 (by decide)
    | wait =>
        unfold sendMatch at hm
        dsimp only at hm
        rw [if_pos hb] at hm
        split at hm
        · cases hm
        · split at hm
          · cases hm
          · cases hm
    | found r =>
        rw [hm] at hp
        cases hp

/-- The walk of `recv` that finds nobody has passed nobody who sends to `p`. -/
theorem recvScan_wait {l : List Slot} {o : Option Slot} {fuel : Nat} (hc : Chain k.link o l)
    (h : recvScan k p fuel o = .ok .wait) :
    ∀ q ∈ l, (k.proctab q).pid ≠ (k.proctab p).pid → k.arg q 0 ≠ (k.proctab p).pid := by
  induction fuel generalizing o l with
  | zero => cases h
  | succ fuel ih =>
      cases o with
      | none =>
          obtain rfl := Chain.none_iff.mp hc
          simp
      | some b =>
          obtain ⟨l', rfl, hc'⟩ := Chain.some_iff.mp hc
          simp only [recvScan] at h
          intro q hq hne
          rcases List.mem_cons.mp hq with rfl | hq
          · rw [if_neg hne] at h
            split at h
            · cases h
            · assumption
          · split at h
            · exact ih hc' h q hq hne
            · split at h
              · cases h
              · exact ih hc' h q hq hne

/-- A receive that returns 0 without a peer has found no process that sends to it. -/
theorem recv_zero {k₀ : Kernel} (hq : Queues k none L) (hu : k.Used p) (hx : k.Used x)
    (hxp : x ≠ p) (hb : (k.proctab x).state = .blocked)
    (hfrom : k.mem.word (k.arg p 0) = 0 ∨ k.mem.word (k.arg p 0) = (k.proctab x).pid)
    (h : recv k a (k.arg p 0) (k.arg p 1) (k.arg p 2).toInt p = .ok (0, k₀))
    (hp : recvPeer k a p = .ok none) : k.arg x 0 ≠ (k.proctab p).pid := by
  unfold recvPeer at hp
  unfold recv at h
  dsimp only at h
  split at h
  · simp only [pure, Except.pure, Except.ok.injEq, Prod.mk.injEq] at h
    omega
  · rename_i hneg
    rw [if_neg hneg] at hp
    simp only [Run.bind_eq_ok] at h hp
    obtain ⟨m, hm, h⟩ := h
    rw [show (validateRecv k a p (k.mem.word (k.arg p 0)) (k.arg p 1) (k.arg p 2).toInt).2 = k
      from validatePeer_ok hneg] at hm
    obtain ⟨m', hm', hp⟩ := hp
    rw [hm, Except.ok.injEq] at hm'
    subst hm'
    cases m with
    | refuse rc =>
        simp only [pure, Except.pure, Except.ok.injEq, Prod.mk.injEq] at h
        rw [recvMatch_refuse hm] at h
        exact absurd h.1 (by decide)
    | found s => cases hp
    | wait =>
        unfold recvMatch at hm
        split at hm
        · have hmem := hq.found x .blocked (by simp) (by rw [hb]; rfl) (by decide) nofun
          exact recvScan_wait (hq.chain .blocked) hm x hmem fun he => hxp (hx.inj hu he)
        · rename_i hne
          rw [hfrom.resolve_left hne, hx.2.1] at hm
          dsimp only at hm
          split at hm
          · cases hm
          · split at hm
            · cases hm
            · rename_i hnot
              exact fun harg => hnot ⟨hb, harg⟩

/-- To yield blocks nobody. -/
theorem Parked.not_blocked {c : Pcb} (h : Parked .yield c) : c.state ≠ .blocked := by
  intro hb
  cases h with
  | able h => rcases h with h | h <;> simp [hb] at h
  | blocked hreq _ _ => simp [Request.blocks] at hreq
  | asleep hreq _ => cases hreq
  | stopped hreq _ => cases hreq

/-- A process that is blocked by a send has found its receiver not blocked. -/
theorem sysSend_waited (hg : Good k) (hu : k.Used p)
    (hmsg : ∀ r, sendPeer k a p = some r → ¬ EmptyMessage k p r) (h : sysSend k p a = .ok k')
    (hb : (k'.proctab p).state = .blocked) :
    sendPeer k a p = none ∧ (k.proctab (slotOf (k.arg p 0))).state ≠ .blocked := by
  have hable : ¬ Parked .yield (k'.proctab p) := fun hpark => hpark.not_blocked hb
  obtain ⟨n, k₀, h₀, h⟩ := sysSend_cases h
  have hs : Quiet (· = p) k k₀ := send_quiet hg rfl h₀
  rcases h with ⟨hn, k₁, k₂, r, h₁, h₂, h⟩ | ⟨-, h⟩ | ⟨rfl, -⟩
  · have hd : k.Used (slotOf (k.arg p 0)) := hg.used (by simp [send_pos h₀ hn])
    have hz := answered_quiet (q := slotOf (k.arg p 0)) (n := n) hs rfl
    exact absurd (release_parked hz.good (hz.used hu) (hz.used hd) h₁ h₂ h) hable
  · have hy := hs.thenRet (toWord n)
    exact absurd (ready_parked (hy.used hu) h) hable
  · rcases send_cases h₀ with ⟨r, hpeer, hn, -⟩ | ⟨hpeer, -, -⟩
    · have hpos := passMessage_pos.mpr (hmsg r hpeer)
      omega
    · exact ⟨hpeer, send_zero (by rw [h₀]) hpeer⟩

/-- A process that is blocked by a receive has found nobody who sends to it. -/
theorem sysRecv_waited (hq : Queues k none L) (hg : Good k) (hu : k.Used p)
    (hmsg : ∀ q, recvPeer k a p = .ok (some q) → ¬ EmptyMessage k q p)
    (h : sysRecv k p a = .ok k') (hb : (k'.proctab p).state = .blocked) :
    recvPeer k a p = .ok none ∧ ∀ x, x ≠ p → (k.proctab x).state = .blocked →
      (k.mem.word (k.arg p 0) = 0 ∨ k.mem.word (k.arg p 0) = (k.proctab x).pid) →
      k.arg x 0 ≠ (k.proctab p).pid := by
  have hable : ¬ Parked .yield (k'.proctab p) := fun hpark => hpark.not_blocked hb
  obtain ⟨n, k₀, h₀, h⟩ := sysRecv_cases h
  have hs : Quiet (· = p) k k₀ := recv_quiet hg rfl h₀
  rcases h with ⟨hn, k₁, h₁, h⟩ | ⟨-, h⟩ | ⟨rfl, -⟩
  · have hz := answered_quiet (q := slotOf (k₀.mem.word (k.arg p 0))) (n := n) hs rfl
    have hq₁ := ready_quiet (X := nobody) hz.good (hz.used hu) h₁
    rcases h with ⟨hpid, k₂, r, h₂, h⟩ | ⟨-, rfl⟩
    · have hd := hq₁.good.used_of_pid hpid
      exact absurd (release_parked hz.good (hz.used hu) (hd.congr (hq₁.same _).pid.symm) h₁ h₂ h)
        hable
    · exact absurd (ready_parked (hz.used hu) h₁) hable
  · have hy := hs.thenRet (toWord n)
    exact absurd (ready_parked (hy.used hu) h) hable
  · rcases recv_cases h₀ with ⟨s, hpeer, hn, -⟩ | ⟨hpeer, -, -⟩
    · have hpos := passMessage_pos.mpr (hmsg s hpeer)
      omega
    · exact ⟨hpeer, fun x hxp hbx hfrom =>
        recv_zero hq hu (hg.used (by simp [hbx])) hxp hbx hfrom h₀ hpeer⟩

/-- A send with a peer and a message that is not empty makes the peer ready. -/
theorem sysSend_releases (hg : Good k) (hpeer : sendPeer k a p = some r)
    (hmsg : ¬ EmptyMessage k p r) (hu : k.Used p) (h : sysSend k p a = .ok k') :
    (k'.proctab r).state = .ready := by
  obtain ⟨n, k₀, h₀, h⟩ := sysSend_cases h
  have hs : Quiet (· = p) k k₀ := send_quiet hg rfl h₀
  have hr : r = slotOf (k.arg p 0) := by
    unfold sendPeer at hpeer
    split at hpeer
    · cases hpeer
    · split at hpeer
      · rename_i hm
        cases hpeer
        exact (sendMatch_found hm).1
      · cases hpeer
  rw [send_of_peer hpeer, Prod.mk.injEq] at h₀
  have hpos := passMessage_pos.mpr hmsg
  rcases h with ⟨-, k₁, k₂, m, h₁, h₂, h⟩ | ⟨hn, -⟩ | ⟨hn, -⟩
  · have hb := (sendPeer_found hpeer).2
    have hz := answered_quiet (q := slotOf (k.arg p 0)) (n := n) hs rfl
    have hd : k.Used r := hg.used (by simp [hb])
    have hq₁ := ready_quiet (X := nobody) hz.good (hz.used hu) h₁
    have hq₂ := remove_quiet (X := nobody) hq₁.good h₂
    rw [← hr] at h
    exact ready_state (hq₂.used (hq₁.used (hz.used hd))) h
  · omega
  · omega

/-! ## No rendezvous is missed -/

/-- No sender and receiver that name each other are both blocked. -/
def Met (k : Kernel) : Prop :=
  ∀ x y, (k.proctab x).state = .blocked → (k.proctab x).ret = Request.send.code →
    (k.proctab y).state = .blocked → (k.proctab y).ret = Request.recv.code →
    k.arg x 0 = (k.proctab y).pid →
    ¬ (k.mem.word (k.arg y 0) = 0 ∨ k.mem.word (k.arg y 0) = (k.proctab x).pid)

theorem Kernel.arg_zero (k : Kernel) (q : Slot) :
    k.arg q 0 = k.mem.word (k.proctab q).args := by
  unfold arg
  simp

/-- The first argument of a call is read from its words. -/
theorem CallWord.arg (hargs : (k'.proctab q).args = (k.proctab q).args)
    (h : ∀ w, CallWord k q w → k'.mem w = k.mem w) : k'.arg q 0 = k.arg q 0 := by
  rw [Kernel.arg_zero, Kernel.arg_zero, hargs]
  exact Bytes.word_congr fun w hw => h w (.inl hw)

/-- What a receive names is read from the words of the call. -/
theorem CallWord.source (hargs : (k'.proctab q).args = (k.proctab q).args)
    (hret : (k.proctab q).ret = Request.recv.code)
    (h : ∀ w, CallWord k q w → k'.mem w = k.mem w) :
    k'.mem.word (k'.arg q 0) = k.mem.word (k.arg q 0) := by
  rw [CallWord.arg hargs h]
  exact Bytes.word_congr fun w hw => h w (.inr ⟨hret, hw⟩)

/-- A process that a send has blocked: its receiver was not blocked, and nothing was stored. -/
theorem Converses.sender_waited (hc : Converses k p a req) (hg : Good k) (hu : k.Used p)
    (hs : serve k p a req = .ok (k', p')) (hp : p ≠ p') (hb : (k'.proctab p).state = .blocked)
    (hret : (k'.proctab p).ret = Request.send.code) :
    (k.proctab (slotOf (k.arg p 0))).state ≠ .blocked ∧ k'.mem = k.mem := by
  obtain rfl : req = .send := by
    rw [ret_of_blocked hg hu hs hp hb] at hret
    rcases hc.request with rfl | rfl | rfl | rfl | rfl <;> revert hret <;> decide
  obtain ⟨k₁, h₁, h₂⟩ := Run.bind_eq_ok.mp hs
  have hq₁ := sysSend_quiet (X := (· = p)) hg hu rfl h₁
  have hq₂ := (reschedule_quiet (X := nobody) hq₁.good h₂).1
  have hb₁ : (k₁.proctab p).state = .blocked := by
    rw [← ((hq₂.sched p id).waiting (.inl hb)).1]
    exact hb
  obtain ⟨hnone, hfree⟩ := sysSend_waited hg hu (hc.send rfl) h₁ hb₁
  refine ⟨hfree, funext fun w => serve_frame hc.request hs ?_⟩
  rintro ⟨r, hr, -⟩
  rw [hnone] at hr
  cases hr

/-- A process that a receive has blocked: nobody that it listens to was sending to it, and
nothing was stored. -/
theorem Converses.receiver_waited (hc : Converses k p a req) (hq : Queues k none L) (hg : Good k)
    (hu : k.Used p) (hs : serve k p a req = .ok (k', p')) (hp : p ≠ p')
    (hb : (k'.proctab p).state = .blocked) (hret : (k'.proctab p).ret = Request.recv.code) :
    (∀ x, x ≠ p → (k.proctab x).state = .blocked →
      (k.mem.word (k.arg p 0) = 0 ∨ k.mem.word (k.arg p 0) = (k.proctab x).pid) →
      k.arg x 0 ≠ (k.proctab p).pid) ∧ k'.mem = k.mem := by
  obtain rfl : req = .recv := by
    rw [ret_of_blocked hg hu hs hp hb] at hret
    rcases hc.request with rfl | rfl | rfl | rfl | rfl <;> revert hret <;> decide
  obtain ⟨k₁, h₁, h₂⟩ := Run.bind_eq_ok.mp hs
  have hq₁ := sysRecv_quiet (X := (· = p)) hg hu rfl h₁
  have hq₂ := (reschedule_quiet (X := nobody) hq₁.good h₂).1
  have hb₁ : (k₁.proctab p).state = .blocked := by
    rw [← ((hq₂.sched p id).waiting (.inl hb)).1]
    exact hb
  obtain ⟨hnone, hwait⟩ := sysRecv_waited hq hg hu (hc.recv rfl) h₁ hb₁
  refine ⟨hwait, funext fun w => serve_frame hc.request hs ?_⟩
  rintro ⟨r, hr, -⟩
  rw [hnone] at hr
  cases hr

/-- What the kernel reads of a process that stays blocked is left alone. -/
theorem Converses.heard (hc : Converses k p a req) (hg : Good k) (hu : k.Used p)
    (hs : serve k p a req = .ok (k', p')) (hb : (k.proctab q).state = .blocked)
    (hb' : (k'.proctab q).state = .blocked) : ∀ w, CallWord k q w → k'.mem w = k.mem w := by
  intro w hw
  refine serve_frame hc.request hs (hc.spares q hb ?_ w hw)
  -- the peer of a send is not blocked any more
  rintro rfl hpeer
  obtain ⟨k₁, h₁, h₂⟩ := Run.bind_eq_ok.mp hs
  have hready := sysSend_releases hg hpeer (hc.send rfl q hpeer) hu h₁
  have hq₁ := sysSend_quiet (X := (· = p)) hg hu rfl h₁
  have hq₂ := (reschedule_quiet (X := nobody) hq₁.good h₂).1
  have hsame := ((hq₂.sched q id).waiting (.inl hb')).1
  rw [hready, hb'] at hsame
  cases hsame

/-- A conversation does not begin with a missed rendezvous and does not lead to one. -/
theorem Converses.met (hc : Converses k p a req) (hq : Queues k none L) (hg : Good k)
    (hu : k.Used p) (hmet : Met k) (hs : serve k p a req = .ok (k', p'))
    (hx : x ≠ p') (hy : y ≠ p') (hbx : (k'.proctab x).state = .blocked)
    (hrx : (k'.proctab x).ret = Request.send.code) (hby : (k'.proctab y).state = .blocked)
    (hry : (k'.proctab y).ret = Request.recv.code) (hdest : k'.arg x 0 = (k'.proctab y).pid) :
    ¬ (k'.mem.word (k'.arg y 0) = 0 ∨ k'.mem.word (k'.arg y 0) = (k'.proctab x).pid) := by
  obtain ⟨hserved, -⟩ := serve_served hg hu hs
  obtain ⟨hsamex, hstx⟩ := hserved.waiting hx (.inl hbx)
  obtain ⟨hsamey, hsty⟩ := hserved.waiting hy (.inl hby)
  by_cases hxp : x = p
  · -- the sender has just blocked
    subst hxp
    have hyx : y ≠ x := by
      rintro rfl
      rw [hrx] at hry
      exact absurd hry (by decide)
    obtain ⟨hfree, hmem⟩ := hc.sender_waited hg hu hs hx hbx hrx
    rw [CallWord.arg hsamex.args fun w _ => congrFun hmem w] at hdest
    have hbk : (k.proctab y).state = .blocked := (hsty hyx).1.symm.trans hby
    have hslot : slotOf (k.arg x 0) = y := by
      rw [hdest, hsamey.pid]
      exact (hg.used (by simp [hbk])).2.1
    rw [hslot] at hfree
    exact absurd hbk hfree
  have hbxk : (k.proctab x).state = .blocked := (hstx hxp).1.symm.trans hbx
  by_cases hyp : y = p
  · -- the receiver has just blocked
    subst hyp
    obtain ⟨hwait, hmem⟩ := hc.receiver_waited hq hg hu hs hy hby hry
    rw [CallWord.arg hsamex.args fun w _ => congrFun hmem w, hsamey.pid] at hdest
    intro hfrom
    rw [CallWord.arg hsamey.args fun w _ => congrFun hmem w, hmem, hsamex.pid] at hfrom
    exact hwait x hxp hbxk hfrom hdest
  · -- both have been blocked before
    have hbyk : (k.proctab y).state = .blocked := (hsty hyp).1.symm.trans hby
    have hrxk : (k.proctab x).ret = Request.send.code := (hstx hxp).2.symm.trans hrx
    have hryk : (k.proctab y).ret = Request.recv.code := (hsty hyp).2.symm.trans hry
    rw [CallWord.arg hsamex.args (hc.heard hg hu hs hbxk hbx), hsamey.pid] at hdest
    rw [CallWord.source hsamey.args hryk (hc.heard hg hu hs hbyk hby), hsamex.pid]
    exact hmet x y hbxk hrxk hbyk hryk hdest

/-- What the steps of a conversation keep as long as they move processes safely. -/
structure Talks (s : Recorded) : Prop extends InCall s where
  queues : ∃ L, Queues s.d.k none L
  unsignalled : ∀ q, (s.d.k.proctab q).sigPending = 0
  met : Met s.d.k

theorem Booted.talks {s : Recorded} (h : Booted s.d) : Talks s where
  toInCall := h.inCall
  queues := ⟨_, h.queues⟩
  unsignalled q := h.sigPending q
  met x y hx := by
    rw [h.state] at hx
    split at hx
    · cases hx
    split at hx <;> cases hx

/-- No signal is due for a process that has none pending. -/
theorem not_deliverable {c : Pcb} (h : c.sigPending = 0) : ¬ deliverable c := by
  rw [← Pcb.calm_iff_not_deliverable]
  simp [Pcb.calm, h]

/-- The process on its way gets no signal, and the memory is left alone. -/
theorem loopTop_mem (hu : k.Used p) (h : (k.proctab p).sigPending = 0) :
    (loopTop k p).k.mem = k.mem := by
  have hr : (run k p).proctab p = (k.proctab p).setState .running := by simp [run]
  have hu' : (run k p).Used p := hu.congr (by rw [hr]; rfl)
  have hk : (loopTop k p).k = deliverSignalsIfany (run k p) p := rfl
  rw [hk, deliverSignalsIfany_eq hu', if_neg (not_deliverable (by rw [hr]; exact h))]
  rfl

/-- A request of a conversation posts no signal. -/
theorem Served.unsignalled (h : Served k p a req k' p') (hc : Converses k p a req)
    (hk : ∀ q, (k.proctab q).sigPending = 0) : ∀ q, (k'.proctab q).sigPending = 0 := by
  have hreq := hc.request
  intro q
  cases h with
  | quiet _ hx => exact (hx.same q).sigPending.trans (hk q)
  | create _ _ i esp _ hx =>
      rw [(hx.same q).sigPending, Kernel.upd_proctab]
      split
      · exact hk i
      · exact hk q
  | install h _ _ _ => simp [h] at hreq
  | sigreturn h _ _ => simp [h] at hreq
  | post h _ _ _ _ => simp [h] at hreq
  | openFirst h _ _ _ => simp [h] at hreq

/-- The process that runs leaves the calls of the others alone. -/
theorem Met.contextswitch {s : Disp} {t : Trap} (h : Met s.k)
    (hrun : (s.k.proctab s.p).state = .running) (hc : StepConverses s t) :
    Met (contextswitch s.k s.p t) := by
  have hsame : ∀ q, (s.k.proctab q).state = .blocked →
      (Xeros.contextswitch s.k s.p t).proctab q = s.k.proctab q := by
    intro q hq
    rw [contextswitch_proctab, if_neg]
    rintro rfl
    rw [hrun] at hq
    cases hq
  intro x y hbx hrx hby hry hdest
  rw [contextswitch_state] at hbx hby
  rw [hsame x hbx] at hrx
  rw [hsame y hby] at hry
  rw [CallWord.arg (by rw [hsame x hbx]) (hc.user x hbx), contextswitch_pid] at hdest
  rw [CallWord.source (by rw [hsame y hby]) hry (hc.user y hby), contextswitch_pid]
  exact h x y hbx hrx hby hry hdest

theorem Talks.turn {s s' : Recorded} {t : Trap} (hs : Talks s) (hc : StepConverses s.d t)
    (hm : StepMovesSafely s.d t) (h : s.turn t = .ok s') : Talks s' := by
  have hd := Recorded.turn_d h
  obtain ⟨L, hL⟩ := hs.queues
  obtain ⟨k₂, h₂, ht⟩ := Recorded.turn_cases hs.toSound h
  have hg := contextswitch_good hs.good hs.used t
  have hu := contextswitch_used (p := s.d.p) hs.used t
  have hpend : ∀ q, (k₂.proctab q).sigPending = 0 := by
    refine ht.served.unsignalled hc.converses fun q => ?_
    rw [contextswitch_proctab]
    split
    · rw [Pcb.enter_sigPending]
      exact hs.unsignalled _
    · exact hs.unsignalled q
  -- no signal is delivered, so the turn ends in the state that the request has left
  have hproc : ∀ q, q ≠ s'.d.p → s'.d.k.proctab q = k₂.proctab q := by
    intro q hq
    rw [ht.loopTop, loopTop_proctab ht.used, if_neg hq]
  have hmem : s'.d.k.mem = k₂.mem := by
    rw [ht.loopTop]
    exact loopTop_mem ht.used (hpend _)
  have hsound := hs.toSound.turn hd
  refine ⟨hs.toInCall.turn h, hL.turn hs.toSound hm hd, fun q => ?_, ?_⟩
  · by_cases hq : q = s'.d.p
    · rw [ht.loopTop, loopTop_proctab ht.used, if_pos hq, if_neg (not_deliverable (hpend _))]
      exact hpend _
    · rw [hproc q hq]
      exact hpend q
  · have hmet := hs.met.contextswitch hs.running hc
    have hq := hL.unmoved (.contextswitch s.d.k s.d.p t)
    intro x y hbx hrx hby hry hdest
    have hne : ∀ q, (s'.d.k.proctab q).state = .blocked → q ≠ s'.d.p := by
      rintro q hq rfl
      rw [hsound.running] at hq
      cases hq
    have harg : ∀ q, (s'.d.k.proctab q).state = .blocked → s'.d.k.arg q 0 = k₂.arg q 0 := by
      intro q hb
      unfold Kernel.arg
      rw [hproc q (hne q hb), hmem]
    have hpx := hproc x (hne x hbx)
    have hpy := hproc y (hne y hby)
    rw [harg x hbx, hpy] at hdest
    rw [harg y hby, hmem, hpx]
    rw [hpx] at hrx
    rw [hpy] at hry
    exact hc.converses.met hq hg hu hmet ht.serve (hne x hbx) (hne y hby) (hpx ▸ hbx) hrx
      (hpy ▸ hby) hry hdest

/-- In every conversation whose steps move processes safely, no rendezvous is missed. -/
theorem no_missed_rendezvous {s : Recorded}
    (h : recorder.ReachableUnder (fun s t => StepConverses s.d t ∧ StepMovesSafely s.d t) s)
    (x y : Slot) :
    ¬ ((s.d.k.proctab x).state = .blocked ∧ (s.d.k.proctab y).state = .blocked ∧
      Rendezvous s.d.k s.h.call x y) := by
  have hinv : recorder.Inductive (fun s t => StepConverses s.d t ∧ StepMovesSafely s.d t) Talks :=
    ⟨fun _ h₀ => (booted_of_init h₀.1).talks, fun _ _ _ hs hc ht => hs.turn hc.1 hc.2 ht⟩
  have hs := hinv.holds h
  rintro ⟨hbx, hby, hr⟩
  have hrx := (hs.toInCall.call_iff hbx (.inl rfl)).mpr hr.sends
  have hry := (hs.toInCall.call_iff hby (.inr (.inl rfl))).mpr hr.receives
  exact hs.met x y hbx hrx hby hry hr.dest hr.source

/-- A run in which the root process creates processes 3 and 4 and, like process 3 after
it, sends to process 4. Process 4 receives from process 3, and then from any process. -/
def missed₁ : Recorded := sampleStart.after (sampleCall .create [0x1400, 0])

@[inherit_doc missed₁]
def missed₂ : Recorded := missed₁.after (sampleCall .create [0x1500, 0])

@[inherit_doc missed₁]
def missed₃ : Recorded :=
  missed₂.after (sampleCall .send [4, 0x60010, 4, 0, 0x64636261])

@[inherit_doc missed₁]
def missed₄ : Recorded :=
  missed₃.after (sampleCallAt 0x61000 .send [4, 0x61010, 4, 0, 0x64636261])

@[inherit_doc missed₁]
def missed₅ : Recorded :=
  missed₄.after (sampleCallAt 0x62000 .recv [0x62010, 0x62100, 8, 0, 3])

@[inherit_doc missed₁]
def missed₆ : Recorded :=
  missed₅.after (sampleCallAt 0x63000 .recv [0x63010, 0x62100, 8, 0, 0])

/-- The words at `A` are all that a sample call stores to, but for the return value of the
process. -/
theorem storeWords_frame {ws : List Word} {m : Bytes} {A w : Word}
    (h : ¬ InRange A (4 * ws.length) w) (hlen : 4 * ws.length < 0x100000000) :
    storeWords A ws m w = m w := by
  induction ws generalizing A m with
  | nil => rfl
  | cons v ws ih =>
      rw [List.length_cons] at h hlen
      have hhead : ¬ InRange A 4 w := by
        intro hx
        refine h (InRange.of_part (d := 0) (k := 4) ?_ ?_)
        · simpa using hx
        · have : (0 : Word).toNat = 0 := rfl
          omega
      have htail : ¬ InRange (A + 4) (4 * ws.length) w := by
        intro hx
        refine h (hx.of_part ?_)
        have : (4 : Word).toNat = 4 := rfl
        omega
      exact (ih htail (by omega)).trans (Bytes.splice_of_not_inRange hhead)

theorem contextswitch_sample {s : Disp} {A w : Word} {req : Request} {ws : List Word}
    (hstack : ¬ InRange ((s.k.proctab s.p).esp + 28) 4 w) (h : ¬ InRange A (4 * ws.length) w)
    (hlen : 4 * ws.length < 0x100000000) :
    (contextswitch s.k s.p (sampleCallAt A req ws)).mem w = s.k.mem w :=
  (storeWords_frame h hlen).trans (Bytes.splice_of_not_inRange hstack)

/-- The blocked processes have made sends, with their arguments at the addresses in
`l`. -/
def OnlySends (k : Kernel) (l : List Word) : Prop :=
  ∀ q, (k.proctab q).state = .blocked →
    (k.proctab q).ret = Request.send.code ∧ (k.proctab q).args ∈ l

/-- None of the words in `l` meets the `n` bytes from `b`. -/
def WordsApart (l : List Word) (b : Word) (n : Nat) : Prop :=
  ∀ A ∈ l, 4 ≤ (b - A).toNat ∧ (b - A).toNat + n ≤ 0x100000000

theorem WordsApart.nil {b : Word} {n : Nat} : WordsApart [] b n := by
  intro A hA
  simp at hA

theorem WordsApart.cons {l : List Word} {A b : Word} {n : Nat} (h₁ : 4 ≤ (b - A).toNat)
    (h₂ : (b - A).toNat + n ≤ 0x100000000) (h : WordsApart l b n) : WordsApart (A :: l) b n := by
  intro B hB
  rcases List.mem_cons.mp hB with rfl | hB
  · exact ⟨h₁, h₂⟩
  · exact h B hB

theorem OnlySends.callWord {l : List Word} {b : Word} {n : Nat} (h : OnlySends k l)
    (hb : (k.proctab q).state = .blocked) (hw : CallWord k q w) (hl : WordsApart l b n) :
    ¬ InRange b n w := by
  obtain ⟨hret, hA⟩ := h q hb
  rcases hw with hw | ⟨hr, -⟩
  · exact Apart.of_le (hl _ hA).1 (hl _ hA).2 w hw
  · rw [hret] at hr
    exact absurd hr (by decide)

/-- A sample call whose words, like the return value, are stored away from those of the
blocked processes, and which finds nobody. -/
theorem StepConverses.of_sample {s : Disp} {A : Word} {req : Request} {ws l : List Word}
    (hl : OnlySends s.k l) (hstack : WordsApart l ((s.k.proctab s.p).esp + 28) 4)
    (hargs : WordsApart l A (4 * ws.length)) (hlen : 4 * ws.length < 0x100000000)
    (hc : Converses (contextswitch s.k s.p (sampleCallAt A req ws)) s.p sampleAmbient
      (sampleCallAt A req ws).cause.request) :
    StepConverses s (sampleCallAt A req ws) where
  user _ hb _ hw :=
    contextswitch_sample (hl.callWord hb hw hstack) (hl.callWord hb hw hargs) hlen
  converses := hc

/-- A request that finds nobody stores to no memory but a new stack. -/
theorem Converses.of_nobody (hreq : req = .send ∨ req = .recv)
    (hs : req = .send → sendPeer k a p = none) (hr : req = .recv → recvPeer k a p = .ok none) :
    Converses k p a req where
  request := by rcases hreq with rfl | rfl <;> simp
  send h r hr' := by rw [hs h] at hr'; cases hr'
  recv h q hq := by rw [hr h] at hq; cases hq
  spares q _ _ w _ hst := by
    rcases hreq with rfl | rfl
    · obtain ⟨r, hr', -⟩ := hst
      rw [hs rfl] at hr'
      cases hr'
    · obtain ⟨r, hr', -⟩ := hst
      rw [hr rfl] at hr'
      cases hr'

/-- A creation while nobody is blocked. -/
theorem StepConverses.of_create {s : Disp} {ws : List Word} (hl : OnlySends s.k []) :
    StepConverses s (sampleCall .create ws) := by
  have hnone : ∀ q, (s.k.proctab q).state ≠ .blocked := fun q hq => by simpa using (hl q hq).2
  exact ⟨fun q hq => absurd hq (hnone q), .inl rfl, nofun, nofun, fun q hq => by
    rw [contextswitch_state] at hq
    exact absurd hq (hnone q)⟩

/-- Only the process that made a call may be blocked by it. -/
theorem OnlySends.turn {s s' : Recorded} {t : Trap} {l l' : List Word} (h : OnlySends s.d.k l)
    (hs : Sound s.d) (hl : ∀ A ∈ l, A ∈ l') (ht : s.turn t = .ok s')
    (hp : (s'.d.k.proctab s.d.p).state = .blocked →
      (s'.d.k.proctab s.d.p).ret = Request.send.code ∧ (s'.d.k.proctab s.d.p).args ∈ l') :
    OnlySends s'.d.k l' := by
  intro q hb
  by_cases hq : q = s.d.p
  · subst hq
    exact hp hb
  obtain ⟨k₂, h₂, htn⟩ := Recorded.turn_cases hs ht
  have hne : q ≠ s'.d.p := by
    rintro rfl
    rw [(hs.turn (Recorded.turn_d ht)).running] at hb
    cases hb
  have hk : s'.d.k.proctab q = k₂.proctab q := by
    rw [htn.loopTop, loopTop_proctab htn.used, if_neg hne]
  rw [hk] at hb ⊢
  obtain ⟨hsame, hst⟩ := htn.served.waiting hne (.inl hb)
  obtain ⟨hst, hret⟩ := hst hq
  rw [hsame.args, hret, contextswitch_proctab, if_neg hq]
  rw [contextswitch_proctab, if_neg hq] at hst
  obtain ⟨h₁, h₂⟩ := h q (hst ▸ hb)
  exact ⟨h₁, hl _ h₂⟩

theorem sampleStart_onlySends : OnlySends sampleStart.d.k [] := by
  have hb := booted_of_init sampleBoot_init
  intro q hq
  have hst := hb.state q
  rw [show sampleBoot.k = sampleStart.d.k from rfl, hq] at hst
  split at hst
  · cases hst
  split at hst <;> cases hst

/-- Every turn of the run succeeds. -/
theorem missed_turns :
    sampleStart.turn (sampleCall .create [0x1400, 0]) = .ok missed₁ ∧
    missed₁.turn (sampleCall .create [0x1500, 0]) = .ok missed₂ ∧
    missed₂.turn (sampleCall .send [4, 0x60010, 4, 0, 0x64636261]) = .ok missed₃ ∧
    missed₃.turn (sampleCallAt 0x61000 .send [4, 0x61010, 4, 0, 0x64636261]) = .ok missed₄ ∧
    missed₄.turn (sampleCallAt 0x62000 .recv [0x62010, 0x62100, 8, 0, 3]) = .ok missed₅ ∧
    missed₅.turn (sampleCallAt 0x63000 .recv [0x63010, 0x62100, 8, 0, 0]) = .ok missed₆ := by
  refine ⟨Run.eq_getD (s := sampleStart) ?_, Run.eq_getD (s := missed₁) ?_,
    Run.eq_getD (s := missed₂) ?_, Run.eq_getD (s := missed₃) ?_,
    Run.eq_getD (s := missed₄) ?_, Run.eq_getD (s := missed₅) ?_⟩
  all_goals decide +kernel

theorem missed₁_turn : sampleStart.turn (sampleCall .create [0x1400, 0]) = .ok missed₁ :=
  missed_turns.1

theorem missed₂_turn : missed₁.turn (sampleCall .create [0x1500, 0]) = .ok missed₂ :=
  missed_turns.2.1

theorem missed₃_turn :
    missed₂.turn (sampleCall .send [4, 0x60010, 4, 0, 0x64636261]) = .ok missed₃ :=
  missed_turns.2.2.1

theorem missed₄_turn :
    missed₃.turn (sampleCallAt 0x61000 .send [4, 0x61010, 4, 0, 0x64636261]) = .ok missed₄ :=
  missed_turns.2.2.2.1

theorem missed₅_turn :
    missed₄.turn (sampleCallAt 0x62000 .recv [0x62010, 0x62100, 8, 0, 3]) = .ok missed₅ :=
  missed_turns.2.2.2.2.1

theorem missed₆_turn :
    missed₅.turn (sampleCallAt 0x63000 .recv [0x63010, 0x62100, 8, 0, 0]) = .ok missed₆ :=
  missed_turns.2.2.2.2.2

/-- The processes that go on running: those that create and the one that receives. -/
theorem missed_running :
    (missed₁.d.k.proctab sampleStart.d.p).state = .running ∧
    (missed₂.d.k.proctab missed₁.d.p).state = .running ∧
    (missed₄.d.k.proctab missed₄.d.p).state = .running ∧
    (missed₅.d.k.proctab missed₄.d.p).state = .running := by
  refine ⟨?_, ?_, ?_, ?_⟩ <;> decide +kernel

/-- What the two sends leave in the senders' pcbs, and the stacks of the callers after
them. -/
theorem missed_senders :
    (missed₃.d.k.proctab missed₂.d.p).ret = Request.send.code ∧
    (missed₃.d.k.proctab missed₂.d.p).args = 0x60000 ∧
    (missed₄.d.k.proctab missed₃.d.p).ret = Request.send.code ∧
    (missed₄.d.k.proctab missed₃.d.p).args = 0x61000 ∧
    (missed₃.d.k.proctab missed₃.d.p).esp = 233440 ∧
    (missed₄.d.k.proctab missed₄.d.p).esp = 274400 ∧
    (missed₅.d.k.proctab missed₅.d.p).esp = 327680 := by
  refine ⟨?_, ?_, ?_, ?_, ?_, ?_, ?_⟩ <;> decide +kernel

/-- The sends and the last receive find nobody. -/
theorem missed_nobody :
    sendPeer (contextswitch missed₂.d.k missed₂.d.p
      (sampleCall .send [4, 0x60010, 4, 0, 0x64636261])) sampleAmbient missed₂.d.p = none ∧
    sendPeer (contextswitch missed₃.d.k missed₃.d.p
      (sampleCallAt 0x61000 .send [4, 0x61010, 4, 0, 0x64636261])) sampleAmbient missed₃.d.p
      = none ∧
    recvPeer (contextswitch missed₅.d.k missed₅.d.p
      (sampleCallAt 0x63000 .recv [0x63010, 0x62100, 8, 0, 0])) sampleAmbient missed₅.d.p
      = .ok none := by
  refine ⟨?_, ?_, ?_⟩ <;> decide +kernel

/-- The two creations and the first send of the run. -/
theorem missed₃_reachable {C : Recorded → Trap → Prop}
    (h₁ : C sampleStart (sampleCall .create [0x1400, 0]))
    (h₂ : C missed₁ (sampleCall .create [0x1500, 0]))
    (h₃ : C missed₂ (sampleCall .send [4, 0x60010, 4, 0, 0x64636261])) :
    recorder.ReachableUnder C missed₃ :=
  ((sampleStart_reachable.tail h₁ missed₁_turn).tail h₂ missed₂_turn).tail h₃ missed₃_turn

theorem missed₁_onlySends : OnlySends missed₁.d.k [] := by
  refine sampleStart_onlySends.turn (Recorded.sound_of_reachable sampleStart_reachable)
    (fun _ h => h) missed₁_turn fun hb => ?_
  rw [missed_running.1] at hb
  cases hb

theorem missed₂_onlySends : OnlySends missed₂.d.k [] := by
  have hr : recorder.Reachable missed₁ := sampleStart_reachable.tail trivial missed₁_turn
  refine missed₁_onlySends.turn (Recorded.sound_of_reachable hr) (fun _ h => h) missed₂_turn
    fun hb => ?_
  rw [missed_running.2.1] at hb
  cases hb

/-- The sends are steps of a conversation. -/
theorem missed_send₃ : StepConverses missed₂.d
    (sampleCall .send [4, 0x60010, 4, 0, 0x64636261]) := by
  refine .of_sample missed₂_onlySends .nil .nil (by decide) ?_
  refine .of_nobody (.inl rfl) (fun _ => missed_nobody.1) fun h => ?_
  cases h

theorem missed₃_converses : recorder.ReachableUnder (fun s t => StepConverses s.d t) missed₃ :=
  missed₃_reachable (.of_create sampleStart_onlySends) (.of_create missed₁_onlySends) missed_send₃

theorem missed₃_onlySends : OnlySends missed₃.d.k [0x60000] := by
  obtain ⟨hret, hargs, -⟩ := missed_senders
  have hr : recorder.Reachable missed₂ :=
    (sampleStart_reachable.tail trivial missed₁_turn).tail trivial missed₂_turn
  exact missed₂_onlySends.turn (Recorded.sound_of_reachable hr) (by simp) missed₃_turn
    fun _ => ⟨hret, List.mem_singleton.mpr hargs⟩

@[inherit_doc missed_send₃]
theorem missed_send₄ : StepConverses missed₃.d
    (sampleCallAt 0x61000 .send [4, 0x61010, 4, 0, 0x64636261]) := by
  obtain ⟨-, -, -, -, hesp, -, -⟩ := missed_senders
  refine .of_sample missed₃_onlySends ?_ ?_ (by decide) ?_
  · rw [hesp]
    exact .cons (by decide) (by decide) .nil
  · exact .cons (by decide) (by decide) .nil
  · refine .of_nobody (.inl rfl) (fun _ => missed_nobody.2.1) fun h => ?_
    cases h

theorem missed₄_converses : recorder.ReachableUnder (fun s t => StepConverses s.d t) missed₄ :=
  missed₃_converses.tail missed_send₄ missed₄_turn

theorem missed₄_onlySends : OnlySends missed₄.d.k [0x60000, 0x61000] := by
  obtain ⟨-, -, hret, hargs, -⟩ := missed_senders
  refine missed₃_onlySends.turn (Recorded.sound_of_reachable missed₃_converses.reachable)
    (fun A hA => ?_) missed₄_turn fun _ =>
      ⟨hret, List.mem_cons.mpr (.inr (List.mem_singleton.mpr hargs))⟩
  exact List.mem_cons.mpr (.inl (List.mem_singleton.mp hA))

/-- Process 4 receives from the process with pid `f`. -/
abbrev sampleRecv (f : Word) : Trap := sampleCallAt 0x62000 .recv [0x62010, 0x62100, 8, 0, f]

/-- A receive from the root process or process 3 finds the sender. -/
theorem missed_peers {f : Word} {q : Slot} (hf : f = 1 ∧ q = 1 ∨ f = 3 ∧ q = 3) :
    recvPeer (contextswitch missed₄.d.k missed₄.d.p (sampleRecv f)) sampleAmbient missed₄.d.p
      = .ok (some q) ∧
    0 < (passMessage (contextswitch missed₄.d.k missed₄.d.p (sampleRecv f)) q missed₄.d.p).1 ∧
    (contextswitch missed₄.d.k missed₄.d.p (sampleRecv f)).arg missed₄.d.p 0 = 0x62010 ∧
    (contextswitch missed₄.d.k missed₄.d.p (sampleRecv f)).arg missed₄.d.p 1 = 0x62100 ∧
    (contextswitch missed₄.d.k missed₄.d.p (sampleRecv f)).arg missed₄.d.p 2 = 8 := by
  rcases hf with ⟨rfl, rfl⟩ | ⟨rfl, rfl⟩ <;> refine ⟨?_, ?_, ?_, ?_, ?_⟩ <;> decide +kernel

/-- It is a step of a conversation. -/
theorem missed_receive {f : Word} {q : Slot} (hf : f = 1 ∧ q = 1 ∨ f = 3 ∧ q = 3) :
    StepConverses missed₄.d (sampleRecv f) := by
  obtain ⟨-, -, -, -, -, hesp, -⟩ := missed_senders
  obtain ⟨hpeer, hmsg, h₀, h₁, h₂⟩ := missed_peers hf
  refine .of_sample missed₄_onlySends ?_ ?_ (by simp) ?_
  · rw [hesp]
    exact .cons (by decide) (by decide) (.cons (by decide) (by decide) .nil)
  · exact .cons (by decide) (by simp) (.cons (by decide) (by simp) .nil)
  refine ⟨.inr (.inr (.inr (.inl rfl))), fun h => ?_, fun _ r hr => ?_, fun r hb _ w hw hst => ?_⟩
  · cases h
  · rw [hpeer, Except.ok.injEq, Option.some.injEq] at hr
    subst hr
    exact passMessage_pos.mp hmsg
  · obtain ⟨-, -, hw'⟩ := hst
    rw [h₀, h₁, h₂] at hw'
    rw [contextswitch_state] at hb
    have hne : r ≠ missed₄.d.p := by
      intro hr
      rw [hr, missed_running.2.2.1] at hb
      cases hb
    obtain ⟨hret, hA⟩ := missed₄_onlySends r hb
    have hcall : InRange (missed₄.d.k.proctab r).args 4 w := by
      rcases hw with hw | ⟨hr, -⟩
      · rwa [contextswitch_proctab, if_neg hne] at hw
      · rw [contextswitch_proctab, if_neg hne, hret] at hr
        exact absurd hr (by decide)
    generalize (missed₄.d.k.proctab r).args = A at hA hcall
    simp only [List.mem_cons, List.not_mem_nil, or_false] at hA
    rcases hw' with hw' | hw' <;> rcases hA with rfl | rfl <;>
      exact Apart.of_le (by decide) (by decide) w hcall hw'

/-- Process 4 gets the message of process 3. -/
theorem missed₅_converses :
    recorder.ReachableUnder (fun s t => StepConverses s.d t) missed₅ :=
  missed₄_converses.tail (missed_receive (.inr ⟨rfl, rfl⟩)) missed₅_turn

theorem missed₅_onlySends : OnlySends missed₅.d.k [0x60000, 0x61000] := by
  refine missed₄_onlySends.turn (Recorded.sound_of_reachable missed₄_converses.reachable)
    (fun _ h => h) missed₅_turn fun hb => ?_
  rw [missed_running.2.2.2] at hb
  cases hb

/-- All steps of the run are those of a conversation. -/
theorem missed₆_converses :
    recorder.ReachableUnder (fun s t => StepConverses s.d t) missed₆ := by
  obtain ⟨-, -, -, -, -, -, hesp⟩ := missed_senders
  refine missed₅_converses.tail ?_ missed₆_turn
  refine .of_sample missed₅_onlySends ?_ ?_ (by decide) ?_
  · rw [hesp]
    exact .cons (by decide) (by decide) (.cons (by decide) (by decide) .nil)
  · exact .cons (by decide) (by decide) (.cons (by decide) (by decide) .nil)
  · refine .of_nobody (.inr rfl) (fun h => ?_) fun _ => missed_nobody.2.2
    cases h

/-- At the end of that run the root process is blocked in its send to process 4, and
process 4 in a receive from any process. -/
theorem rendezvous_missed :
    ¬ ∀ s, recorder.ReachableUnder (fun s t => StepConverses s.d t) s → ∀ x y,
      ¬ ((s.d.k.proctab x).state = .blocked ∧ (s.d.k.proctab y).state = .blocked ∧
        Rendezvous s.d.k s.h.call x y) := by
  intro h
  have hx : (missed₆.d.k.proctab 1).state = .blocked := by decide +kernel
  have hy : (missed₆.d.k.proctab 4).state = .blocked := by decide +kernel
  have hsend : missed₆.h.call 1 = some (.send, (missed₆.d.k.proctab 1).args) := by
    decide +kernel
  have hrecv : missed₆.h.call 4 = some (.recv, (missed₆.d.k.proctab 4).args) := by
    decide +kernel
  have hdest : missed₆.d.k.arg 1 0 = (missed₆.d.k.proctab 4).pid := by decide +kernel
  have hfrom : missed₆.d.k.mem.word (missed₆.d.k.arg 4 0) = 0 := by decide +kernel
  exact h missed₆ missed₆_converses 1 4 ⟨hx, hy, hsend, hdest, hrecv, .inl hfrom⟩

/-- Another run from the same sends: process 4 receives from the root process, which is at
the head of `blocked_q`, and then from the root process again. -/
def taken₅ : Recorded := missed₄.after (sampleRecv 1)

@[inherit_doc taken₅]
def taken₆ : Recorded := taken₅.after (sampleCallAt 0x63000 .recv [0x63010, 0x62100, 8, 0, 1])

/-- Both receives come back, and the second one finds nobody. -/
theorem taken_turns : missed₄.turn (sampleRecv 1) = .ok taken₅ ∧
    taken₅.turn (sampleCallAt 0x63000 .recv [0x63010, 0x62100, 8, 0, 1]) = .ok taken₆ ∧
    recvPeer (contextswitch taken₅.d.k taken₅.d.p
      (sampleCallAt 0x63000 .recv [0x63010, 0x62100, 8, 0, 1])) sampleAmbient taken₅.d.p
      = .ok none ∧
    (contextswitch missed₄.d.k missed₄.d.p (sampleRecv 1)).blockedQ
      = some (released (contextswitch missed₄.d.k missed₄.d.p (sampleRecv 1)) missed₄.d.p 1) ∧
    (taken₅.d.k.proctab missed₄.d.p).state = .running ∧
    (taken₅.d.k.proctab taken₅.d.p).esp = 327680 := by
  refine ⟨Run.eq_getD (s := missed₄) ?_, Run.eq_getD (s := taken₅) ?_, ?_, ?_, ?_, ?_⟩ <;>
    decide +kernel

/-- The second receive is a step of a conversation, too. -/
theorem taken_receive : StepConverses taken₅.d
    (sampleCallAt 0x63000 .recv [0x63010, 0x62100, 8, 0, 1]) := by
  obtain ⟨hturn, -, hnobody, -, hrun, hesp⟩ := taken_turns
  have hl : OnlySends taken₅.d.k [0x60000, 0x61000] := by
    refine missed₄_onlySends.turn (Recorded.sound_of_reachable missed₄_converses.reachable)
      (fun _ h => h) hturn fun hb => ?_
    rw [hrun] at hb
    cases hb
  refine .of_sample hl ?_ ?_ (by decide) ?_
  · rw [hesp]
    exact .cons (by decide) (by decide) (.cons (by decide) (by decide) .nil)
  · exact .cons (by decide) (by decide) (.cons (by decide) (by decide) .nil)
  · refine .of_nobody (.inr rfl) (fun h => ?_) fun _ => hnobody
    cases h

/-- A receive that finds nobody, or the head of `blocked_q`, moves safely. -/
theorem MovesSafely.of_recv {q : Option Slot} (hi : p ≠ slotOf k.idleprocPid)
    (hq : recvPeer k a p = .ok q) (hfirst : ∀ r ∈ q, k.blockedQ = some (released k p r)) :
    MovesSafely k p a .recv where
  idle h := absurd h hi
  create := nofun
  stop := nofun
  send := nofun
  recv _ r hr _ := .inr (hfirst r (Option.mem_def.mpr (Except.ok.inj (hq.symm.trans hr))))
  sigkill := nofun
  keyboard := nofun

/-- At the end of that run processes 3 and 4 are blocked, in a send to process 4 and in a
receive from the root process; that is no rendezvous. -/
theorem no_missed_rendezvous_of_taken :
    taken₆.h.call 3 = some (.send, (taken₆.d.k.proctab 3).args) ∧
    taken₆.h.call 4 = some (.recv, (taken₆.d.k.proctab 4).args) ∧
    (taken₆.d.k.proctab 3).state = .blocked ∧ (taken₆.d.k.proctab 4).state = .blocked ∧
    ¬ ((taken₆.d.k.proctab 3).state = .blocked ∧ (taken₆.d.k.proctab 4).state = .blocked ∧
      Rendezvous taken₆.d.k taken₆.h.call 3 4) := by
  obtain ⟨hturn₅, hturn₆, hnobody, hfirst, -, -⟩ := taken_turns
  have h₁ : StepMovesSafely sampleStart.d (sampleCall .create [0x1400, 0]) :=
    .of_create (by decide +kernel) (by decide +kernel)
  have h₂ : StepMovesSafely missed₁.d (sampleCall .create [0x1500, 0]) :=
    .of_create (by decide +kernel) (by decide +kernel)
  have h₃ : StepMovesSafely missed₂.d (sampleCall .send [4, 0x60010, 4, 0, 0x64636261]) :=
    .of_send (by decide +kernel) missed_nobody.1
  have h₄ : StepMovesSafely missed₃.d
      (sampleCallAt 0x61000 .send [4, 0x61010, 4, 0, 0x64636261]) :=
    .of_send (by decide +kernel) missed_nobody.2.1
  have h₅ : StepMovesSafely missed₄.d (sampleRecv 1) :=
    .of_recv (by decide +kernel) (missed_peers (.inl ⟨rfl, rfl⟩)).1 fun r hr => by
      obtain rfl : 1 = r := Option.some.inj hr
      exact hfirst
  have h₆ : StepMovesSafely taken₅.d (sampleCallAt 0x63000 .recv [0x63010, 0x62100, 8, 0, 1]) :=
    .of_recv (by decide +kernel) hnobody nofun
  have hreach : recorder.ReachableUnder
      (fun s t => StepConverses s.d t ∧ StepMovesSafely s.d t) taken₆ := by
    refine .tail (.tail (.tail (missed₃_reachable ?_ ?_ ⟨missed_send₃, h₃⟩) ?_ missed₄_turn) ?_
      hturn₅) ⟨taken_receive, h₆⟩ hturn₆
    · exact ⟨.of_create sampleStart_onlySends, h₁⟩
    · exact ⟨.of_create missed₁_onlySends, h₂⟩
    · exact ⟨missed_send₄, h₄⟩
    · exact ⟨missed_receive (.inl ⟨rfl, rfl⟩), h₅⟩
  refine ⟨?_, ?_, ?_, ?_, no_missed_rendezvous hreach 3 4⟩ <;> decide +kernel

end Xeros
