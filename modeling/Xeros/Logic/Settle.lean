import Xeros.Logic.Calls
import Xeros.Logic.Copy

/-!
# How a send and a receive end

A send that finds its receiver blocked, and a receive that finds its sender blocked,
come back with the same result: the message is passed, and both processes are made ready
or, if no byte was passed, both are blocked. One that finds nobody blocks.
-/

namespace Xeros

open Lib

variable {k k' k₁ k₂ : Kernel} {a : Ambient} {p q r s z : Slot} {fuel : Nat}

/-! ## Blocking -/

/-- `blocked_q` is a list of exactly the blocked processes. -/
def BlockedListed (k : Kernel) : Prop :=
  ∃ B, Chain k.link k.blockedQ B ∧ B.Nodup ∧ ∀ q, q ∈ B ↔ (k.proctab q).state = .blocked

theorem BlockedListed.congr (h : BlockedListed k) (hlink : k'.link = k.link)
    (hq : k'.blockedQ = k.blockedQ) (hst : ∀ q, (k'.proctab q).state = (k.proctab q).state) :
    BlockedListed k' := by
  obtain ⟨B, hc, hn, hb⟩ := h
  exact ⟨B, by rwa [hlink, hq], hn, fun q => by rw [hst, hb]⟩

/-- A list without duplicates is no longer than the process table. -/
theorem length_le_maxProc {l : List Slot} (h : l.Nodup) : l.length ≤ maxProc := by
  simpa using h.length_le_card

/-- The waiting of a process that is not blocked succeeds. -/
theorem BlockedListed.block (h : BlockedListed k) (hp : (k.proctab p).state ≠ .blocked)
    (hf : maxProc < fuel) (code : Word) :
    ∃ k', block k fuel p code = .ok k' ∧ Relinked (k.upd p fun c => c.toBlock code) k' ∧
      BlockedListed k' := by
  obtain ⟨B, hc, hn, hb⟩ := h
  have hpB : p ∉ B := fun hm => hp ((hb p).mp hm)
  have hlink : (k.upd p fun c => c.toBlock code).link = k.link := by
    funext q
    by_cases hq : q = p
    · subst hq
      simp [Kernel.link, Pcb.toBlock]
    · simp [Kernel.link, hq]
  have hc₁ : Chain (k.upd p fun c => c.toBlock code).link
      (QRef.blockedQ.get (k.upd p fun c => c.toBlock code)) B := by
    rw [hlink]
    exact hc
  obtain ⟨k', hk'⟩ := append_ok hc₁ hpB (Nat.lt_of_le_of_lt (length_le_maxProc hn) hf)
  have hrel := Relinked.append hk'
  refine ⟨k', hk', hrel, B ++ [p], append_chain hc₁ hn hpB hk', ?_, fun q => ?_⟩
  · rw [← List.concat_eq_append]
    exact hn.concat hpB
  · rw [hrel.state, List.mem_append, List.mem_singleton, hb]
    by_cases hq : q = p
    · subst hq
      simp [Pcb.toBlock]
    · simp [hq]

/-! ## Releasing -/

/-- Making a process ready keeps `blocked_q` finite: the process is linked behind the
tail of the ready queue, wherever that is. -/
theorem readied_chain {B : List Slot} (hc : Chain k.link k.blockedQ B) (hn : B.Nodup)
    (hp : p ∉ B) :
    ∃ B', Chain (readied k p).link (readied k p).blockedQ B' ∧ B'.length ≤ B.length + 1 := by
  have hc₁ : Chain (k.upd p fun c => (c.setNext none).setState .ready).link k.blockedQ B := by
    refine hc.congr fun q hq => ?_
    have hqp : q ≠ p := by
      rintro rfl
      exact hp hq
    simp [Kernel.link, hqp]
  have hnone : (k.upd p fun c => (c.setNext none).setState .ready).link p = none := by
    simp [Kernel.link]
  unfold readied
  dsimp only
  split
  · exact ⟨B, hc₁, Nat.le_succ _⟩
  unfold enqueue
  generalize hk₁ : (k.upd p fun c => (c.setNext none).setState .ready) = k₁ at hc₁ hnone
  have hq₁ : k₁.blockedQ = k.blockedQ := hk₁ ▸ rfl
  split
  · rename_i t _
    by_cases ht : t ∈ B
    · -- the tail is in `blocked_q`, which now ends with it and the process
      obtain ⟨l₁, l₂, rfl⟩ := List.append_of_mem ht
      have htp : p ≠ t := by
        rintro rfl
        exact hp ht
      have hsplit : l₁ ++ t :: l₂ = l₁ ++ [t] ++ l₂ := by simp
      rw [hsplit] at hc₁
      obtain ⟨m, h₁, -⟩ := Seg.append_iff.mp hc₁
      obtain ⟨h₁, -⟩ := Seg.snoc_iff.mp h₁
      refine ⟨l₁ ++ [t] ++ [p], ?_, by simp⟩
      show Chain (k₁.upd t fun c => c.setNext (some p)).link k₁.blockedQ _
      rw [hq₁]
      refine Seg.snoc_iff.mpr ⟨Seg.snoc_iff.mpr ⟨h₁.congr fun q hq => ?_, ?_⟩, ?_⟩
      · have hqt : q ≠ t := by
          rintro rfl
          exact (List.nodup_append.mp hn).2.2 q hq q List.mem_cons_self rfl
        simp [Kernel.link, hqt]
      · simp [Kernel.link]
      · simpa [Kernel.link, htp] using hnone
    · refine ⟨B, ?_, Nat.le_succ _⟩
      show Chain (k₁.upd t fun c => c.setNext (some p)).link k₁.blockedQ _
      rw [hq₁]
      refine hc₁.congr fun q hq => ?_
      have hqt : q ≠ t := by
        rintro rfl
        exact ht hq
      simp [Kernel.link, hqt]
  · refine ⟨B, ?_, Nat.le_succ _⟩
    show Chain k₁.link k₁.blockedQ _
    rw [hq₁]
    exact hc₁

/-- The end of a rendezvous succeeds, and both processes are ready. -/
theorem BlockedListed.release (h : BlockedListed k) (hp : k.Used p) (hz : k.Used z)
    (hst : (k.proctab p).state ≠ .blocked) (hb : (k.proctab z).state = .blocked)
    (hf : maxProc + 1 < fuel) :
    ∃ k₁ k₂ n k', ready k p = .ok k₁ ∧
      remove k₁ fuel (getQ (k₁.proctab z).state) (k₁.proctab z).pid = .ok (k₂, n) ∧
      ready k₂ z = .ok k' ∧ k'.mem = k.mem ∧ (∀ q, (k'.proctab q).ret = (k.proctab q).ret) ∧
      (k'.proctab p).state = .ready ∧ (k'.proctab z).state = .ready := by
  obtain ⟨B, hc, hn, hB⟩ := h
  have hpz : p ≠ z := by
    rintro rfl
    exact hst hb
  have hr₁ := Relinked.readied k p
  obtain ⟨B', hc', hlen⟩ := readied_chain hc hn fun hm => hst ((hB p).mp hm)
  have hz₁ : ((readied k p).proctab z).state = .blocked := by
    rw [hr₁.state, Kernel.upd_proctab_ne _ _ _ hpz.symm]
    exact hb
  have hmax := length_le_maxProc hn
  obtain ⟨k₂, n, hk₂⟩ : ∃ k₂ n, removeLoop .blockedQ ((readied k p).proctab z).pid fuel
      (readied k p) (readied k p).blockedQ = .ok (k₂, n) :=
    removeLoop_ok hc' (by omega)
  have hr₂ := Relinked.removeLoop hk₂
  have hz₂ : k₂.Used z := (hz.congr (readied_pid k p z)).congr (hr₂.pid z)
  have hr₃ := Relinked.readied k₂ z
  refine ⟨readied k p, k₂, n, readied k₂ z, ready_of_used hp, ?_, ready_of_used hz₂, ?_,
    fun q => ?_, ?_, readied_state k₂ z⟩
  · rw [hz₁]
    exact hk₂
  · rw [hr₃.mem]
    exact hr₂.mem.trans hr₁.mem
  · have hret : ∀ (k : Kernel) (x q : Slot),
        ((k.upd x fun c => (c.setNext none).setState .ready).proctab q).ret
          = (k.proctab q).ret := by
      intro k x q
      by_cases hq : q = x
      · subst hq
        simp
      · simp [hq]
    rw [hr₃.ret, hret, hr₂.ret, hr₁.ret, hret]
  · rw [hr₃.state, Kernel.upd_proctab_ne _ _ _ hpz, hr₂.state, hr₁.state,
      Kernel.upd_proctab_self]
    rfl

/-! ## Looking for the peer -/

theorem stateOfPid_of_used (hu : k.Used q) :
    stateOfPid k a (k.proctab q).pid.toInt = (k.proctab q).state := by
  have hlt := hu.2.2
  have hi : (k.proctab q).pid.toInt.tmod maxProc
      = (((k.proctab q).pid.toNat % maxProc : Nat) : Int) := by
    rw [BitVec.toInt_eq_toNat_of_lt (by omega), Int.tmod_eq_emod_of_nonneg (by omega)]
    exact (Int.natCast_mod _ _).symm
  have hval : (k.proctab q).pid.toNat % maxProc = q.val := congrArg Fin.val hu.2.1
  rw [hval] at hi
  unfold stateOfPid
  dsimp only
  rw [dif_pos ⟨by rw [hi]; exact Int.natCast_nonneg _, by rw [hi]; exact q.isLt⟩]
  congr 2
  exact Fin.ext (congrArg Int.toNat hi)

/-- The checks of a call that names a live peer, or no process, and a valid buffer
succeed. -/
theorem validatePeer_eq {pid buf : Word} {len : Int} (hp : k.Used p)
    (hpid : pid = 0 ∨ pid = (k.proctab q).pid) (hq : k.Used q) (hlive : (k.proctab q).alive)
    (hpq : p ≠ q) (hbuf : validateBuffer k buf len = 0) :
    validatePeer k a p pid buf len = (0, k) := by
  have hvalid : valid k a pid.toInt = true := by
    unfold valid
    rcases hpid with rfl | rfl
    · simp
    · rw [stateOfPid_of_used hq]
      have hne : ¬ ((k.proctab q).state = .stopped ∨ (k.proctab q).state = .dead) := by
        rintro (h | h)
        · exact hlive.1 h
        · exact hlive.2 h
      simp [hne]
  have hself : (k.proctab p).pid ≠ pid := by
    rcases hpid with rfl | rfl
    · exact hp.pid_ne_zero
    · exact fun h => hpq (hp.inj hq h)
  unfold validatePeer
  rw [if_neg (by simp [hvalid]), if_neg hself, hbuf]

/-- The walk of `recv` finds the only blocked process whose first argument is the pid of
`p`. -/
theorem recvScan_finds {l : List Slot} {x : Option Slot} (hc : Chain k.link x l) (hs : s ∈ l)
    (hf : l.length < fuel) (hpid : (k.proctab s).pid ≠ (k.proctab p).pid)
    (harg : k.arg s 0 = (k.proctab p).pid)
    (honly : ∀ q ∈ l, q ≠ s → k.arg q 0 ≠ (k.proctab p).pid) :
    recvScan k p fuel x = .ok (.found s) := by
  induction fuel generalizing x l with
  | zero => simp at hf
  | succ fuel ih =>
      cases l with
      | nil => simp at hs
      | cons b l =>
          obtain ⟨rfl, hc'⟩ := hc
          simp only [recvScan]
          have hrest : b ≠ s → recvScan k p fuel (k.proctab b).next = .ok (.found s) := by
            intro hb
            refine ih hc' ((List.mem_cons.mp hs).resolve_left (Ne.symm hb)) ?_ ?_
            · simpa using hf
            · exact fun q hq => honly q (List.mem_cons_of_mem _ hq)
          by_cases hb : b = s
          · subst hb
            rw [if_neg hpid, if_pos harg]
            rfl
          · split
            · exact hrest hb
            · rw [if_neg (honly b List.mem_cons_self hb)]
              exact hrest hb

/-- The walk of `recv` finds nobody if no process in the queue has the pid of `p` as its
first argument. -/
theorem recvScan_waits {l : List Slot} {x : Option Slot} (hc : Chain k.link x l)
    (hf : l.length < fuel) (hnone : ∀ q ∈ l, k.arg q 0 ≠ (k.proctab p).pid) :
    recvScan k p fuel x = .ok .wait := by
  induction fuel generalizing x l with
  | zero => simp at hf
  | succ fuel ih =>
      cases x with
      | none => rfl
      | some b =>
          obtain ⟨l', rfl, hc'⟩ := Chain.some_iff.mp hc
          simp only [recvScan]
          rw [if_neg (hnone b List.mem_cons_self), ite_self]
          exact ih hc' (by simpa using hf) fun q hq => hnone q (List.mem_cons_of_mem _ hq)

/-! ## Finding nobody -/

/-- A send whose receiver does not wait blocks. -/
theorem sysSend_waits (h : BlockedListed k) (hp : (k.proctab p).state ≠ .blocked)
    (hf : maxProc < a.fuel)
    (hv : validateSend k a p (k.arg p 0) (k.arg p 1) (k.arg p 2).toInt = (0, k))
    (hm : sendMatch k p (k.arg p 0) = .wait) :
    ∃ k', sysSend k p a = .ok k' ∧
      Relinked (k.upd p fun c => c.toBlock Request.send.code) k' ∧ BlockedListed k' := by
  have hsend : send k a (k.arg p 0) (k.arg p 1) (k.arg p 2).toInt p = (0, k) := by
    unfold send
    simp [hv, hm]
  obtain ⟨k', hk', hrest⟩ := h.block hp hf Request.send.code
  refine ⟨k', ?_, hrest⟩
  unfold sysSend
  simpa [hsend] using hk'

/-- A receive whose sender does not wait blocks. -/
theorem sysRecv_waits (h : BlockedListed k) (hp : (k.proctab p).state ≠ .blocked)
    (hf : maxProc < a.fuel)
    (hv : validateRecv k a p (k.mem.word (k.arg p 0)) (k.arg p 1) (k.arg p 2).toInt = (0, k))
    (hm : recvMatch k a.fuel p (k.mem.word (k.arg p 0)) = .ok .wait) :
    ∃ k', sysRecv k p a = .ok k' ∧
      Relinked (k.upd p fun c => c.toBlock Request.recv.code) k' ∧ BlockedListed k' := by
  have hrecv : recv k a (k.arg p 0) (k.arg p 1) (k.arg p 2).toInt p = .ok (0, k) := by
    unfold recv
    simp [hv, hm, bind, Except.bind, pure, Except.pure]
  obtain ⟨k', hk', hrest⟩ := h.block hp hf Request.recv.code
  refine ⟨k', ?_, hrest⟩
  unfold sysRecv
  simpa [hrecv, bind, Except.bind] using hk'

/-! ## Finding the peer -/

/-- The message of `s` has been passed to `r`, and both are ready if it was not empty
and blocked if it was. -/
structure Completed (k k' : Kernel) (s r : Slot) : Prop where
  mem : k'.mem = (passMessage k s r).2
  passed : 0 < (passMessage k s r).1 →
    (k'.proctab s).ret = toWord (passMessage k s r).1 ∧ (k'.proctab s).state = .ready ∧
      (k'.proctab r).ret = toWord (passMessage k s r).1 ∧ (k'.proctab r).state = .ready
  empty : (passMessage k s r).1 = 0 →
    (k'.proctab s).ret = Request.send.code ∧ (k'.proctab s).state = .blocked ∧
      (k'.proctab r).ret = Request.recv.code ∧ (k'.proctab r).state = .blocked

/-- A receive with a peer passes the message. -/
theorem recv_of_peer (h : recvPeer k a p = .ok (some q)) :
    recv k a (k.arg p 0) (k.arg p 1) (k.arg p 2).toInt p
      = .ok (((passMessage k q p).1 : Int), k.setMem (passMessage k q p).2) := by
  unfold recvPeer at h
  split at h
  · cases h
  · rename_i hneg
    simp only [Run.bind_eq_ok] at h
    obtain ⟨m, hm, h⟩ := h
    cases m with
    | refuse rc => cases h
    | wait => cases h
    | found r =>
        cases h
        unfold recv
        dsimp only
        rw [if_neg hneg, show (validateRecv k a p (k.mem.word (k.arg p 0)) (k.arg p 1)
          (k.arg p 2).toInt).2 = k from validatePeer_ok hneg, hm]
        rfl

/-- The result of a call that is made ready: both processes find the same number. -/
theorem answered_ret (k : Kernel) (p q : Slot) (n : Int) :
    ((answered k p q n).proctab p).ret = toWord n ∧ ((answered k p q n).proctab q).ret = toWord n := by
  by_cases hpq : p = q
  · subst hpq
    simp [answered, Kernel.setRet]
  · simp [answered, Kernel.setRet, hpq]

/-- A rendezvous that passes bytes: both processes get their number and are made ready. -/
theorem BlockedListed.answer (h : BlockedListed k) (hp : k.Used p) (hz : k.Used z)
    (hst : (k.proctab p).state ≠ .blocked) (hb : (k.proctab z).state = .blocked)
    (hf : maxProc + 1 < fuel) (m : Bytes) (n : Int) :
    ∃ k₁ k₂ i k', ready (answered (k.setMem m) p z n) p = .ok k₁ ∧ (k₁.proctab z).pid ≠ 0 ∧
      remove k₁ fuel (getQ (k₁.proctab z).state) (k₁.proctab z).pid = .ok (k₂, i) ∧
      ready k₂ z = .ok k' ∧ k'.mem = m ∧
      ((k'.proctab p).ret = toWord n ∧ (k'.proctab p).state = .ready) ∧
      (k'.proctab z).ret = toWord n ∧ (k'.proctab z).state = .ready := by
  have hun : Unmoved k (answered (k.setMem m) p z n) :=
    (Unmoved.setMem k m).trans (.answered _ p z n)
  have hans := answered_ret (k.setMem m) p z n
  obtain ⟨k₁, k₂, i, k', h₁, h₂, h₃, hm, hret, hp', hz'⟩ :=
    (h.congr (funext hun.next) (hun.first .blocked) hun.state).release (hun.used hp)
      (hun.used hz) (by rwa [hun.state]) (by rwa [hun.state]) hf
  have hpid : (k₁.proctab z).pid ≠ 0 := by
    rw [ready_of_used (hun.used hp), Except.ok.injEq] at h₁
    rw [← h₁, readied_pid, hun.pid]
    exact hz.pid_ne_zero
  refine ⟨k₁, k₂, i, k', h₁, hpid, h₂, h₃, hm, ⟨?_, hp'⟩, ?_, hz'⟩
  · rw [hret]
    exact hans.1
  · rw [hret]
    exact hans.2

/-- A rendezvous that passes no byte: the caller is blocked too, and the process that waits
goes on waiting. -/
theorem BlockedListed.wait (h : BlockedListed k) (hst : (k.proctab p).state ≠ .blocked)
    (hb : (k.proctab z).state = .blocked) (hf : maxProc < fuel) (m : Bytes) (code : Word) :
    ∃ k', Xeros.block (k.setMem m) fuel p code = .ok k' ∧ k'.mem = m ∧
      ((k'.proctab p).ret = code ∧ (k'.proctab p).state = .blocked) ∧
      (k'.proctab z).ret = (k.proctab z).ret ∧ (k'.proctab z).state = .blocked := by
  have hzp : z ≠ p := by
    rintro rfl
    exact hst hb
  have hl : BlockedListed (k.setMem m) := h.congr rfl rfl fun _ => rfl
  obtain ⟨k', hk', hrel, -⟩ := hl.block (p := p) hst hf code
  refine ⟨k', hk', hrel.mem, ⟨?_, ?_⟩, ?_, ?_⟩
  · rw [hrel.ret, Kernel.upd_proctab_self]
    rfl
  · rw [hrel.state, Kernel.upd_proctab_self]
    rfl
  · rw [hrel.ret, Kernel.upd_proctab_ne _ _ _ hzp]
    rfl
  · rw [hrel.state, Kernel.upd_proctab_ne _ _ _ hzp]
    exact hb

/-- A send that finds its receiver blocked completes. -/
theorem sysSend_completes (h : BlockedListed k) (hs : k.Used s) (hr : k.Used r)
    (hst : (k.proctab s).state ≠ .blocked) (hb : (k.proctab r).state = .blocked)
    (hret : (k.proctab r).ret = Request.recv.code)
    (hdest : slotOf (k.arg s 0) = r) (hpeer : sendPeer k a s = some r)
    (hf : maxProc + 1 < a.fuel) : ∃ k', sysSend k s a = .ok k' ∧ Completed k k' s r := by
  have hsend := send_of_peer hpeer
  by_cases hn : 0 < (passMessage k s r).1
  · obtain ⟨k₁, k₂, i, k', h₁, -, h₂, h₃, hm, ⟨hrs, hs'⟩, hrr, hr'⟩ :=
      h.answer hs hr hst hb hf (passMessage k s r).2 (passMessage k s r).1
    refine ⟨k', ?_, hm, fun _ => ⟨hrs, hs', hrr, hr'⟩, fun h0 => by omega⟩
    unfold sysSend
    simp only [hsend, hdest, bind, Except.bind]
    rw [if_pos (by omega), h₁]
    simp only [h₂]
    exact h₃
  · have h0 : (passMessage k s r).1 = 0 := by omega
    obtain ⟨k', hk', hm, hs', hrr, hr'⟩ :=
      h.wait hst hb (Nat.lt_of_succ_lt hf) (passMessage k s r).2 Request.send.code
    refine ⟨k', ?_, hm, fun hpos => by omega, fun _ => ⟨hs'.1, hs'.2, hrr.trans hret, hr'⟩⟩
    unfold sysSend
    simp only [hsend, h0]
    exact hk'

/-- A receive that finds its sender blocked completes, if the pid that it stores is
still there when the sender is released. -/
theorem sysRecv_completes (h : BlockedListed k) (hs : k.Used s) (hr : k.Used r)
    (hst : (k.proctab r).state ≠ .blocked) (hb : (k.proctab s).state = .blocked)
    (hret : (k.proctab s).ret = Request.send.code)
    (hfrom : slotOf ((passMessage k s r).2.word (k.arg r 0)) = s)
    (hpeer : recvPeer k a r = .ok (some s))
    (hf : maxProc + 1 < a.fuel) : ∃ k', sysRecv k r a = .ok k' ∧ Completed k k' s r := by
  have hrecv := recv_of_peer hpeer
  by_cases hn : 0 < (passMessage k s r).1
  · obtain ⟨k₁, k₂, i, k', h₁, hpid, h₂, h₃, hm, ⟨hrr, hr'⟩, hrs, hs'⟩ :=
      h.answer hr hs hst hb hf (passMessage k s r).2 (passMessage k s r).1
    refine ⟨k', ?_, hm, fun _ => ⟨hrs, hs', hrr, hr'⟩, fun h0 => by omega⟩
    unfold sysRecv
    simp only [hrecv, bind, Except.bind, Kernel.setMem_mem, hfrom]
    rw [if_pos (by omega), h₁]
    -- the pid is tested only after the receiver has been made ready
    dsimp only
    rw [if_pos hpid]
    simp only [h₂]
    exact h₃
  · have h0 : (passMessage k s r).1 = 0 := by omega
    obtain ⟨k', hk', hm, hr', hrs, hs'⟩ :=
      h.wait hst hb (Nat.lt_of_succ_lt hf) (passMessage k s r).2 Request.recv.code
    refine ⟨k', ?_, hm, fun hpos => by omega, fun _ => ⟨hrs.trans hret, hs', hr'.1, hr'.2⟩⟩
    unfold sysRecv
    simp only [hrecv, h0, bind, Except.bind]
    exact hk'

end Xeros
