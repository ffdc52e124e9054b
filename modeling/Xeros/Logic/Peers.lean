import Xeros.Logic.Queues

/-!
# The two sides of a message

`SYS_SEND` and `SYS_RECV` look for a peer in different ways, but pass the message
from the one process to the other in the same way.
-/

namespace Xeros

open Lib

/-! ## The two sides of a copy -/

/-- The process that a `SYS_SEND` of `p` copies to, if it copies. -/
def sendPeer (k : Kernel) (a : Ambient) (p : Slot) : Option Slot :=
  if (validateSend k a p (k.arg p 0) (k.arg p 1) (k.arg p 2).toInt).1 < 0 then none
  else match sendMatch k p (k.arg p 0) with
    | .found r => some r
    | _ => none

/-- The process that a `SYS_RECV` of `p` copies from, if it copies. -/
def recvPeer (k : Kernel) (a : Ambient) (p : Slot) : Run (Option Slot) :=
  if (validateRecv k a p (k.mem.word (k.arg p 0)) (k.arg p 1) (k.arg p 2).toInt).1 < 0 then
    return none
  else do
    match ← recvMatch k a.fuel p (k.mem.word (k.arg p 0)) with
    | .found s => return some s
    | _ => return none

/-- The sender found by `SYS_RECV` has the pid of `p` as its first argument. -/
theorem recvScan_found {k : Kernel} {p q : Slot} {fuel : Nat} {o : Option Slot}
    (h : recvScan k p fuel o = .ok (.found q)) : k.arg q 0 = (k.proctab p).pid := by
  induction fuel generalizing o with
  | zero => cases h
  | succ fuel ih =>
      cases o with
      | none => cases h
      | some b =>
          simp only [recvScan] at h
          split at h
          · exact ih h
          split at h
          · rename_i hb
            cases h
            exact hb
          · exact ih h

theorem recvPeer_found {k : Kernel} {a : Ambient} {p q : Slot}
    (h : recvPeer k a p = .ok (some q)) : k.arg q 0 = (k.proctab p).pid := by
  unfold recvPeer at h
  split at h
  · cases h
  · simp only [Run.bind_eq_ok] at h
    obtain ⟨m, hm, h⟩ := h
    cases m with
    | refuse rc => cases h
    | wait => cases h
    | found r =>
        simp only [pure, Except.pure, Except.ok.injEq, Option.some.injEq] at h
        subst h
        unfold recvMatch at hm
        split at hm
        · exact recvScan_found hm
        · dsimp only at hm
          split at hm
          · cases hm
          split at hm
          · rename_i hb
            cases hm
            exact hb.2
          · cases hm

/-- The peer of a send is the process in the slot of the pid, and is blocked. -/
theorem sendPeer_found {k : Kernel} {a : Ambient} {p r : Slot} (h : sendPeer k a p = some r) :
    slotOf (k.arg p 0) = r ∧ (k.proctab r).state = .blocked := by
  unfold sendPeer at h
  split at h
  · cases h
  · split at h
    · rename_i hm
      cases h
      exact ⟨(sendMatch_found hm).1.symm, (sendMatch_found hm).2⟩
    · cases h

/-! ## The message that is passed -/

/-- The memory when the sender's pid has been stored for a receiver that takes messages
from any process. -/
def announce (k : Kernel) (s r : Slot) : Bytes :=
  if k.mem.word (k.arg r 0) = 0 then k.mem.putWord (k.arg r 0) (k.proctab s).pid else k.mem

/-- The message of `s` is passed to `r`: the number of bytes and the memory afterwards. -/
def passMessage (k : Kernel) (s r : Slot) : Nat × Bytes :=
  copy (announce k s r) (k.arg s 1) (k.arg r 1) (k.arg s 2).toInt (k.arg r 2).toInt

/-- The message of `s` for `r` is empty: a length is not positive or the first byte is
NUL. -/
def EmptyMessage (k : Kernel) (s r : Slot) : Prop :=
  min (k.arg s 2).toInt (k.arg r 2).toInt ≤ 0 ∨ announce k s r (k.arg s 1) = 0

variable {k k' : Kernel} {a : Ambient} {p q r s : Slot}

theorem copyLoop_ge {src dst : Word} {n i : Nat} {m : Bytes} : i ≤ (copyLoop src dst n i m).1 := by
  induction n generalizing i m with
  | zero => exact Nat.le_refl i
  | succ n ih =>
      unfold copyLoop
      dsimp only
      split
      · exact Nat.le_refl i
      · exact Nat.le_trans (Nat.le_succ i) ih

/-- Bytes are passed unless the message is empty. -/
theorem passMessage_pos : 0 < (passMessage k s r).1 ↔ ¬ EmptyMessage k s r := by
  unfold passMessage copy EmptyMessage
  dsimp only
  generalize min (k.arg s 2).toInt (k.arg r 2).toInt = n
  generalize announce k s r = m
  generalize k.arg s 1 = src
  generalize k.arg r 1 = dst
  by_cases hn : n ≤ 0
  · have h0 : n.toNat = 0 := by omega
    simp [h0, copyLoop, hn]
  · obtain ⟨j, hj⟩ : ∃ j, n.toNat = j + 1 := ⟨n.toNat - 1, by omega⟩
    have hsame : (m.putByte dst (m src)) src = m src := by
      unfold Bytes.putByte Bytes.splice
      split <;> rfl
    rw [hj]
    unfold copyLoop
    simp only [hn, false_or]
    have hz : ∀ x : Word, x + BitVec.ofNat 32 0 = x := by simp
    rw [hz, hz, hsame]
    by_cases hm : m src = 0
    · simp [hm]
    · rw [if_neg hm]
      constructor
      · exact fun _ => hm
      · exact fun _ => Nat.lt_of_lt_of_le Nat.zero_lt_one copyLoop_ge

/-- The validation writes nothing but the `ret` of the caller. -/
theorem validatePeer_kernel {pid buf : Word} {len : Int} :
    (validatePeer k a p pid buf len).2 = k ∨
      ∃ v, (validatePeer k a p pid buf len).2 = k.setRet p v := by
  unfold validatePeer
  split
  · exact .inr ⟨_, rfl⟩
  split
  · exact .inr ⟨_, rfl⟩
  · exact .inl rfl

/-- A send with a peer passes the message. -/
theorem send_of_peer (h : sendPeer k a p = some r) :
    send k a (k.arg p 0) (k.arg p 1) (k.arg p 2).toInt p
      = (((passMessage k p r).1 : Int), k.setMem (passMessage k p r).2) := by
  unfold sendPeer at h
  split at h
  · cases h
  · rename_i hneg
    split at h
    · rename_i hm
      cases h
      unfold send
      dsimp only
      rw [if_neg hneg, show (validateSend k a p (k.arg p 0) (k.arg p 1) (k.arg p 2).toInt).2 = k
        from validatePeer_ok hneg, hm]
      rfl
    · cases h

/-- A send without a peer fails or waits. -/
theorem send_of_no_peer (h : sendPeer k a p = none) :
    ∃ n k₀, send k a (k.arg p 0) (k.arg p 1) (k.arg p 2).toInt p = (n, k₀) ∧ n ≤ 0 ∧
      (k₀ = k ∨ ∃ v, k₀ = k.setRet p v) := by
  unfold sendPeer at h
  unfold send
  dsimp only
  split
  · rename_i hneg
    exact ⟨_, _, rfl, Int.le_of_lt hneg, validatePeer_kernel⟩
  · rename_i hneg
    rw [if_neg hneg] at h
    rw [show (validateSend k a p (k.arg p 0) (k.arg p 1) (k.arg p 2).toInt).2 = k from
      validatePeer_ok hneg]
    split
    · rename_i rc hm
      exact ⟨_, _, rfl, by rw [sendMatch_refuse hm]; decide, .inl rfl⟩
    · exact ⟨0, k, rfl, Int.le_refl 0, .inl rfl⟩
    · rename_i r hm
      rw [hm] at h
      cases h

/-- A send passes the message to its peer, or fails or waits. -/
theorem send_cases {n : Int} {k₀ : Kernel}
    (h : send k a (k.arg p 0) (k.arg p 1) (k.arg p 2).toInt p = (n, k₀)) :
    (∃ r, sendPeer k a p = some r ∧ n = (passMessage k p r).1 ∧
      k₀ = k.setMem (passMessage k p r).2) ∨
    (sendPeer k a p = none ∧ n ≤ 0 ∧ (k₀ = k ∨ ∃ v, k₀ = k.setRet p v)) := by
  cases hpeer : sendPeer k a p with
  | some r =>
      rw [send_of_peer hpeer, Prod.mk.injEq] at h
      exact .inl ⟨r, rfl, h.1.symm, h.2.symm⟩
  | none =>
      obtain ⟨n', k', h', hn, hk⟩ := send_of_no_peer hpeer
      rw [h', Prod.mk.injEq] at h
      obtain ⟨rfl, rfl⟩ := h
      exact .inr ⟨rfl, hn, hk⟩

theorem recvScan_refuse {fuel : Nat} {o : Option Slot} {rc : Int} :
    recvScan k p fuel o ≠ .ok (.refuse rc) := by
  induction fuel generalizing o with
  | zero => simp [recvScan]
  | succ fuel ih =>
      cases o with
      | none => simp [recvScan, pure, Except.pure]
      | some b =>
          unfold recvScan
          split
          · exact ih
          split
          · simp [pure, Except.pure]
          · exact ih

theorem recvMatch_refuse {fuel : Nat} {f : Word} {rc : Int}
    (h : recvMatch k fuel p f = .ok (.refuse rc)) : rc = wouldDeadlock := by
  unfold recvMatch at h
  split at h
  · exact absurd h recvScan_refuse
  · dsimp only at h
    split at h
    · cases h
      rfl
    split at h
    · cases h
    · cases h

/-- A receive that comes back passes the message of its peer, or fails or waits. -/
theorem recv_cases {n : Int} {k₀ : Kernel}
    (h : recv k a (k.arg p 0) (k.arg p 1) (k.arg p 2).toInt p = .ok (n, k₀)) :
    (∃ q, recvPeer k a p = .ok (some q) ∧ n = (passMessage k q p).1 ∧
      k₀ = k.setMem (passMessage k q p).2) ∨
    (recvPeer k a p = .ok none ∧ n ≤ 0 ∧ (k₀ = k ∨ ∃ v, k₀ = k.setRet p v)) := by
  unfold recv at h
  dsimp only at h
  unfold recvPeer
  split at h
  · rename_i hneg
    rw [if_pos hneg]
    simp only [pure, Except.pure, Except.ok.injEq, Prod.mk.injEq] at h
    obtain ⟨rfl, rfl⟩ := h
    exact .inr ⟨rfl, Int.le_of_lt hneg, validatePeer_kernel⟩
  · rename_i hneg
    rw [if_neg hneg]
    rw [show (validateRecv k a p (k.mem.word (k.arg p 0)) (k.arg p 1) (k.arg p 2).toInt).2 = k
      from validatePeer_ok hneg] at h
    simp only [Run.bind_eq_ok] at h
    obtain ⟨m, hm, h⟩ := h
    rw [hm]
    cases m with
    | refuse rc =>
        simp only [pure, Except.pure, Except.ok.injEq, Prod.mk.injEq] at h
        obtain ⟨rfl, rfl⟩ := h
        exact .inr ⟨rfl, by rw [recvMatch_refuse hm]; decide, .inl rfl⟩
    | wait =>
        simp only [pure, Except.pure, Except.ok.injEq, Prod.mk.injEq] at h
        obtain ⟨rfl, rfl⟩ := h
        exact .inr ⟨rfl, Int.le_refl 0, .inl rfl⟩
    | found q =>
        simp only [pure, Except.pure, Except.ok.injEq, Prod.mk.injEq] at h
        obtain ⟨rfl, rfl⟩ := h
        exact .inl ⟨q, rfl, rfl, rfl⟩

end Xeros
