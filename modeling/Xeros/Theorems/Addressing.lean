import Xeros.Theorems.Rendezvous
import Xeros.Logic.Codes

/-!
# Whom a message names, and when both sides wait

`valid` looks a pid up by its remainder, as a signed number, and lets 0 pass for a send as for
a receive. `send` and `recv` read the first argument of the peer without asking which call it
is an argument of.
-/

namespace Xeros

open Lib

variable {k : Kernel} {a : Ambient} {p q : Slot} {pid : Word}
  {call : Slot → Option (Request × Word)}

/-! ## Addressing -/

/-- A live process has exactly this pid. -/
def Kernel.Lives (k : Kernel) (pid : Word) : Prop :=
  ∃ q, (k.proctab q).alive ∧ (k.proctab q).pid = pid

/-- The remainder with which `valid` looks into `proctab` is an index of it. -/
def InTable (pid : Word) : Prop := 0 ≤ pid.toInt.tmod maxProc

/-- `SYS_SEND` of `p` rejects exactly the pids that nobody has, looks at no memory outside
`proctab` for it, and reaches the process with that pid only. -/
structure SendAddressed (k : Kernel) (a : Ambient) (p : Slot) : Prop where
  rejects : Answers (sysSend k p a) p badPid ↔ ¬ k.Lives (k.arg p 0)
  inTable : InTable (k.arg p 0)
  reaches : ∀ r, sendPeer k a p = some r → (k.proctab r).pid = k.arg p 0

/-- `SYS_RECV` of `p` rejects exactly the pids that nobody has, looks at no memory outside
`proctab` for it, and takes a message from the process with that pid only. -/
structure RecvAddressed (k : Kernel) (a : Ambient) (p : Slot) : Prop where
  rejects : Answers (sysRecv k p a) p badPid ↔ ¬ k.Lives (k.mem.word (k.arg p 0))
  inTable : InTable (k.mem.word (k.arg p 0))
  reaches : ∀ r, recvPeer k a p = .ok (some r) → (k.proctab r).pid = k.mem.word (k.arg p 0)

/-- The pid leads to an entry of `proctab`, and the process there is dead or has that pid. -/
structure Resolves (k : Kernel) (pid : Word) : Prop where
  inTable : InTable pid
  exact : (k.proctab (slotOf pid)).alive → (k.proctab (slotOf pid)).pid = pid

/-- The index that `valid` uses, if it is one. -/
theorem tmod_eq_slotOf (h : InTable pid) : (pid.toInt.tmod maxProc).toNat = pid.toNat % maxProc := by
  unfold InTable at h
  have hlt := pid.isLt
  have hcases : pid.toInt = pid.toNat ∨ (pid.toInt = pid.toNat - 4294967296 ∧ pid.toInt < 0) := by
    rw [BitVec.toInt_eq_toNat_cond]
    split <;> omega
  generalize pid.toInt = t at h hcases
  rcases hcases with rfl | ⟨ht, hneg⟩
  · rw [Int.tmod_eq_emod_of_nonneg (Int.natCast_nonneg _)]
    omega
  · -- a negative number has no positive remainder
    have hneg' : 0 ≤ (-t).tmod maxProc := Int.tmod_nonneg _ (by omega)
    rw [Int.neg_tmod] at hneg'
    have h0 : t.tmod maxProc = 0 := by omega
    rw [h0]
    have hdvd : (64 : Int) ∣ t := Int.dvd_of_tmod_eq_zero h0
    show Int.toNat 0 = pid.toNat % 64
    omega

/-- `valid` looks at the slot of a pid whose remainder is not negative. -/
theorem stateOfPid_of_inTable (h : InTable pid) :
    stateOfPid k a pid.toInt = (k.proctab (slotOf pid)).state := by
  have hval := tmod_eq_slotOf h
  have hlt : pid.toNat % maxProc < maxProc := Nat.mod_lt _ (by decide)
  unfold stateOfPid
  dsimp only
  rw [dif_pos ⟨h, by rw [hval]; exact hlt⟩]
  congr 2
  exact Fin.ext hval

/-- A pid that leads into the table is invalid if it is not 0 and its slot is dead. -/
theorem valid_iff (h : InTable pid) :
    valid k a pid.toInt = false ↔ pid ≠ 0 ∧ ¬ (k.proctab (slotOf pid)).alive := by
  have h0 : pid.toInt = 0 ↔ pid = 0 := by
    constructor
    · intro h
      exact BitVec.eq_of_toInt_eq (h.trans BitVec.toInt_zero.symm)
    · rintro rfl
      exact BitVec.toInt_zero
  unfold valid Pcb.alive
  rw [stateOfPid_of_inTable h]
  by_cases hz : pid = 0
  · simp [hz]
  · rw [if_neg (mt h0.mp hz)]
    simp only [ne_eq, hz, not_false_eq_true, true_and]
    split
    · rename_i hd
      exact iff_of_true rfl fun h => hd.elim h.1 h.2
    · rename_i hd
      exact iff_of_false (by decide) (not_not_intro (not_or.mp hd))

/-- The validation fails with `BAD_PID` if and only if `valid` rejects the pid. -/
theorem validatePeer_badPid_iff {buf : Word} {len : Int} :
    (validatePeer k a p pid buf len).1 = badPid ↔ valid k a pid.toInt = false := by
  unfold validatePeer
  split
  · rename_i hv
    exact iff_of_true rfl hv
  · rename_i hv
    refine iff_of_false ?_ hv
    split
    · show srcDstSame ≠ badPid
      decide
    · unfold validateBuffer
      dsimp only
      repeat' split
      all_goals decide

/-- What is decided after the validation is not `BAD_PID`. -/
theorem Match.code_ne_badPid {m : Match} (hm : ∀ rc, m = .refuse rc → rc = wouldDeadlock)
    (pass : Slot → Nat) : m.code pass ≠ badPid := by
  cases m with
  | refuse rc =>
      rw [hm rc rfl]
      show wouldDeadlock ≠ badPid
      decide
  | wait =>
      show (0 : Int) ≠ badPid
      decide
  | found r =>
      show (pass r : Int) ≠ -1
      omega

/-- `send` returns `BAD_PID` if and only if `valid` rejects the pid. -/
theorem sendCode_badPid_iff : sendCode k a p = badPid ↔ valid k a (k.arg p 0).toInt = false := by
  have hv : (validatePeer k a p (k.arg p 0) (k.arg p 1) (k.arg p 2).toInt).1 = badPid ↔
      valid k a (k.arg p 0).toInt = false := validatePeer_badPid_iff
  rw [← hv, sendCode_eq]
  split
  · exact Iff.rfl
  · rename_i hneg
    refine iff_of_false (Match.code_ne_badPid (fun rc => sendMatch_refuse) _) fun h => hneg ?_
    rw [h]
    decide

/-- `recv` returns `BAD_PID` if and only if `valid` rejects the pid. -/
theorem recvCode_badPid_iff :
    recvCode k a p = .ok badPid ↔ valid k a (k.mem.word (k.arg p 0)).toInt = false := by
  have hv : (validatePeer k a p (k.mem.word (k.arg p 0)) (k.arg p 1) (k.arg p 2).toInt).1 = badPid ↔
      valid k a (k.mem.word (k.arg p 0)).toInt = false := validatePeer_badPid_iff
  rw [← hv, recvCode_eq]
  split
  · rw [Except.ok.injEq]
  · rename_i hneg
    refine iff_of_false ?_ fun h => hneg ?_
    · simp only [Run.bind_eq_ok, pure, Except.pure, Except.ok.injEq]
      rintro ⟨m, hm, hcode⟩
      refine Match.code_ne_badPid ?_ _ hcode
      rintro rc rfl
      exact recvMatch_refuse hm
    · rw [h]
      decide

/-- If a pid leads to a process that is dead or has it, somebody has it if and only if that
process is alive. -/
theorem Resolves.lives_iff (h : Resolves k pid) (hg : Good k) :
    k.Lives pid ↔ (k.proctab (slotOf pid)).alive := by
  constructor
  · rintro ⟨q, hlive, rfl⟩
    rwa [(hg.used hlive.1).2.1]
  · exact fun hlive => ⟨_, hlive, h.exact hlive⟩

/-- Nobody has the pid 0. -/
theorem Good.not_lives_zero (hg : Good k) : ¬ k.Lives 0 := by
  rintro ⟨q, hlive, h0⟩
  exact (hg.used hlive.1).pid_ne_zero h0

/-- If `valid` rejects exactly the pids that nobody has, they resolve. -/
theorem resolves_of_rejects (hg : Good k) (hin : InTable pid) (h0 : pid ≠ 0)
    (h : valid k a pid.toInt = false ↔ ¬ k.Lives pid) : Resolves k pid := by
  refine ⟨hin, fun hlive => ?_⟩
  rw [valid_iff hin] at h
  have hlives : k.Lives pid := not_not.mp fun hn => (h.mpr hn).2 hlive
  obtain ⟨q, hq, rfl⟩ := hlives
  rw [(hg.used hq.1).2.1]

/-- The peer of a receive from a pid is the process in its slot. -/
theorem recvPeer_slot {r : Slot} (h0 : k.mem.word (k.arg p 0) ≠ 0)
    (h : recvPeer k a p = .ok (some r)) :
    slotOf (k.mem.word (k.arg p 0)) = r ∧ (k.proctab r).state = .blocked := by
  unfold recvPeer at h
  split at h
  · cases h
  · simp only [Run.bind_eq_ok] at h
    obtain ⟨m, hm, h⟩ := h
    unfold recvMatch at hm
    rw [if_neg h0] at hm
    dsimp only at hm
    split at hm
    · cases hm
      cases h
    split at hm
    · rename_i hb
      cases hm
      cases h
      exact ⟨rfl, hb.1⟩
    · cases hm
      cases h

/-- A message is addressed exactly if and only if its pid resolves; a send must not name 0. -/
theorem addressing_exact_iff (hg : Good k) (hu : k.Used p) :
    (SendAddressed k a p ↔ k.arg p 0 ≠ 0 ∧ Resolves k (k.arg p 0)) ∧
      (k.mem.word (k.arg p 0) ≠ 0 →
        (RecvAddressed k a p ↔ Resolves k (k.mem.word (k.arg p 0)))) := by
  have hsend := (sysSend_answers_iff (a := a) hg hu isCode_badPid).trans sendCode_badPid_iff
  have hrecv := (sysRecv_answers_iff (a := a) hg hu isCode_badPid).trans recvCode_badPid_iff
  refine ⟨⟨fun h => ?_, fun ⟨h0, h⟩ => ?_⟩, fun h0 => ⟨fun h => ?_, fun h => ?_⟩⟩
  · have hrej := hsend.symm.trans h.rejects
    have h0 : k.arg p 0 ≠ 0 := by
      intro h0
      rw [valid_iff h.inTable, h0] at hrej
      exact (hrej.mpr hg.not_lives_zero).1 rfl
    exact ⟨h0, resolves_of_rejects hg h.inTable h0 hrej⟩
  · refine ⟨?_, h.inTable, fun r hr => ?_⟩
    · rw [hsend, valid_iff h.inTable, h.lives_iff hg]
      exact and_iff_right h0
    · obtain ⟨rfl, hb⟩ := sendPeer_found hr
      exact h.exact (Pcb.alive_of_blocked hb)
  · exact resolves_of_rejects hg h.inTable h0 (hrecv.symm.trans h.rejects)
  · refine ⟨?_, h.inTable, fun r hr => ?_⟩
    · rw [hrecv, valid_iff h.inTable, h.lives_iff hg]
      exact and_iff_right h0
    · obtain ⟨rfl, hb⟩ := recvPeer_slot h0 hr
      exact h.exact (Pcb.alive_of_blocked hb)

/-- The machine after the root process has asked to send to this pid. -/
def addressed (pid : Word) : Kernel :=
  contextswitch sampleBoot.k sampleBoot.p (sampleCall .send [pid, 0x60100, 8])

theorem sampleBoot_good (t : Trap) : Good (contextswitch sampleBoot.k sampleBoot.p t) ∧
    (contextswitch sampleBoot.k sampleBoot.p t).Used sampleBoot.p := by
  have hs := sound_of_reachable ⟨_, sampleBoot_init, TSys.Path.refl⟩
  exact ⟨contextswitch_good hs.good hs.used t, contextswitch_used hs.used t⟩

theorem addressing_exact_idle : SendAddressed (addressed 2) sampleAmbient sampleBoot.p := by
  obtain ⟨hg, hu⟩ := sampleBoot_good (sampleCall .send [2, 0x60100, 8])
  have hk : (addressed 2).arg sampleBoot.p 0 = 2 ∧ ((addressed 2).proctab 2).pid = 2 := by
    decide +kernel
  refine (addressing_exact_iff hg hu).1.mpr ?_
  rw [show (contextswitch _ _ _).arg sampleBoot.p 0 = 2 from hk.1]
  exact ⟨by decide, by unfold InTable; decide, fun _ => hk.2⟩

/-- A send to 0 waits, and nobody has the pid 0. -/
theorem addressing_not_exact :
    ¬ ∀ (s : Disp) (t : Trap), dispatcher.Reachable s →
      SendAddressed (contextswitch s.k s.p t) t.ambient s.p ∧
        ((contextswitch s.k s.p t).mem.word ((contextswitch s.k s.p t).arg s.p 0) ≠ 0 →
          RecvAddressed (contextswitch s.k s.p t) t.ambient s.p) := by
  intro h
  obtain ⟨hg, hu⟩ := sampleBoot_good (sampleCall .send [0, 0x60100, 8])
  have hk : (addressed 0).arg sampleBoot.p 0 = 0 ∧
      sendCode (addressed 0) sampleAmbient sampleBoot.p = 0 := by decide +kernel
  have hrej := (h sampleBoot (sampleCall .send [0, 0x60100, 8])
    ⟨_, sampleBoot_init, .refl⟩).1.rejects
  rw [show (contextswitch _ _ _).arg sampleBoot.p 0 = 0 from hk.1] at hrej
  have hcode := (sysSend_answers_iff hg hu isCode_badPid).mp (hrej.mpr hg.not_lives_zero)
  have hcode : sendCode (addressed 0) sampleAmbient sampleBoot.p = badPid := hcode
  rw [hk.2] at hcode
  exact absurd hcode (by decide)

/-! ## Deadlock -/

/-- `q` is blocked in a call of this kind. -/
structure BlockedIn (k : Kernel) (call : Slot → Option (Request × Word)) (req : Request)
    (q : Slot) : Prop where
  blocked : (k.proctab q).state = .blocked
  call : call q = some (req, (k.proctab q).args)

/-- `q` is not blocked, or is in a call that names a third process. -/
inductive Unavailable (k : Kernel) (call : Slot → Option (Request × Word)) (p q : Slot) : Prop
  | free (h : (k.proctab q).state ≠ .blocked)
  | sending (h : BlockedIn k call .send q) (hd : k.arg q 0 ≠ (k.proctab p).pid)
  | receiving (h : BlockedIn k call .recv q) (hz : k.mem.word (k.arg q 0) ≠ 0)
      (hd : k.mem.word (k.arg q 0) ≠ (k.proctab p).pid)

/-- The arguments of `p` are valid and name the process `q`. -/
structure CallsPeer (k : Kernel) (p q : Slot) (pid : Word) : Prop where
  pid : pid = (k.proctab q).pid
  alive : (k.proctab q).alive
  ne : p ≠ q
  buffer : validateBuffer k (k.arg p 1) (k.arg p 2).toInt = 0

/-- `SYS_SEND` of `p` to `q` answers `WOULD_DEADLOCK` exactly when `q` is blocked in a send to
`p`, and waits for a peer that is not available. -/
structure SendDetects (k : Kernel) (call : Slot → Option (Request × Word)) (a : Ambient)
    (p q : Slot) : Prop where
  deadlock : Answers (sysSend k p a) p wouldDeadlock ↔
    BlockedIn k call .send q ∧ k.arg q 0 = (k.proctab p).pid
  waits : Unavailable k call p q → sendCode k a p = 0

/-- `SYS_RECV` of `p` from `q` answers `WOULD_DEADLOCK` exactly when `q` is blocked in a receive
from `p`, and waits for a peer that is not available. -/
structure RecvDetects (k : Kernel) (call : Slot → Option (Request × Word)) (a : Ambient)
    (p q : Slot) : Prop where
  deadlock : Answers (sysRecv k p a) p wouldDeadlock ↔
    BlockedIn k call .recv q ∧ k.mem.word (k.arg q 0) = (k.proctab p).pid
  waits : Unavailable k call p q → recvCode k a p = .ok 0

/-- What `send` takes for the pid that `q` waits for does not mislead it: it is the word at the
address that the first argument of `q` is, also where that is a pid. -/
structure SendSeparates (k : Kernel) (call : Slot → Option (Request × Word)) (p q : Slot) :
    Prop where
  crossed : BlockedIn k call .send q → k.arg q 0 = (k.proctab p).pid →
    k.mem.word (k.arg q 0) ≠ 0 ∧ k.mem.word (k.arg q 0) ≠ (k.proctab p).pid
  sending : BlockedIn k call .send q → k.arg q 0 ≠ (k.proctab p).pid →
    (k.mem.word (k.arg q 0) = 0 ∨ k.mem.word (k.arg q 0) = (k.proctab p).pid) ∧
      EmptyMessage k p q
  receiving : BlockedIn k call .recv q → k.mem.word (k.arg q 0) ≠ 0 →
    k.mem.word (k.arg q 0) ≠ (k.proctab p).pid → EmptyMessage k p q

/-- What `recv` takes for a receive of `q` and for the pid that `q` sends to does not mislead
it: the number in `ret` of a process that is not blocked, and the address of the cell of a
receive. -/
structure RecvSeparates (k : Kernel) (call : Slot → Option (Request × Word)) (p q : Slot) :
    Prop where
  free : (k.proctab q).state ≠ .blocked → (k.proctab q).ret = Request.recv.code →
    k.mem.word (k.arg q 0) ≠ (k.proctab p).pid
  receiving : BlockedIn k call .recv q → k.mem.word (k.arg q 0) ≠ 0 →
    k.mem.word (k.arg q 0) ≠ (k.proctab p).pid → k.arg q 0 = (k.proctab p).pid →
      EmptyMessage k q p

/-- No bytes are passed if and only if the message is empty. -/
theorem passMessage_zero {r : Slot} : ((passMessage k p r).1 : Int) = 0 ↔ EmptyMessage k p r := by
  have h := passMessage_pos (k := k) (s := p) (r := r)
  constructor
  · intro h0
    by_contra hn
    have := h.mpr hn
    omega
  · intro he
    by_contra hn
    exact h.mp (by omega) he

/-- `send` sees a crossed send of `q`. -/
def SeesCrossed (k : Kernel) (p q : Slot) : Prop :=
  k.mem.word (k.arg q 0) ≠ 0 ∧ k.mem.word (k.arg q 0) ≠ (k.proctab p).pid ∧
    (k.proctab q).ret = Request.send.code

/-- `recv` sees a crossed receive of `q`. -/
def SeesReceiver (k : Kernel) (p q : Slot) : Prop :=
  (k.proctab q).ret = Request.recv.code ∧ k.mem.word (k.arg q 0) = (k.proctab p).pid

instance : Decidable (SeesCrossed k p q) := inferInstanceAs (Decidable (_ ∧ _))

instance : Decidable (SeesReceiver k p q) := inferInstanceAs (Decidable (_ ∧ _))

theorem sendMatch_eq (d : Word) : sendMatch k p d
    = if (k.proctab (slotOf d)).state = .blocked then
        if SeesCrossed k p (slotOf d) then .refuse wouldDeadlock else .found (slotOf d)
      else .wait := by
  unfold sendMatch
  dsimp only
  by_cases hb : (k.proctab (slotOf d)).state = .blocked
  · rw [if_pos hb, if_pos hb]
    by_cases hs : SeesCrossed k p (slotOf d)
    · rw [if_pos hs, if_neg hs.1, if_pos hs.2]
    · rw [if_neg hs]
      split
      · rfl
      · rename_i hw
        rw [if_neg fun h => hs ⟨hw, h⟩]
  · rw [if_neg hb, if_neg hb]

theorem recvMatch_eq {fuel : Nat} {f : Word} (h0 : f ≠ 0) : recvMatch k fuel p f
    = .ok (if SeesReceiver k p (slotOf f) then .refuse wouldDeadlock
        else if (k.proctab (slotOf f)).state = .blocked ∧
          k.arg (slotOf f) 0 = (k.proctab p).pid then .found (slotOf f)
        else .wait) := by
  unfold recvMatch
  rw [if_neg h0]
  dsimp only
  by_cases hs : SeesReceiver k p (slotOf f)
  · rw [if_pos hs]
    exact if_pos hs
  · rw [if_neg hs]
    refine (if_neg hs).trans ?_
    split
    · rfl
    · rfl

theorem wouldDeadlock_ne_zero : wouldDeadlock ≠ 0 := by decide

/-- The bytes of a message are not a code. -/
theorem Match.code_found {pass : Slot → Nat} (r : Slot) :
    (Match.found r).code pass ≠ wouldDeadlock := by
  show (pass r : Int) ≠ -4
  omega

/-- The number that `send` returns for a valid call. -/
theorem CallsPeer.sendCode (h : CallsPeer k p q (k.arg p 0)) (hg : Good k) (hu : k.Used p) :
    (Xeros.sendCode k a p = wouldDeadlock ↔
      (k.proctab q).state = .blocked ∧ SeesCrossed k p q) ∧
    (Xeros.sendCode k a p = 0 ↔
      ((k.proctab q).state = .blocked → ¬ SeesCrossed k p q ∧ EmptyMessage k p q)) := by
  have hq : k.Used q := hg.used h.alive.1
  have hslot : slotOf (k.arg p 0) = q := by rw [h.pid, hq.2.1]
  have hcode : Xeros.sendCode k a p
      = (sendMatch k p (k.arg p 0)).code fun r => (passMessage k p r).1 := by
    rw [sendCode_eq, validatePeer_eq hu (.inr h.pid) hq h.alive h.ne h.buffer]
    exact if_neg (Int.lt_irrefl 0)
  rw [hcode, sendMatch_eq, hslot]
  by_cases hb : (k.proctab q).state = .blocked
  · rw [if_pos hb]
    by_cases hs : SeesCrossed k p q
    · rw [if_pos hs]
      exact ⟨iff_of_true rfl ⟨hb, hs⟩, iff_of_false wouldDeadlock_ne_zero fun h => (h hb).1 hs⟩
    · rw [if_neg hs]
      refine ⟨iff_of_false (Match.code_found q) fun h => hs h.2, ?_⟩
      exact passMessage_zero.trans ⟨fun he _ => ⟨hs, he⟩, fun h => (h hb).2⟩
  · rw [if_neg hb]
    exact ⟨iff_of_false wouldDeadlock_ne_zero.symm fun h => hb h.1, iff_of_true rfl fun h => absurd h hb⟩

/-- The number that `recv` returns for a valid call. -/
theorem CallsPeer.recvCode (h : CallsPeer k p q (k.mem.word (k.arg p 0))) (hg : Good k)
    (hu : k.Used p) :
    (Xeros.recvCode k a p = .ok wouldDeadlock ↔ SeesReceiver k p q) ∧
    (Xeros.recvCode k a p = .ok 0 ↔ ¬ SeesReceiver k p q ∧
      ((k.proctab q).state = .blocked → k.arg q 0 = (k.proctab p).pid → EmptyMessage k q p)) := by
  have hq : k.Used q := hg.used h.alive.1
  have hslot : slotOf (k.mem.word (k.arg p 0)) = q := by rw [h.pid, hq.2.1]
  have h0 : k.mem.word (k.arg p 0) ≠ 0 := by
    rw [h.pid]
    exact hq.pid_ne_zero
  have hcode : Xeros.recvCode k a p = .ok ((if SeesReceiver k p q then .refuse wouldDeadlock
      else if (k.proctab q).state = .blocked ∧ k.arg q 0 = (k.proctab p).pid then .found q
      else .wait : Match).code fun r => (passMessage k r p).1) := by
    rw [recvCode_eq, validatePeer_eq hu (.inr h.pid) hq h.alive h.ne h.buffer,
      recvMatch_eq h0, hslot]
    exact if_neg (Int.lt_irrefl 0)
  rw [hcode, Except.ok.injEq, Except.ok.injEq]
  by_cases hs : SeesReceiver k p q
  · rw [if_pos hs]
    exact ⟨iff_of_true rfl hs, iff_of_false wouldDeadlock_ne_zero fun h => h.1 hs⟩
  · rw [if_neg hs]
    by_cases hb : (k.proctab q).state = .blocked ∧ k.arg q 0 = (k.proctab p).pid
    · rw [if_pos hb]
      refine ⟨iff_of_false (Match.code_found q) hs, ?_⟩
      exact passMessage_zero.trans ⟨fun he => ⟨hs, fun _ _ => he⟩, fun h => h.2 hb.1 hb.2⟩
    · rw [if_neg hb]
      exact ⟨iff_of_false wouldDeadlock_ne_zero.symm hs,
        iff_of_true rfl ⟨hs, fun h₁ h₂ => absurd ⟨h₁, h₂⟩ hb⟩⟩

/-- In a reachable state the number in `ret` of a blocked process tells its call. -/
theorem blockedIn_iff {s : Recorded} (hs : InCall s) (t : Trap) (hq : q ≠ s.d.p)
    {req : Request} (hreq : req.blocks) :
    BlockedIn (contextswitch s.d.k s.d.p t) s.h.call req q ↔
      ((contextswitch s.d.k s.d.p t).proctab q).state = .blocked ∧
        ((contextswitch s.d.k s.d.p t).proctab q).ret = req.code := by
  have hpcb : (contextswitch s.d.k s.d.p t).proctab q = s.d.k.proctab q := by
    rw [contextswitch_proctab, if_neg hq]
  constructor
  · rintro ⟨hb, hc⟩
    rw [hpcb] at hb hc ⊢
    exact ⟨hb, (hs.call_iff hb hreq).mpr hc⟩
  · rintro ⟨hb, hr⟩
    refine ⟨hb, ?_⟩
    rw [hpcb] at hb hr ⊢
    exact (hs.call_iff hb hreq).mp hr

/-- A send to `q` detects exactly the crossed sends if and only if nothing that it reads
misleads it. -/
theorem CallsPeer.sendDetects_iff (hp : CallsPeer k p q (k.arg p 0)) (hg : Good k) (hu : k.Used p)
    (hin : ∀ req : Request, req.blocks → (BlockedIn k call req q ↔
      (k.proctab q).state = .blocked ∧ (k.proctab q).ret = req.code)) :
    SendDetects k call a p q ↔ SendSeparates k call p q := by
  obtain ⟨hdead, hwait⟩ := hp.sendCode (a := a) hg hu
  have hans := (sysSend_answers_iff (a := a) hg hu isCode_wouldDeadlock).trans hdead
  have hsend := hin .send (.inl rfl)
  have hrecv := hin .recv (.inr (.inl rfl))
  constructor
  · intro hd
    refine ⟨fun hb harg => ?_, fun hb harg => ?_, fun hb hz hne => ?_⟩
    · have hsees := (hans.mp (hd.deadlock.mpr ⟨hb, harg⟩)).2
      exact ⟨hsees.1, hsees.2.1⟩
    · obtain ⟨hsees, he⟩ := hwait.mp (hd.waits (.sending hb harg)) hb.blocked
      refine ⟨?_, he⟩
      by_contra hn
      obtain ⟨hz, hne⟩ := not_or.mp hn
      exact hsees ⟨hz, hne, (hsend.mp hb).2⟩
    · exact (hwait.mp (hd.waits (.receiving hb hz hne)) hb.blocked).2
  · intro hsep
    refine ⟨?_, fun hav => hwait.mpr fun hb => ?_⟩
    · rw [hans]
      constructor
      · rintro ⟨hb, hz, hne, hret⟩
        have hin' := hsend.mpr ⟨hb, hret⟩
        refine ⟨hin', ?_⟩
        by_contra harg
        exact (hsep.sending hin' harg).1.elim hz hne
      · rintro ⟨hb, harg⟩
        obtain ⟨hz, hne⟩ := hsep.crossed hb harg
        exact ⟨hb.blocked, hz, hne, (hsend.mp hb).2⟩
    · cases hav with
      | free hf => exact absurd hb hf
      | sending hin' hd =>
          obtain ⟨hw, he⟩ := hsep.sending hin' hd
          exact ⟨fun hsees => hw.elim hsees.1 hsees.2.1, he⟩
      | receiving hin' hz hd =>
          refine ⟨fun hsees => ?_, hsep.receiving hin' hz hd⟩
          have hret := (hrecv.mp hin').2
          rw [hsees.2.2] at hret
          exact absurd hret (by decide)

/-- A receive from `q` detects exactly the crossed receives if and only if nothing that it reads
misleads it. -/
theorem CallsPeer.recvDetects_iff (hp : CallsPeer k p q (k.mem.word (k.arg p 0)))
    (hg : Good k) (hu : k.Used p)
    (hin : ∀ req : Request, req.blocks → (BlockedIn k call req q ↔
      (k.proctab q).state = .blocked ∧ (k.proctab q).ret = req.code)) :
    RecvDetects k call a p q ↔ RecvSeparates k call p q := by
  obtain ⟨hdead, hwait⟩ := hp.recvCode (a := a) hg hu
  have hans := (sysRecv_answers_iff (a := a) hg hu isCode_wouldDeadlock).trans hdead
  have hsend := hin .send (.inl rfl)
  have hrecv := hin .recv (.inr (.inl rfl))
  constructor
  · intro hd
    refine ⟨fun hf hret hw => ?_, fun hb hz hne => ?_⟩
    · exact hf (hd.deadlock.mp (hans.mpr ⟨hret, hw⟩)).1.blocked
    · exact (hwait.mp (hd.waits (.receiving hb hz hne))).2 hb.blocked
  · intro hsep
    refine ⟨?_, fun hav => hwait.mpr ?_⟩
    · rw [hans]
      constructor
      · rintro ⟨hret, hw⟩
        refine ⟨hrecv.mpr ⟨?_, hret⟩, hw⟩
        by_contra hf
        exact hsep.free hf hret hw
      · rintro ⟨hb, hw⟩
        exact ⟨(hrecv.mp hb).2, hw⟩
    · cases hav with
      | free hf => exact ⟨fun hsees => hsep.free hf hsees.1 hsees.2, fun hb => absurd hb hf⟩
      | sending hin' hd =>
          refine ⟨fun hsees => ?_, fun _ harg => absurd harg hd⟩
          have hret := (hsend.mp hin').2
          rw [hsees.1] at hret
          exact absurd hret (by decide)
      | receiving hin' hz hd =>
          exact ⟨fun hsees => hd hsees.2, fun _ harg => hsep.receiving hin' hz hd harg⟩

/-- In every reachable state, a deadlock of two is detected exactly by a valid call if and only
if the words that are read for it do not mislead it. -/
theorem deadlock_exact_iff {s : Recorded} (h : recorder.Reachable s) (t : Trap) (q : Slot) :
    (CallsPeer (contextswitch s.d.k s.d.p t) s.d.p q
        ((contextswitch s.d.k s.d.p t).arg s.d.p 0) →
      (SendDetects (contextswitch s.d.k s.d.p t) s.h.call t.ambient s.d.p q ↔
        SendSeparates (contextswitch s.d.k s.d.p t) s.h.call s.d.p q)) ∧
    (CallsPeer (contextswitch s.d.k s.d.p t) s.d.p q
        ((contextswitch s.d.k s.d.p t).mem.word ((contextswitch s.d.k s.d.p t).arg s.d.p 0)) →
      (RecvDetects (contextswitch s.d.k s.d.p t) s.h.call t.ambient s.d.p q ↔
        RecvSeparates (contextswitch s.d.k s.d.p t) s.h.call s.d.p q)) := by
  have hs := inCall_of_reachable h
  have hg := contextswitch_good hs.good hs.used t
  have hu := contextswitch_used (p := s.d.p) hs.used t
  constructor
  · intro hp
    exact hp.sendDetects_iff hg hu fun _ hreq => blockedIn_iff hs t hp.ne.symm hreq
  · intro hp
    exact hp.recvDetects_iff hg hu fun _ hreq => blockedIn_iff hs t hp.ne.symm hreq

/-- The root process has created process 3 and receives from it. -/
def receiving : Recorded := crossed₁.after (sampleCall .recv [0x60010, 0x60100, 8, 0, 3])

/-- Process 3 receives from the root process. -/
def crossedRecv : Trap := sampleCallAt 0x61000 .recv [0x61010, 0x61100, 8, 0, 1]

theorem deadlock_exact_of_receivers :
    RecvDetects (contextswitch receiving.d.k receiving.d.p crossedRecv) receiving.h.call
      sampleAmbient receiving.d.p 1 := by
  have hr : recorder.Reachable receiving := by
    refine Recorded.reachable_after ?_ trivial (by decide +kernel)
    exact Recorded.reachable_after sampleStart_reachable trivial (by decide +kernel)
  have hk : ((contextswitch receiving.d.k receiving.d.p crossedRecv).proctab 1).state = .blocked ∧
      (contextswitch receiving.d.k receiving.d.p crossedRecv).mem.word
        ((contextswitch receiving.d.k receiving.d.p crossedRecv).arg 1 0)
        = ((contextswitch receiving.d.k receiving.d.p crossedRecv).proctab receiving.d.p).pid := by
    decide +kernel
  have hp : CallsPeer (contextswitch receiving.d.k receiving.d.p crossedRecv) receiving.d.p 1
      ((contextswitch receiving.d.k receiving.d.p crossedRecv).mem.word
        ((contextswitch receiving.d.k receiving.d.p crossedRecv).arg receiving.d.p 0)) :=
    ⟨by decide +kernel, Pcb.alive_of_blocked hk.1, by decide +kernel, by decide +kernel⟩
  exact ((deadlock_exact_iff hr crossedRecv 1).2 hp).mpr
    ⟨fun hf => absurd hk.1 hf, fun _ _ hne => absurd hk.2 hne⟩

/-- Process 3 sends the first of its argument words to the root process. -/
def sendsArgs : Trap := sampleCallAt 0x61000 .send [1, 0x61000, 8]

/-- The root process waits for process 4, and process 3, which sends to it, does not wait. -/
theorem deadlock_not_exact :
    ¬ ∀ (s : Recorded) (t : Trap) (q : Slot), recorder.Reachable s →
      (CallsPeer (contextswitch s.d.k s.d.p t) s.d.p q
          ((contextswitch s.d.k s.d.p t).arg s.d.p 0) →
        SendDetects (contextswitch s.d.k s.d.p t) s.h.call t.ambient s.d.p q) ∧
      (CallsPeer (contextswitch s.d.k s.d.p t) s.d.p q
          ((contextswitch s.d.k s.d.p t).mem.word ((contextswitch s.d.k s.d.p t).arg s.d.p 0)) →
        RecvDetects (contextswitch s.d.k s.d.p t) s.h.call t.ambient s.d.p q) := by
  intro h
  have hk : ((contextswitch crossed₃.d.k crossed₃.d.p sendsArgs).proctab 1).state = .blocked ∧
      crossed₃.h.call 1
        = some (.recv, ((contextswitch crossed₃.d.k crossed₃.d.p sendsArgs).proctab 1).args) ∧
      (contextswitch crossed₃.d.k crossed₃.d.p sendsArgs).mem.word
        ((contextswitch crossed₃.d.k crossed₃.d.p sendsArgs).arg 1 0) = 4 ∧
      ((contextswitch crossed₃.d.k crossed₃.d.p sendsArgs).proctab crossed₃.d.p).pid = 3 ∧
      sendCode (contextswitch crossed₃.d.k crossed₃.d.p sendsArgs) sampleAmbient crossed₃.d.p
        = 1 := by decide +kernel
  obtain ⟨hb, hcall, hfrom, hpid, hcode⟩ := hk
  have hp : CallsPeer (contextswitch crossed₃.d.k crossed₃.d.p sendsArgs) crossed₃.d.p 1
      ((contextswitch crossed₃.d.k crossed₃.d.p sendsArgs).arg crossed₃.d.p 0) :=
    ⟨by decide +kernel, Pcb.alive_of_blocked hb, by decide +kernel, by decide +kernel⟩
  have hwait : sendCode (contextswitch crossed₃.d.k crossed₃.d.p sendsArgs) sampleAmbient
      crossed₃.d.p = 0 := by
    refine ((h crossed₃ sendsArgs 1 crossed₃_reachable).1 hp).waits
      (.receiving ⟨hb, hcall⟩ ?_ ?_)
    · rw [hfrom]
      decide
    · rw [hfrom, hpid]
      decide
  rw [hcode] at hwait
  exact absurd hwait (by decide)

end Xeros
