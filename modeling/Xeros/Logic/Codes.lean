import Xeros.Logic.Rets
import Xeros.Logic.Copy
import Xeros.Logic.Settle

/-!
# What a send or a receive answers

`send` and `recv` compute one number: a negative code, 0 for a call that waits, or the number
of bytes that were passed. The code is what the caller finds in `ret` when it runs again.
-/

namespace Xeros

open Lib

variable {k k' k₁ : Kernel} {a : Ambient} {p q : Slot} {rc n : Int} {fuel : Nat}

/-- What `send` returns for the arguments of `p`. -/
def sendCode (k : Kernel) (a : Ambient) (p : Slot) : Int :=
  (send k a (k.arg p 0) (k.arg p 1) (k.arg p 2).toInt p).1

/-- What `recv` returns for the arguments of `p`. -/
def recvCode (k : Kernel) (a : Ambient) (p : Slot) : Run Int := do
  let (n, _) ← recv k a (k.arg p 0) (k.arg p 1) (k.arg p 2).toInt p
  return n

/-- A request of `p` comes back at once with a code: `p` is ready and finds it in `ret`. -/
def Answers (r : Run Kernel) (p : Slot) (rc : Int) : Prop :=
  ∃ k', r = .ok k' ∧ (k'.proctab p).state = .ready ∧ (k'.proctab p).ret = toWord rc

/-- The negative numbers that an `int` holds. -/
def IsCode (rc : Int) : Prop := -2147483648 ≤ rc ∧ rc < 0

theorem isCode_badPid : IsCode badPid := by
  unfold IsCode
  decide

theorem isCode_wouldDeadlock : IsCode wouldDeadlock := by
  unfold IsCode
  decide

/-- A code is not a number of bytes. -/
theorem IsCode.inj (hrc : IsCode rc) (hn : -2147483648 ≤ n ∧ n < 2147483648)
    (h : toWord n = toWord rc) : n = rc := by
  have hval : ∀ m : Int, -2147483648 ≤ m → m < 2147483648 → (toWord m).toInt = m := by
    intro m h₁ h₂
    refine BitVec.toInt_ofInt_eq_self (by decide) ?_ ?_
    · exact h₁
    · exact h₂
  have hneg := hrc.2
  rw [← hval n hn.1 hn.2, h]
  exact hval rc hrc.1 (by omega)

/-- The number of bytes passed fits an `int`. -/
theorem passMessage_lt : (passMessage k p q).1 < 2147483648 := by
  have hle : (passMessage k p q).1
      ≤ 0 + (min (k.arg p 2).toInt (k.arg q 2).toInt).toNat := copyLoop_le
  have hlt : (k.arg p 2).toInt < 2147483648 := BitVec.toInt_lt
  have hmin : min (k.arg p 2).toInt (k.arg q 2).toInt ≤ (k.arg p 2).toInt := min_le_left _ _
  omega

/-- The codes of the validation. -/
theorem validatePeer_bounds {pid buf : Word} {len : Int} :
    -4 ≤ (validatePeer k a p pid buf len).1 ∧ (validatePeer k a p pid buf len).1 ≤ 0 := by
  unfold validatePeer validateBuffer
  split
  · show -4 ≤ badPid ∧ badPid ≤ 0
    decide
  split
  · show -4 ≤ srcDstSame ∧ srcDstSame ≤ 0
    decide
  · dsimp only
    repeat' split
    all_goals decide

/-- The number for what a send or a receive has decided: a code, 0 or the bytes passed. -/
def Match.code (pass : Slot → Nat) : Match → Int
  | .refuse rc => rc
  | .wait => 0
  | .found r => pass r

/-- `send` returns the code of the validation if that fails, and the number for its match
otherwise. -/
theorem sendCode_eq : sendCode k a p
    = if (validatePeer k a p (k.arg p 0) (k.arg p 1) (k.arg p 2).toInt).1 < 0 then
        (validatePeer k a p (k.arg p 0) (k.arg p 1) (k.arg p 2).toInt).1
      else (sendMatch k p (k.arg p 0)).code fun r => (passMessage k p r).1 := by
  unfold sendCode send
  dsimp only
  split
  · rfl
  · rename_i hneg
    rw [show (validateSend k a p (k.arg p 0) (k.arg p 1) (k.arg p 2).toInt).2 = k from
      validatePeer_ok hneg]
    cases sendMatch k p (k.arg p 0) with
    | refuse rc => rfl
    | wait => rfl
    | found r => rfl

/-- `recv` returns the code of the validation if that fails, and the number for its match
otherwise. -/
theorem recvCode_eq : recvCode k a p
    = if (validatePeer k a p (k.mem.word (k.arg p 0)) (k.arg p 1) (k.arg p 2).toInt).1 < 0 then
        .ok (validatePeer k a p (k.mem.word (k.arg p 0)) (k.arg p 1) (k.arg p 2).toInt).1
      else do
        let m ← recvMatch k a.fuel p (k.mem.word (k.arg p 0))
        return m.code fun r => (passMessage k r p).1 := by
  unfold recvCode recv
  dsimp only
  split
  · rfl
  · rename_i hneg
    rw [show (validateRecv k a p (k.mem.word (k.arg p 0)) (k.arg p 1) (k.arg p 2).toInt).2 = k
      from validatePeer_ok hneg]
    cases recvMatch k a.fuel p (k.mem.word (k.arg p 0)) with
    | error e => rfl
    | ok m =>
        cases m with
        | refuse rc => rfl
        | wait => rfl
        | found r => rfl

/-- The number for a decision fits an `int`. -/
theorem Match.code_bounds {m : Match} {pass : Slot → Nat}
    (hm : ∀ rc, m = .refuse rc → rc = wouldDeadlock) (hpass : ∀ r, pass r < 2147483648) :
    -4 ≤ m.code pass ∧ m.code pass < 2147483648 := by
  cases m with
  | refuse rc =>
      rw [hm rc rfl]
      show -4 ≤ wouldDeadlock ∧ wouldDeadlock < 2147483648
      decide
  | wait =>
      show -4 ≤ (0 : Int) ∧ (0 : Int) < 2147483648
      decide
  | found r =>
      have hlt := hpass r
      simp only [Match.code]
      omega

/-- What `send` returns fits an `int`. -/
theorem sendCode_bounds : -4 ≤ sendCode k a p ∧ sendCode k a p < 2147483648 := by
  rw [sendCode_eq]
  split
  · have hv : -4 ≤ (validatePeer k a p (k.arg p 0) (k.arg p 1) (k.arg p 2).toInt).1 ∧
        (validatePeer k a p (k.arg p 0) (k.arg p 1) (k.arg p 2).toInt).1 ≤ 0 :=
      validatePeer_bounds
    omega
  · exact Match.code_bounds (fun rc => sendMatch_refuse) fun r => passMessage_lt

/-- What `recv` returns fits an `int`. -/
theorem recvCode_bounds (h : recvCode k a p = .ok n) : -4 ≤ n ∧ n < 2147483648 := by
  rw [recvCode_eq] at h
  split at h
  · cases h
    have hv : -4 ≤ (validatePeer k a p (k.mem.word (k.arg p 0)) (k.arg p 1)
          (k.arg p 2).toInt).1 ∧
        (validatePeer k a p (k.mem.word (k.arg p 0)) (k.arg p 1) (k.arg p 2).toInt).1 ≤ 0 :=
      validatePeer_bounds
    omega
  · simp only [Run.bind_eq_ok, pure, Except.pure, Except.ok.injEq] at h
    obtain ⟨m, hm, rfl⟩ := h
    refine Match.code_bounds ?_ fun r => passMessage_lt
    rintro rc rfl
    exact recvMatch_refuse hm

/-- A caller that has been given a number and is made ready finds it in `ret`. -/
theorem ready_answers (hu : k.Used p) (hret : (k.proctab p).ret = toWord rc) :
    Answers (ready k p) p rc := by
  have hr := ready_of_used hu
  have hsame : SameRet p k (readied k p) := SameRet.ready hr
  exact ⟨_, hr, ready_state hu hr, Eq.trans hsame hret⟩

/-- A process that blocks has the tag of its call in `ret`. -/
theorem block_ret {code : Word} (h : block k fuel p code = .ok k') :
    (k'.proctab p).ret = code := by
  have hr : SameRet p (k.upd p fun c => (c.setState .blocked).setRet code) k' :=
    .of_relinked (.append h)
  rw [show (k'.proctab p).ret = _ from hr, Kernel.upd_proctab_self]
  rfl

/-- What is in `ret` after a call for which `send` or `recv` has returned `n`. -/
def answerOf (n : Int) (req : Request) : Word := if n = 0 then req.code else toWord n

/-- After `SYS_SEND` the caller has the number that `send` returns in `ret`, or the tag of the
call if that is 0. -/
theorem sysSend_ret (h : sysSend k p a = .ok k') :
    (k'.proctab p).ret = answerOf (sendCode k a p) .send := by
  obtain ⟨n, k₀, h₀, h⟩ := sysSend_cases h
  rw [show sendCode k a p = n from congrArg Prod.fst h₀]
  unfold answerOf
  rcases h with ⟨hn, k₁, k₂, r, h₁, h₂, h₃⟩ | ⟨hn, h₁⟩ | ⟨hn, h₁⟩
  · rw [if_neg (by omega)]
    have hs : SameRet p (answered k₀ p (slotOf (k.arg p 0)) n) k' :=
      ((SameRet.ready h₁).trans (.of_relinked (.remove h₂))).trans (.ready h₃)
    exact Eq.trans hs (answered_ret k₀ p _ n).1
  · rw [if_neg (by omega)]
    have hs : SameRet p (k₀.setRet p (toWord n)) k' := .ready h₁
    rw [show (k'.proctab p).ret = _ from hs]
    simp [Kernel.setRet]
  · rw [if_pos hn]
    exact block_ret h₁

/-- After `SYS_RECV` the caller has the number that `recv` returns in `ret`, or the tag of the
call if that is 0. -/
theorem sysRecv_ret (h : sysRecv k p a = .ok k') :
    ∃ n, recvCode k a p = .ok n ∧ (k'.proctab p).ret = answerOf n .recv := by
  obtain ⟨n, k₀, h₀, h⟩ := sysRecv_cases h
  refine ⟨n, ?_, ?_⟩
  · unfold recvCode
    rw [h₀]
    rfl
  unfold answerOf
  rcases h with ⟨hn, k₁, h₁, h⟩ | ⟨hn, h₁⟩ | ⟨hn, h₁⟩
  · rw [if_neg (by omega)]
    have hs : SameRet p (answered k₀ p (slotOf (k₀.mem.word (k.arg p 0))) n) k₁ := .ready h₁
    have ha := Eq.trans hs (answered_ret k₀ p _ n).1
    rcases h with ⟨-, k₂, r, h₂, h₃⟩ | ⟨-, rfl⟩
    · have hs' : SameRet p k₁ k' := SameRet.trans (.of_relinked (.remove h₂)) (.ready h₃)
      exact Eq.trans hs' ha
    · exact ha
  · rw [if_neg (by omega)]
    have hs : SameRet p (k₀.setRet p (toWord n)) k' := .ready h₁
    rw [show (k'.proctab p).ret = _ from hs]
    simp [Kernel.setRet]
  · rw [if_pos hn]
    exact block_ret h₁

/-- A code in `ret` is the number that was returned. -/
theorem IsCode.of_answerOf (hrc : IsCode rc) (hn : -4 ≤ n ∧ n < 2147483648) {req : Request}
    (hreq : req = .send ∨ req = .recv) (h : answerOf n req = toWord rc) : n = rc := by
  unfold answerOf at h
  split at h
  · -- the tag of a call is not negative
    have htag : req.code = toWord (6 : Int) ∨ req.code = toWord (7 : Int) := by
      rcases hreq with rfl | rfl
      · exact .inl rfl
      · exact .inr rfl
    have hneg := hrc.2
    rcases htag with ht | ht <;> rw [ht] at h <;> have := hrc.inj (by omega) h <;> omega
  · exact hrc.inj (by omega) h

/-- `SYS_SEND` returns a code if and only if `send` does. -/
theorem sysSend_answers_iff (hg : Good k) (hu : k.Used p) (hrc : IsCode rc) :
    Answers (sysSend k p a) p rc ↔ sendCode k a p = rc := by
  constructor
  · rintro ⟨k', h, -, hret⟩
    exact hrc.of_answerOf sendCode_bounds (.inl rfl) ((sysSend_ret h).symm.trans hret)
  · intro hcode
    obtain ⟨n, k₀, h₀⟩ : ∃ n k₀,
        send k a (k.arg p 0) (k.arg p 1) (k.arg p 2).toInt p = (n, k₀) := ⟨_, _, rfl⟩
    obtain rfl : n = rc := (congrArg Prod.fst h₀).symm.trans hcode
    have hq : Quiet (· = p) k k₀ := send_quiet hg rfl h₀
    have hsys : sysSend k p a = ready (k₀.setRet p (toWord n)) p := by
      unfold sysSend
      simp only [h₀]
      rw [if_neg (Int.not_lt.mpr (Int.le_of_lt hrc.2)), if_pos hrc.2]
    rw [hsys]
    exact ready_answers ((hq.used hu).upd rfl) (by simp [Kernel.setRet])

/-- `SYS_RECV` returns a code if and only if `recv` does. -/
theorem sysRecv_answers_iff (hg : Good k) (hu : k.Used p) (hrc : IsCode rc) :
    Answers (sysRecv k p a) p rc ↔ recvCode k a p = .ok rc := by
  constructor
  · rintro ⟨k', h, -, hret⟩
    obtain ⟨n, hcode, hn⟩ := sysRecv_ret h
    rw [hcode, hrc.of_answerOf (recvCode_bounds hcode) (.inr rfl) (hn.symm.trans hret)]
  · intro hcode
    simp only [recvCode, Run.bind_eq_ok, pure, Except.pure, Except.ok.injEq] at hcode
    obtain ⟨⟨n, k₀⟩, h₀, rfl⟩ := hcode
    have hq : Quiet (· = p) k k₀ := recv_quiet hg rfl h₀
    have hsys : sysRecv k p a = ready (k₀.setRet p (toWord n)) p := by
      unfold sysRecv
      simp only [h₀, bind, Except.bind]
      rw [if_neg (Int.not_lt.mpr (Int.le_of_lt hrc.2)), if_pos hrc.2]
    rw [hsys]
    exact ready_answers ((hq.used hu).upd rfl) (by simp [Kernel.setRet])

end Xeros
