import Xeros.Logic.Boot

/-!
# Which assertions can fail

With good pointers every assertion of the kernel holds where it stands, but for
two: that of `next` on the state of the process it takes from the ready queue,
and that of `SYS_SLEEP` on the link of the caller.
-/

namespace Xeros

open Lib

variable {k k' : Kernel} {p p' q : Slot} {a : Ambient} {req : Request} {fuel : Nat}

/-! ## Computations that fail no assertion -/

/-- The computation does not end in a failed assertion. -/
def NoAssert {α : Type} (r : Run α) : Prop := r ≠ .error .kassert

namespace NoAssert

variable {α β : Type} {x : Run α} {f : α → Run β}

theorem ok (v : α) : NoAssert (.ok v) := nofun

theorem spin : NoAssert (.error .spin : Run α) := nofun

theorem wild : NoAssert (.error .wild : Run α) := nofun

/-- What follows is only reached with a result of the first part. -/
theorem bind (hx : NoAssert x) (hf : ∀ v, x = .ok v → NoAssert (f v)) :
    NoAssert (x >>= f) := by
  cases x with
  | error e =>
      intro h
      cases h
      exact hx rfl
  | ok v => exact hf v rfl

/-- A failed assertion behind a part that fails none. -/
theorem of_bind (hx : NoAssert x) (h : x >>= f = .error .kassert) :
    ∃ v, x = .ok v ∧ f v = .error .kassert := by
  cases x with
  | error e =>
      cases h
      exact absurd rfl hx
  | ok v => exact ⟨v, rfl, h⟩

theorem kassert {b : Prop} [Decidable b] (h : b) : NoAssert (Xeros.kassert b) := by
  rw [Xeros.kassert, if_pos h]
  exact .ok ()

end NoAssert

/-! ## The queues -/

theorem ready_noAssert (hu : k.Used p) : NoAssert (ready k p) := by
  rw [ready_of_used hu]
  exact .ok _

theorem removeLoop_noAssert {Q : QRef} {pid : Word} {o : Option Slot} :
    NoAssert (removeLoop Q pid fuel k o) := by
  induction fuel generalizing k o with
  | zero => exact .spin
  | succ fuel ih =>
      cases o with
      | none => exact .ok _
      | some c =>
          unfold removeLoop
          split
          · exact .ok _
          · exact ih

theorem remove_noAssert {Q : Option QRef} {pid : Word} : NoAssert (remove k fuel Q pid) := by
  cases Q with
  | none => exact .wild
  | some Q => exact removeLoop_noAssert

theorem appendLoop_noAssert {o : Option Slot} {prev : Slot} :
    NoAssert (appendLoop p fuel k o prev) := by
  induction fuel generalizing o prev with
  | zero => exact .spin
  | succ fuel ih =>
      cases o with
      | none => exact .ok _
      | some n =>
          unfold appendLoop
          split
          · exact .ok _
          · exact ih

theorem append_noAssert {Q : QRef} : NoAssert (append k fuel Q p) := by
  unfold append
  dsimp only
  split
  · exact .ok _
  · exact appendLoop_noAssert

theorem block_noAssert {code : Word} : NoAssert (block k fuel p code) := append_noAssert

theorem notifyWaitersLoop_noAssert {pid destpid : Word} {prev : Slot} {o : Option Slot}
    (hg : Good k) (hprev : k.Used prev) (ho : ∀ q, o = some q → k.Used q) :
    NoAssert (notifyWaitersLoop pid fuel k prev o destpid) := by
  induction fuel generalizing k prev o destpid with
  | zero => exact .spin
  | succ fuel ih =>
      cases o with
      | none => exact .ok _
      | some q =>
          have hq := ho q rfl
          simp only [notifyWaitersLoop]
          split
          · have hx : Quiet (· = q) k (k.upd prev fun c => c.setNext (k.proctab q).next) :=
              .updNext hg hprev (hg.next q)
            have hy := hx.trans (.setRet (X := (· = q)) hx.good rfl (toWord badPid))
            refine .bind (ready_noAssert (hy.used hq)) fun k₁ h₁ => ?_
            have hz := hy.trans (ready_quiet hy.good (hy.used hq) h₁)
            exact ih hz.good (hz.used hq) (hz.good.next q)
          · exact ih hg hq (hg.next q)

theorem notifyWaiters_noAssert {pid : Word} (hg : Good k) : NoAssert (notifyWaiters k a pid) := by
  unfold notifyWaiters
  split
  · exact .ok _
  · rename_i q hq
    refine notifyWaitersLoop_noAssert hg (hg.blockedQ q hq) ?_
    rintro r ⟨rfl⟩
    exact hg.blockedQ q hq

/-- The end of a rendezvous. -/
theorem release_noAssert {Q : Option QRef} {pid : Word} (hg : Good k) (hu : k.Used q) :
    NoAssert (do let (k, _) ← remove k fuel Q pid; ready k q) := by
  refine .bind remove_noAssert ?_
  rintro ⟨k₁, n⟩ h₁
  exact ready_noAssert ((remove_quiet (X := nobody) hg h₁).used hu)

/-- `next` compares the pid with that of the slot it leads to, and it is the same; so
only the state of the process can be wrong. -/
theorem reschedule_assert (hg : Good k) (h : reschedule k = .error .kassert) :
    ∃ q, k.head = some q ∧ (k.proctab q).pid = (k.proctab (slotOf (k.proctab q).pid)).pid ∧
      (k.proctab q).state ≠ .ready := by
  unfold reschedule at h
  unfold next at h
  cases hhead : k.head with
  | none =>
      rw [hhead] at h
      cases h
  | some q =>
      have hpid : (k.proctab q).pid = (k.proctab (slotOf (k.proctab q).pid)).pid := by
        rw [(hg.head q hhead).2.1]
      refine ⟨q, rfl, hpid, fun hst => ?_⟩
      rw [hhead] at h
      dsimp only at h
      rw [kassert, if_pos hpid, kassert, if_pos hst] at h
      cases h

/-! ## The requests -/

theorem sysSend_noAssert (hg : Good k) (hu : k.Used p) : NoAssert (sysSend k p a) := by
  unfold sysSend
  dsimp only
  cases h₀ : send k a (k.arg p 0) (k.arg p 1) (k.arg p 2).toInt p with
  | mk n k₀ =>
      dsimp only
      have hs : Quiet (· = p) k k₀ := send_quiet hg rfl h₀
      split
      · rename_i hn
        have hd : k.Used (slotOf (k.arg p 0)) := hg.used (by simp [send_pos h₀ hn])
        have hz := answered_quiet (q := slotOf (k.arg p 0)) (n := n) hs rfl
        refine .bind (ready_noAssert (hz.used hu)) fun k₁ h₁ => ?_
        have hw := hz.trans (ready_quiet hz.good (hz.used hu) h₁)
        exact release_noAssert hw.good (hw.used hd)
      split
      · have hy := hs.trans (.setRet (X := (· = p)) hs.good rfl (toWord n))
        exact ready_noAssert (hy.used hu)
      · exact block_noAssert

theorem recvScan_noAssert {o : Option Slot} : NoAssert (recvScan k p fuel o) := by
  induction fuel generalizing o with
  | zero => exact .spin
  | succ fuel ih =>
      cases o with
      | none => exact .ok _
      | some b =>
          unfold recvScan
          split
          · exact ih
          split
          · exact .ok _
          · exact ih

theorem recv_noAssert {f buf : Word} {len : Int} : NoAssert (recv k a f buf len p) := by
  unfold recv
  dsimp only
  split
  · exact .ok _
  · refine .bind ?_ fun m _ => ?_
    · unfold recvMatch
      split
      · exact recvScan_noAssert
      dsimp only
      split
      · exact .ok _
      split <;> exact .ok _
    · cases m <;> exact .ok _

theorem sysRecv_noAssert (hg : Good k) (hu : k.Used p) : NoAssert (sysRecv k p a) := by
  refine .bind recv_noAssert ?_
  rintro ⟨n, k₀⟩ h₀
  have hs : Quiet (· = p) k k₀ := recv_quiet hg rfl h₀
  dsimp only
  split
  · have hz := answered_quiet (q := slotOf (k₀.mem.word (k.arg p 0))) (n := n) hs rfl
    refine .bind (ready_noAssert (hz.used hu)) fun k₁ h₁ => ?_
    have hw := hz.trans (ready_quiet hz.good (hz.used hu) h₁)
    split
    · rename_i hpid
      exact release_noAssert hw.good (hw.good.used_of_pid hpid)
    · exact .ok _
  split
  · have hy := hs.trans (.setRet (X := (· = p)) hs.good rfl (toWord n))
    exact ready_noAssert (hy.used hu)
  · exact block_noAssert

theorem findBlock_noAssert {h : Heap} {size b : Word} : NoAssert (findBlock h size fuel b) := by
  induction fuel generalizing b with
  | zero => exact .spin
  | succ fuel ih =>
      unfold findBlock
      split
      · exact ih
      · exact .ok _

theorem kmalloc_noAssert {h : Heap} {size : Word} : NoAssert (kmalloc h fuel size) := by
  unfold kmalloc
  dsimp only
  generalize (if size &&& 0xf ≠ 0 then (size + 0x10) &&& paragraphMask else size) = n
  refine .bind findBlock_noAssert fun b _ => ?_
  split
  · exact .ok _
  split <;> exact .ok _

theorem create_noAssert {fp stack : Word} : NoAssert (create k fuel fp stack) := by
  unfold create
  dsimp only
  split
  · exact .bind remove_noAssert fun _ _ => .ok _
  · rename_i i hi
    refine .bind remove_noAssert ?_
    rintro ⟨k₁, n⟩ h₁
    refine .bind kmalloc_noAssert ?_
    rintro ⟨b, heap⟩ -
    dsimp only
    split
    · exact .ok _
    · refine .bind (ready_noAssert ⟨(freeSlot_spec hi).1, ?_⟩) fun _ _ => .ok _
      simpa using nextPid_used (k₁.proctab i).pid i

theorem sysStop_noAssert (hg : Good k) (hu : k.Used p) : NoAssert (sysStop k p a) := by
  refine .bind append_noAssert fun k₁ h₁ => ?_
  have hx : Quiet (· = p) k (k.upd p fun c => (c.setState .stopped).setNext none) :=
    .upd hg hu ⟨rfl, rfl, rfl, rfl, rfl, rfl, rfl, rfl⟩ (by simp) (.inl rfl)
  exact notifyWaiters_noAssert (append_quiet (X := nobody) hx.good (hx.used hu) h₁).good

theorem tickLoop_noAssert (hg : Good k) : NoAssert (tickLoop fuel k) := by
  induction fuel generalizing k with
  | zero => exact .spin
  | succ fuel ih =>
      unfold tickLoop
      split
      · exact .ok _
      · rename_i h hh
        split
        · have hu := hg.headsleeper h hh
          have hx := popSleeper_quiet (X := nobody) hg hu
          refine .bind (ready_noAssert (hx.used hu)) fun k₁ h₁ => ?_
          exact ih (ready_quiet (X := nobody) hx.good (hx.used hu) h₁).good
        · exact .ok _

theorem tick_noAssert (hg : Good k) : NoAssert (tick k fuel) := by
  unfold tick
  split
  · exact .ok _
  · rename_i h hh
    split
    · refine .bind (tickLoop_noAssert ?_) fun _ _ => .ok _
      exact (Quiet.updTicks (X := nobody) hg (hg.headsleeper h hh) fun _ => 0).good
    · exact .ok _

theorem sleepLoop_noAssert {ticks acc : Word} {prev : Slot} {o : Option Slot} :
    NoAssert (sleepLoop k ticks fuel prev o acc) := by
  induction fuel generalizing prev o acc with
  | zero => exact .spin
  | succ fuel ih =>
      cases o with
      | none => exact .ok _
      | some n =>
          unfold sleepLoop
          split
          · exact ih
          · exact .ok _

theorem sleep_noAssert {ms : Word} (hp : p ≠ 0) : NoAssert (sleep k fuel ms p) := by
  refine .bind (.kassert hp) fun _ _ => ?_
  split
  · exact .ok _
  split
  · exact .bind sleepLoop_noAssert fun _ _ => .ok _
  · exact .ok _

theorem post_noAssert {signo : Int} (hu : k.Used q) : NoAssert (post k q signo) := by
  have hu' : (k.upd q fun c => c.pend signo).Used q := hu.upd rfl
  unfold post
  dsimp only
  split
  · refine .bind (ready_noAssert hu') fun _ _ => ?_
    split <;> exact .ok _
  · exact .bind (ready_noAssert hu') fun _ _ => .ok _
  · exact .ok _

theorem signal_noAssert {pid signo : Int} (hg : Good k) : NoAssert (signal k a pid signo) := by
  rw [signal_eq]
  split
  · rename_i hacc
    have hp : NoAssert (post k (slotOf (toWord pid)) signo) := post_noAssert (hacc.used hg)
    intro h
    cases hx : post k (slotOf (toWord pid)) signo with
    | ok k₁ =>
        rw [hx] at h
        cases h
    | error e =>
        rw [hx] at h
        cases h
        exact hp hx
  · exact .ok _

/-! ## The keyboard -/

theorem notifyReader_noAssert (hg : Good k) : NoAssert (notifyReader k fuel) := by
  unfold notifyReader
  split
  · exact .ok _
  · rename_i r hr
    split
    · rename_i hst
      refine .bind ?_ fun _ _ => .ok _
      refine .bind (.kassert hst) fun _ _ => .bind remove_noAssert ?_
      rintro ⟨k₁, n⟩ h₁
      have hx := remove_quiet (X := (· = r)) hg h₁
      have hy := hx.trans (.setRet (X := (· = r)) hx.good rfl (toWord k₁.kbd.applbufidx))
      exact ready_noAssert (hy.used (hg.reader r hr))
    · exact .ok _

theorem bufferKey_noAssert {c ascii : Byte} (hg : Good k) :
    NoAssert (bufferKey k fuel c ascii) := by
  have hs := (KbdOnly.storeAndFlush k c).quiet (X := nobody) hg
  unfold bufferKey
  split
  · exact .ok _
  split
  · exact .ok _
  · rename_i k₁ hk₁
    rw [hk₁] at hs
    exact .bind (notifyReader_noAssert hs.good) fun _ _ => .ok _

theorem processKey_noAssert (hg : Good k) : NoAssert (processKey k a) := by
  have hk := Quiet.setKbd (X := nobody) hg
    (b := { k.kbd with keyState := (kbtoa k.kbd.keyState a.datasrc).2 }) hg.reader
  unfold processKey
  dsimp only
  unfold handleKey
  split
  · exact .ok _
  split
  · exact .ok _
  split
  · have hc := (KbdOnly.completeRead _ a.datasrc).quiet (X := nobody) hk.good
    refine .bind (notifyReader_noAssert hc.good) ?_
    rintro ⟨k₁, woken⟩ h₁
    dsimp only
    split
    · exact .ok _
    · exact bufferKey_noAssert (notifyReader_quiet (X := nobody) hc.good h₁).good
  · exact bufferKey_noAssert hk.good

/-! ## The dispatcher -/

/-- The kernel at the call of `next` that serves a request. -/
inductive CallsNext (k : Kernel) (p : Slot) (a : Ambient) : Request → Kernel → Prop
  | stop {j : Kernel} (h : sysStop k p a = .ok j) : CallsNext k p a .stop j
  | yield {j : Kernel} (h : ready k p = .ok j) : CallsNext k p a .yield j
  | timer {j : Kernel} (h : ready k p = .ok j) : CallsNext k p a .timer j
  | send {j : Kernel} (h : sysSend k p a = .ok j) : CallsNext k p a .send j
  | recv {j : Kernel} (h : sysRecv k p a = .ok j) : CallsNext k p a .recv j
  | sleep {j : Kernel} (h : sysSleep k p a = .ok j) : CallsNext k p a .sleep j
  | sigwait {j : Kernel} (h : sysSigwait k p a = .ok j) : CallsNext k p a .sigwait j
  | read {j : Kernel} (h : block ((diRead k p (k.arg p 0).toInt (k.arg p 1)
      (k.arg p 2).toInt).2.upd p fun c => c.setNext none) a.fuel p Request.read.code = .ok j) :
      CallsNext k p a .read j

/-- An assertion fails only in `SYS_SLEEP`, or in `next` on the state of the process that
it takes. -/
theorem serve_assert (hg : Good k) (hu : k.Used p) (hrun : (k.proctab p).state = .running)
    (h : serve k p a req = .error .kassert) :
    (req = .sleep ∧ (k.proctab p).next ≠ none) ∨
      ∃ k₁ q, CallsNext k p a req k₁ ∧ k₁.head = some q ∧
        (k₁.proctab q).pid = (k₁.proctab (slotOf (k₁.proctab q).pid)).pid ∧
        (k₁.proctab q).state ≠ .ready := by
  have hnext : ∀ {x : Run Kernel}, NoAssert x → (∀ k₁, x = .ok k₁ → Good k₁) →
      (∀ k₁, x = .ok k₁ → CallsNext k p a req k₁) →
      x >>= reschedule = .error .kassert → ∃ k₁ q, CallsNext k p a req k₁ ∧ k₁.head = some q ∧
        (k₁.proctab q).pid = (k₁.proctab (slotOf (k₁.proctab q).pid)).pid ∧
        (k₁.proctab q).state ≠ .ready := by
    intro x hx hgood hcall hk
    obtain ⟨k₁, h₁, hk⟩ := hx.of_bind hk
    obtain ⟨q, hq⟩ := reschedule_assert (hgood k₁ h₁) hk
    exact ⟨k₁, q, hcall k₁ h₁, hq⟩
  cases req with
  | stop =>
      exact .inr (hnext (sysStop_noAssert hg hu)
        (fun _ h₁ => (sysStop_quiet (X := (· = p)) hg hu rfl h₁).good) (fun _ => .stop) h)
  | yield =>
      exact .inr (hnext (ready_noAssert hu) (fun _ h₁ => (ready_quiet (X := nobody) hg hu h₁).good)
        (fun _ => .yield) h)
  | create =>
      obtain ⟨k₁, -, h⟩ := NoAssert.of_bind (.bind create_noAssert fun _ _ => .ok _) h
      cases h
  | timer =>
      obtain ⟨k₁, h₁, h⟩ := (ready_noAssert hu).of_bind h
      have hx := ready_quiet (X := nobody) hg hu h₁
      cases h₂ : reschedule k₁ with
      | error e =>
          rw [h₂] at h
          cases h
          obtain ⟨q, hq⟩ := reschedule_assert hx.good h₂
          exact .inr ⟨k₁, q, .timer h₁, hq⟩
      | ok v =>
          rw [h₂] at h
          obtain ⟨hy, -⟩ := reschedule_quiet (X := nobody) hx.good h₂
          obtain ⟨_, -, h⟩ := (tick_noAssert hy.good).of_bind h
          cases h
  | getpid => cases h
  | puts => cases h
  | send =>
      exact .inr (hnext (sysSend_noAssert hg hu)
        (fun _ h₁ => (sysSend_quiet (X := (· = p)) hg hu rfl h₁).good) (fun _ => .send) h)
  | recv =>
      exact .inr (hnext (sysRecv_noAssert hg hu)
        (fun _ h₁ => (sysRecv_quiet (X := (· = p)) hg hu rfl h₁).good) (fun _ => .recv) h)
  | sleep =>
      by_cases hlink : (k.proctab p).next = none
      · have hsleep : NoAssert (sysSleep k p a) :=
          .bind (.kassert hrun) fun _ _ => .bind (.kassert hlink) fun _ _ => sleep_noAssert hu.1
        exact .inr (hnext hsleep (fun _ h₁ => (sysSleep_quiet (X := (· = p)) hg hu rfl h₁).good)
          (fun _ => .sleep) h)
      · exact .inl ⟨rfl, hlink⟩
  | sighandler => cases h
  | sigreturn => cases h
  | sigkill =>
      have hkill : NoAssert (sysSigkill k p a) := .bind (signal_noAssert hg) fun _ _ => .ok _
      obtain ⟨_, -, h⟩ := hkill.of_bind h
      cases h
  | sigwait =>
      simp only [serve] at h
      split at h
      · cases h
      · exact .inr (hnext block_noAssert
          (fun _ h₁ => (sysSigwait_quiet (X := (· = p)) hg hu rfl h₁).good) (fun _ => .sigwait) h)
  | openDev => cases h
  | close => cases h
  | write =>
      have hwrite : NoAssert (sysWrite k p a) := by
        refine .bind ?_ fun _ _ => .ok _
        unfold printbuffer
        split
        · exact .ok _
        · exact .wild
      obtain ⟨_, -, h⟩ := hwrite.of_bind h
      cases h
  | read =>
      have hx := diRead_quiet (X := (· = p)) (k.arg p 0).toInt (k.arg p 1) (k.arg p 2).toInt hg hu
      have hy := hx.trans (.updNext hx.good (hx.used hu) (o := none) (by simp))
      simp only [serve, sysRead] at h
      split at h
      · cases h
      split at h
      · exact .inr (hnext block_noAssert
          (fun _ h₁ => (block_quiet hy.good (hy.used hu) rfl h₁).good) (fun _ => .read) h)
      split at h <;> cases h
  | ioctl => cases h
  | keyboard =>
      have hkey : NoAssert (sysKeyboard k a) := by
        unfold sysKeyboard
        split
        · exact processKey_noAssert hg
        · exact .ok _
      obtain ⟨_, -, h⟩ := hkey.of_bind h
      cases h
  | bad => cases h

end Xeros
