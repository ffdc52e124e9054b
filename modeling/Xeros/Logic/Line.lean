import Xeros.Logic.Fifo
import Xeros.Logic.Safe
import Xeros.Logic.Sleepers

/-!
# The line of the ready processes

Between two choices of `next`, whatever the kernel does, the ready queue grows at its end only:
the links of the processes in it stay, and only processes that neither run nor are ready are
linked behind the last. So a process keeps its place in the line.
-/

namespace Xeros

open Lib

variable {k k' k₁ k₂ : Kernel} {p p' q r z : Slot} {a : Ambient} {fuel : ℕ} {X Y : Slot → Prop}
  {L : Queue → List Slot} {c : Queue} {o : Option Slot}

/-- The process runs or is ready to. -/
def Pcb.Up (c : Pcb) : Prop := c.state = .running ∨ c.state = .ready

/-- Processes may join the ready queue at its end, and of those that run or are ready at most
those in `X` change. -/
structure KeepsLine (X : Slot → Prop) (k k' : Kernel) : Prop where
  ends : (k.tail = none → k.head = none) →
    (k'.tail = none → k'.head = none) ∧ ∀ h, k.head = some h → k'.head = some h
  pcb : ∀ q, ¬ X q → (k.proctab q).Up →
    (k'.proctab q).state = (k.proctab q).state ∧ (k'.proctab q).pid = (k.proctab q).pid
  link : ∀ q, ¬ X q → (k.proctab q).Up → k.tail ≠ some q →
    k'.link q = k.link q ∧ k'.tail ≠ some q
  idle : k'.idleprocPid = k.idleprocPid

/-- A process in another list than the ready queue neither runs nor is ready. -/
theorem Queues.not_up (h : Queues k o L) (hc : c ≠ .ready) (hq : q ∈ L c) :
    ¬ (k.proctab q).Up := by
  have hplaced := h.placed c q hq
  rintro (hs | hs)
  · rw [hs] at hplaced
    cases hplaced
  · rw [hs] at hplaced
    exact hc (Option.some.inj hplaced).symm

namespace KeepsLine

theorem refl (k : Kernel) : KeepsLine X k k :=
  ⟨fun h => ⟨h, fun _ hx => hx⟩, fun _ _ _ => ⟨rfl, rfl⟩, fun _ _ _ ht => ⟨rfl, ht⟩, rfl⟩

theorem up (h : KeepsLine X k k') (hX : ¬ X q) (hq : (k.proctab q).Up) :
    (k'.proctab q).Up := by
  unfold Pcb.Up
  rw [(h.pcb q hX hq).1]
  exact hq

theorem trans (h₁ : KeepsLine X k k₁) (h₂ : KeepsLine X k₁ k₂) : KeepsLine X k k₂ where
  ends h := by
    obtain ⟨he₁, hd₁⟩ := h₁.ends h
    obtain ⟨he₂, hd₂⟩ := h₂.ends he₁
    exact ⟨he₂, fun x hx => hd₂ x (hd₁ x hx)⟩
  pcb q hX hq := by
    obtain ⟨hs₁, hp₁⟩ := h₁.pcb q hX hq
    obtain ⟨hs₂, hp₂⟩ := h₂.pcb q hX (h₁.up hX hq)
    exact ⟨hs₂.trans hs₁, hp₂.trans hp₁⟩
  link q hX hq ht := by
    obtain ⟨hl₁, ht₁⟩ := h₁.link q hX hq ht
    obtain ⟨hl₂, ht₂⟩ := h₂.link q hX (h₁.up hX hq) ht₁
    exact ⟨hl₂.trans hl₁, ht₂⟩
  idle := h₂.idle.trans h₁.idle

theorem mono (h : KeepsLine X k k') (hXY : ∀ q, X q → Y q) : KeepsLine Y k k' where
  ends := h.ends
  pcb q hY := h.pcb q fun hX => hY (hXY q hX)
  link q hY := h.link q fun hX => hY (hXY q hX)
  idle := h.idle

/-- A process that neither runs nor is ready is not in line. -/
theorem of_or (h : KeepsLine (fun q => X q ∨ q = r) k k') (hr : ¬ (k.proctab r).Up) :
    KeepsLine X k k' := by
  have hX : ∀ q, ¬ X q → (k.proctab q).Up → ¬ (X q ∨ q = r) := by
    rintro q hq hup (hx | rfl)
    · exact hq hx
    · exact hr hup
  exact ⟨h.ends, fun q hq hup => h.pcb q (hX q hq hup) hup,
    fun q hq hup => h.link q (hX q hq hup) hup, h.idle⟩

/-- The ends of the queue are the same. -/
theorem of_ends (hh : k'.head = k.head) (ht : k'.tail = k.tail)
    (hi : k'.idleprocPid = k.idleprocPid)
    (hpcb : ∀ q, ¬ X q → (k.proctab q).Up → (k'.proctab q).state = (k.proctab q).state ∧
      (k'.proctab q).pid = (k.proctab q).pid ∧ k'.link q = k.link q) : KeepsLine X k k' where
  ends h := by
    rw [hh, ht]
    exact ⟨h, fun _ hx => hx⟩
  pcb q hX hq := ⟨(hpcb q hX hq).1, (hpcb q hX hq).2.1⟩
  link q hX hq hne := ⟨(hpcb q hX hq).2.2, by rwa [ht]⟩
  idle := hi

theorem unmoved (h : Unmoved k k') : KeepsLine X k k' :=
  of_ends (h.first .ready) h.tail h.idle fun q _ _ => ⟨h.state q, h.pid q, h.next q⟩

/-- A pcb is changed that is in `X`, or of a process that neither runs nor is ready. -/
theorem upd (k : Kernel) (r : Slot) {f : Pcb → Pcb} (hr : (k.proctab r).Up → X r) :
    KeepsLine X k (k.upd r f) := by
  refine of_ends rfl rfl rfl fun q hX hq => ?_
  have hqr : q ≠ r := by
    rintro rfl
    exact hX (hr hq)
  simp [Kernel.link, hqr]

/-- `ready` links the process to the end. -/
theorem readied (hr : (k.proctab r).Up → X r) : KeepsLine X k (readied k r) := by
  have hne : ∀ q, ¬ X q → (k.proctab q).Up → q ≠ r := by
    rintro q hX hq rfl
    exact hX (hr hq)
  refine ⟨fun h => ?_, fun q hX hq => ?_, fun q hX hq ht => ?_, ?_⟩
  · unfold Xeros.readied
    dsimp only
    split
    · exact ⟨h, fun _ hx => hx⟩
    · unfold enqueue
      split
      · exact ⟨nofun, fun _ hx => hx⟩
      · rename_i ht
        refine ⟨nofun, fun x hx => ?_⟩
        rw [h ht] at hx
        cases hx
  · obtain ⟨x, hx⟩ := readied_proctab k r q
    rw [hx, if_neg (hne q hX hq)]
    exact ⟨rfl, rfl⟩
  · refine ⟨readied_link (hne q hX hq) ht, fun ht' => ?_⟩
    rcases (readied_spec k r).2.2.1 q ht' with htail | rfl
    · exact ht htail
    · exact hne q hX hq rfl
  · unfold Xeros.readied enqueue
    dsimp only
    split
    · rfl
    · split
      · rfl
      · rfl

theorem ready (hr : (k.proctab r).Up → X r) (hu : k.Used r) (h : Xeros.ready k r = .ok k') :
    KeepsLine X k k' := by
  obtain rfl := Except.ok.inj ((ready_of_used hu).symm.trans h)
  exact readied hr

end KeepsLine

/-! ## The other lists -/

theorem QRef.set_ready {Q : QRef} (hQ : Q.queue = some c) (hc : c ≠ .ready)
    (v : Option Slot) : (Q.set k v).head = k.head ∧ (Q.set k v).tail = k.tail := by
  cases Q
  case head => exact absurd (Option.some.inj hQ).symm hc
  all_goals exact ⟨rfl, rfl⟩

theorem KeepsLine.set {Q : QRef} (hQ : Q.queue = some c) (hc : c ≠ .ready) (v : Option Slot) :
    KeepsLine X k (Q.set k v) := by
  obtain ⟨hh, ht⟩ := QRef.set_ready (k := k) hQ hc v
  refine .of_ends hh ht (QRef.set_idleprocPid Q k v) fun q _ _ => ?_
  rw [QRef.set_proctab, QRef.set_link]
  exact ⟨rfl, rfl, rfl⟩

/-- `remove` takes a process out of another list. -/
theorem Queues.removeLoop_line (h : Queues k o L) {Q : QRef} (hQ : Q.queue = some c)
    (hc : c ≠ .ready) {pid : Word} {n : Int}
    (hr : Xeros.removeLoop Q pid fuel k (Q.get k) = .ok (k', n)) : KeepsLine X k k' := by
  have hchain : Chain k.link (Q.get k) (L c) := QRef.get_eq hQ k ▸ h.chain c
  rcases removeLoop_cases hchain hr with ⟨l₁, b, l₂, hl, -, -, -, rfl⟩ | ⟨-, -, rfl⟩
  · refine (KeepsLine.set hQ hc _).trans (.upd _ b fun hb => ?_)
    rw [QRef.set_proctab] at hb
    exact absurd hb (h.not_up hc (by simp [hl]))
  · split
    · exact .set hQ hc _
    · exact .refl k

/-- `append` links the process on its way to the end of another list. -/
theorem Queues.append_line (h : Queues k (some p) L) {Q : QRef} (hQ : Q.queue = some c)
    (hc : c ≠ .ready) (hX : X p) (ha : Xeros.append k fuel Q p = .ok k') : KeepsLine X k k' := by
  have hchain : Chain k.link (Q.get k) (L c) := QRef.get_eq hQ k ▸ h.chain c
  have hlink := append_link_ne hchain (h.out p rfl c) ha
  have hrel := Relinked.append ha
  have hends : (k'.head = k.head ∧ k'.tail = k.tail) ∧ k'.idleprocPid = k.idleprocPid := by
    obtain ⟨k₀, rfl, rfl | rfl | ⟨x, -, -, rfl⟩⟩ := append_cases ha
    · exact ⟨QRef.set_ready (k := k.upd p fun c => c.setNext none) hQ hc _,
        QRef.set_idleprocPid _ _ _⟩
    · exact ⟨⟨rfl, rfl⟩, rfl⟩
    · exact ⟨⟨rfl, rfl⟩, rfl⟩
  refine .of_ends hends.1.1 hends.1.2 hends.2 fun q hXq hq => ⟨hrel.state q, hrel.pid q, hlink q ?_ ?_⟩
  · rintro rfl
    exact hXq hX
  · exact fun hm => h.not_up hc hm hq

/-- A process that blocks leaves the processor. -/
theorem Queues.block_line (h : Queues k (some p) L) {code : Word}
    (hi : p ≠ slotOf k.idleprocPid) (hX : X p) (hb : Xeros.block k fuel p code = .ok k') :
    KeepsLine X k k' := by
  have h₁ := h.updOut (f := fun c => (c.setState .blocked).setRet code)
    fun he => absurd he hi
  exact (KeepsLine.upd k p fun _ => hX).trans (h₁.append_line rfl (by decide) hX hb)

/-- The end of a rendezvous: both partners join the line. -/
theorem Queues.release_line {n : Int} (h : Queues k none L) (hg : Good k) (hu : k.Used p)
    (hp : (k.proctab p).state = .running) (hX : X p) (hz : k.blockedQ = some z)
    (h₁ : Xeros.ready k p = .ok k₁)
    (h₂ : remove k₁ fuel (getQ (k₁.proctab z).state) (k₁.proctab z).pid = .ok (k₂, n))
    (h₃ : Xeros.ready k₂ z = .ok k') : KeepsLine X k k' := by
  obtain ⟨l, hl, -⟩ := h.first_eq (c := .blocked) hz
  obtain ⟨L₁, hq₁, hb₁⟩ := h.readyRunning hu hp h₁
  have hz₁ : z ∈ L₁ .blocked := by simp [hb₁, hl]
  have hst : (k₁.proctab z).state = .blocked := by
    have hplaced := hq₁.placed .blocked z hz₁
    revert hplaced
    cases (k₁.proctab z).state <;> simp [PState.queue]
  rw [hst] at h₂
  have hx₁ := ready_quiet (X := nobody) hg hu h₁
  have hx₂ := remove_quiet (X := nobody) hx₁.good h₂
  have hz₂ : (k₂.proctab z).state = .blocked :=
    ((Relinked.remove h₂).state z).trans hst
  have hline₁ : KeepsLine X k k₁ := .ready (fun _ => hX) hu h₁
  have hline₂ : KeepsLine X k₁ k₂ :=
    hq₁.removeLoop_line (Q := .blockedQ) rfl (by decide) h₂
  refine (hline₁.trans hline₂).trans (.ready (fun hup => ?_) ?_ h₃)
  · rcases hup with hs | hs
    · rw [hz₂] at hs
      cases hs
    · rw [hz₂] at hs
      cases hs
  · exact hx₂.used (hx₁.used (hg.used_of_chain (h.chain .blocked) hg.blockedQ z (by simp [hl])))

/-! ## Requests that move the process itself -/

theorem Queues.sysSend_line (h : Queues k none L) (hg : Good k) (hu : k.Used p)
    (hp : (k.proctab p).state = .running) (hX : X p) (hc : MovesSafely k p a .send)
    (hs : Xeros.sysSend k p a = .ok k') : KeepsLine X k k' := by
  obtain ⟨n, k₀, h₀, hs⟩ := sysSend_cases hs
  have hx : Quiet (· = p) k k₀ := send_quiet hg rfl h₀
  have hcases := send_cases h₀
  have hun : Unmoved k k₀ := by
    rcases hcases with ⟨r, -, -, rfl⟩ | ⟨-, -, rfl | ⟨v, rfl⟩⟩
    · exact .setMem _ _
    · exact .refl _
    · exact .setRet _ _ _
  rcases hs with ⟨hn, k₁, k₂, m, h₁, h₂, h₃⟩ | ⟨-, h₁⟩ | ⟨hn, h₁⟩
  · rcases hcases with ⟨r, hpeer, hpassed, -⟩ | ⟨-, hn', -⟩
    · have hmsg : ¬ EmptyMessage k p r := passMessage_pos.mp (by omega)
      have hr : r = slotOf (k.arg p 0) := (sendPeer_found hpeer).1.symm
      have hun' := Unmoved.answered k₀ p (slotOf (k.arg p 0)) n
      have hb : (answered k₀ p (slotOf (k.arg p 0)) n).blockedQ = some (slotOf (k.arg p 0)) :=
        ((hun.trans hun').first .blocked).trans (hr ▸ hc.send rfl r hpeer hmsg)
      have hy := answered_quiet (q := slotOf (k.arg p 0)) (n := n) hx rfl
      refine (KeepsLine.unmoved (hun.trans hun')).trans
        (((h.unmoved hun).unmoved hun').release_line hy.good (hy.used hu) ?_ hX hb h₁ h₂ h₃)
      rw [hun'.state, hun.state]
      exact hp
    · exact absurd hn (Int.not_lt.mpr hn')
  · have hun' := hun.trans (.setRet k₀ p (toWord n))
    exact (KeepsLine.unmoved hun').trans (.ready (fun _ => hX) (hun'.used hu) h₁)
  · have hi : p ≠ slotOf k.idleprocPid := fun hi => hc.idle hi (by
      show (send k a (k.arg p 0) (k.arg p 1) (k.arg p 2).toInt p).1 = 0
      rw [h₀]
      exact hn)
    have hout := (h.leave fun c => h.notMem_of_running hp).unmoved hun
    exact (KeepsLine.unmoved hun).trans (hout.block_line (by rwa [hun.idle]) hX h₁)

theorem Queues.sysRecv_line (h : Queues k none L) (hg : Good k) (hu : k.Used p)
    (hp : (k.proctab p).state = .running) (hX : X p) (hc : MovesSafely k p a .recv)
    (hs : Xeros.sysRecv k p a = .ok k') : KeepsLine X k k' := by
  obtain ⟨n, k₀, h₀, hs⟩ := sysRecv_cases hs
  have hx : Quiet (· = p) k k₀ := recv_quiet hg rfl h₀
  have hcases := recv_cases h₀
  have hun : Unmoved k k₀ := by
    rcases hcases with ⟨q, -, -, rfl⟩ | ⟨-, -, rfl | ⟨v, rfl⟩⟩
    · exact .setMem _ _
    · exact .refl _
    · exact .setRet _ _ _
  rcases hs with ⟨hn, k₁, h₁, hs⟩ | ⟨-, h₁⟩ | ⟨hn, h₁⟩
  · rcases hcases with ⟨q, hpeer, hpassed, hk₀⟩ | ⟨-, hn', -⟩
    · have hmsg : ¬ EmptyMessage k q p := passMessage_pos.mp (by omega)
      have hz : slotOf (k₀.mem.word (k.arg p 0)) = released k p q := by rw [hk₀]; rfl
      rw [hz] at h₁ hs
      have hun' := Unmoved.answered k₀ p (released k p q) n
      have hy := answered_quiet (q := released k p q) (n := n) hx rfl
      have hrun : ((answered k₀ p (released k p q) n).proctab p).state = .running := by
        rw [hun'.state, hun.state]
        exact hp
      refine (KeepsLine.unmoved (hun.trans hun')).trans ?_
      rcases hs with ⟨hpid₁, k₂, m, h₂, h₃⟩ | ⟨-, rfl⟩
      · have hpid : (k₁.proctab (released k p q)).pid = (k.proctab (released k p q)).pid := by
          have hr := ready_quiet (X := nobody) hy.good (hy.used hu) h₁
          rw [(hr.same _).pid, hun'.pid, hun.pid]
        rcases hc.recv rfl q hpeer hmsg with h0 | hb
        · exact absurd (hpid.trans h0) hpid₁
        · have hfirst := (hun.trans hun').first .blocked
          exact ((h.unmoved hun).unmoved hun').release_line hy.good (hy.used hu) hrun hX
            (hfirst.trans hb) h₁ h₂ h₃
      · exact .ready (fun _ => hX) (hy.used hu) h₁
    · exact absurd hn (Int.not_lt.mpr hn')
  · have hun' := hun.trans (.setRet k₀ p (toWord n))
    exact (KeepsLine.unmoved hun').trans (.ready (fun _ => hX) (hun'.used hu) h₁)
  · have hi : p ≠ slotOf k.idleprocPid := fun hi => hc.idle hi ⟨k₀, hn ▸ h₀⟩
    have hout := (h.leave fun c => h.notMem_of_running hp).unmoved hun
    exact (KeepsLine.unmoved hun).trans (hout.block_line (by rwa [hun.idle]) hX h₁)

/-- The walk of `notify_waiters` cuts one process out of `blocked_q` at most, and makes it
ready. -/
theorem Queues.notifyWaitersLoop_line {pid destpid : Word} {prev : Slot} {x : Option Slot}
    {l : List Slot} (h : Queues k none L) (hg : Good k) (hx : Chain k.link x l)
    (hl : ∀ q ∈ prev :: l, q ∈ L .blocked)
    (hn : Xeros.notifyWaitersLoop pid fuel k prev x destpid = .ok k') : KeepsLine X k k' := by
  induction fuel generalizing l prev x destpid with
  | zero => cases hn
  | succ fuel ih =>
      cases x with
      | none =>
          obtain rfl := Except.ok.inj hn
          exact .refl k
      | some q =>
          obtain ⟨l', rfl, hx'⟩ := Chain.some_iff.mp hx
          simp only [Xeros.notifyWaitersLoop] at hn
          split at hn
          · simp only [Run.bind_eq_ok] at hn
            obtain ⟨k₁, h₁, hn⟩ := hn
            have hqb : q ∈ L .blocked := hl q (List.mem_cons_of_mem _ List.mem_cons_self)
            have hu : (k.upd prev fun c => c.setNext (k.proctab q).next).Used q :=
              .upd rfl (hg.used_of_chain (h.chain .blocked) hg.blockedQ q hqb)
            have hcut : KeepsLine X k (k.upd prev fun c => c.setNext (k.proctab q).next) :=
              .upd k prev fun hup => absurd hup (h.not_up (by decide) (hl prev List.mem_cons_self))
            have hrel := Relinked.setNext k prev (k.proctab q).next
            have htail : (k.upd prev fun c => c.setNext (k.proctab q).next).tail ≠ some q := by
              intro ht
              have hqr : q ∈ L .ready := List.mem_of_getLast? (h.tail ▸ ht)
              cases h.eq_of_mem hqb hqr
            have hup : ¬ ((k.upd prev fun c => c.setNext (k.proctab q).next).proctab q).Up := by
              unfold Pcb.Up
              rw [hrel.state q]
              exact h.not_up (by decide) hqb
            generalize (k.upd prev fun c => c.setNext (k.proctab q).next) = k₀
              at h₁ hu hcut htail hup
            have hret : Unmoved k₀ (k₀.setRet q (toWord badPid)) := .setRet k₀ q _
            have hready : KeepsLine X (k₀.setRet q (toWord badPid)) k₁ := by
              refine .ready (fun hq => absurd ?_ hup) (hret.used hu) h₁
              unfold Pcb.Up at hq ⊢
              rwa [hret.state] at hq
            -- `ready` has cleared the link along which the walk goes on
            have hnone : (k₁.proctab q).next = none := by
              obtain rfl := Except.ok.inj ((ready_of_used (hret.used hu)).symm.trans h₁)
              exact readied_link_self htail
            rw [hnone] at hn
            cases fuel with
            | zero => cases hn
            | succ fuel =>
                obtain rfl := Except.ok.inj hn
                exact (hcut.trans (.unmoved hret)).trans hready
          · exact ih hx' (fun r hr => hl r (List.mem_cons_of_mem _ hr)) hn

theorem Queues.sysStop_line (h : Queues k none L) (hg : Good k) (hu : k.Used p)
    (hp : (k.proctab p).state = .running) (hX : X p) (hi : p ≠ slotOf k.idleprocPid)
    (hs : Xeros.sysStop k p a = .ok k') : KeepsLine X k k' := by
  obtain ⟨k₁, h₁, h₂⟩ := sysStop_cases hs
  have hout := (h.leave fun c => h.notMem_of_running (c := c) hp).updOut
    (f := fun c => (c.setState .stopped).setNext none) fun he => absurd he hi
  have hg₀ : Good (k.upd p fun c => (c.setState .stopped).setNext none) := hg.upd hu rfl (by simp)
  have hg₁ := (append_quiet (X := nobody) hg₀ (hu.upd rfl) h₁).good
  have hq₁ := hout.append rfl (by decide) (by simp [PState.queue]) h₁
  have hline : KeepsLine X k k₁ :=
    (KeepsLine.upd k p fun _ => hX).trans (hout.append_line rfl (by decide) hX h₁)
  refine hline.trans ?_
  unfold Xeros.notifyWaiters at h₂
  split at h₂
  · obtain rfl := Except.ok.inj h₂
    exact .refl k₁
  · rename_i q hq
    obtain ⟨l, hl, -⟩ := hq₁.first_eq (c := .blocked) hq
    have hchain : Chain k₁.link (some q) (q :: l) := by
      have hc := hq₁.chain .blocked
      rwa [hl, show k₁.first .blocked = some q from hq] at hc
    refine hq₁.notifyWaitersLoop_line hg₁ hchain (fun r hr => ?_) h₂
    rw [hl]
    rcases List.mem_cons.mp hr with rfl | hr
    · exact List.mem_cons_self
    · exact hr

/-- The new sleeper is linked in between sleepers. -/
theorem Queues.sleep_line (h : Queues k none L) {ms : Word}
    (hp : (k.proctab p).state = .running) (hX : X p) (hi : p ≠ slotOf k.idleprocPid)
    (hs : Xeros.sleep k fuel ms p = .ok k') : KeepsLine X k k' := by
  have h₁ := (h.leave fun c => h.notMem_of_running (c := c) hp).updOut
    (f := fun c => c.toSleep (millisecondsToTicks ms)) fun he => absurd he hi
  have hline : KeepsLine X k (k.upd p fun c => c.toSleep (millisecondsToTicks ms)) :=
    .upd k p fun _ => hX
  simp only [Xeros.sleep, Run.bind_eq_ok] at hs
  obtain ⟨_, -, hs⟩ := hs
  generalize (k.upd p fun c => c.toSleep (millisecondsToTicks ms)) = k₁ at h₁ hline hs
  refine hline.trans ?_
  have hpush : KeepsLine X k₁ (Xeros.pushSleeper k₁ p) := by
    have hset : ∀ k₂ : Kernel, KeepsLine X k₂ (k₂.setSleeper (some p)) := fun k₂ =>
      .of_ends rfl rfl rfl fun _ _ _ => ⟨rfl, rfl, rfl⟩
    refine KeepsLine.trans (.upd k₁ p (f := fun c => c.setNext k₁.headsleeper) fun _ => hX) ?_
    unfold Xeros.pushSleeper
    dsimp only
    split
    · exact hset _
    · exact (KeepsLine.unmoved (.upd _ _ rfl rfl rfl)).trans (hset _)
  split at hs
  · obtain rfl := Except.ok.inj hs
    exact hpush
  · rename_i n hn
    split at hs
    · rename_i hlt
      simp only [Run.bind_eq_ok, pure, Except.pure, Except.ok.injEq] at hs
      obtain ⟨⟨prev, x, acc⟩, hl, rfl⟩ := hs
      obtain ⟨l, hln, hchain⟩ := h₁.first_eq (c := .sleep) hn
      cases fuel with
      | zero => cases hl
      | succ fuel =>
          simp only [sleepLoop, if_pos hlt] at hl
          obtain ⟨l₁, l₂, heq, rfl⟩ := sleepLoop_cases [] hchain rfl hl
          have hprev : prev ∈ L .sleep := by
            rw [hln.trans heq]
            simp
          have hpp : prev ≠ p := by
            rintro rfl
            exact h₁.out prev rfl .sleep hprev
          have hdown : ¬ ((k₁.upd p fun c => c.setNext (k₁.link prev)).proctab prev).Up := by
            rw [Kernel.upd_proctab_ne _ _ _ hpp]
            exact h₁.not_up (by decide) hprev
          unfold Xeros.insertSleeper
          dsimp only
          refine KeepsLine.trans (.upd k₁ p (f := fun c => c.setNext (k₁.link prev))
            fun _ => hX) ?_
          refine KeepsLine.trans (.upd _ prev (f := fun c => c.setNext (some p))
            fun hup => absurd hup hdown) ?_
          refine KeepsLine.trans (.unmoved (.upd _ p (f := fun c => c.setTicks
            (c.sleepticks - (acc - (k₁.deref (k₁.link prev)).sleepticks))) rfl rfl rfl)) ?_
          unfold Kernel.updPtr
          split
          · exact .unmoved (.upd _ _ rfl rfl rfl)
          · exact .of_ends rfl rfl rfl fun _ _ _ => ⟨rfl, rfl, rfl⟩
    · obtain rfl := Except.ok.inj hs
      exact hpush

/-! ## Processes that are woken -/

/-- `tick` makes sleepers ready. -/
theorem Queues.tickLoop_line (h : Queues k none L) (hg : Good k)
    (ht : Xeros.tickLoop fuel k = .ok k') : KeepsLine X k k' := by
  induction fuel generalizing k L with
  | zero => cases ht
  | succ fuel ih =>
      simp only [Xeros.tickLoop] at ht
      split at ht
      · obtain rfl := Except.ok.inj ht
        exact .refl k
      · rename_i r hr
        split at ht
        · simp only [Run.bind_eq_ok] at ht
          obtain ⟨k₁, h₁, ht⟩ := ht
          obtain ⟨l, hl, -⟩ := h.first_eq (c := .sleep) hr
          have hdown : ¬ (k.proctab r).Up :=
            h.not_up (c := .sleep) (by decide) (by rw [hl]; exact List.mem_cons_self)
          have hpop : Queues (popSleeper k r) (some r) (Function.update L .sleep l) := by
            refine h.pop (by decide) hl (fun d => ?_) rfl rfl rfl
            cases d <;> rfl
          have hx := popSleeper_quiet (X := nobody) hg (hg.headsleeper r hr)
          have hu := hx.used (hg.headsleeper r hr)
          obtain ⟨L₁, hq₁, -⟩ := hpop.ready hu h₁
          have hg₁ := (ready_quiet (X := nobody) hx.good hu h₁).good
          have hset : KeepsLine X k (k.setSleeper (k.proctab r).next) :=
            .of_ends rfl rfl rfl fun _ _ _ => ⟨rfl, rfl, rfl⟩
          have hpopped : KeepsLine X k (popSleeper k r) :=
            hset.trans (.upd _ r fun hup => absurd hup hdown)
          have hstate : ((popSleeper k r).proctab r).state = (k.proctab r).state := by
            simp [popSleeper]
          refine (hpopped.trans (.ready (fun hup => absurd ?_ hdown) hu h₁)).trans (ih hq₁ hg₁ ht)
          unfold Pcb.Up at hup ⊢
          rwa [hstate] at hup
        · obtain rfl := Except.ok.inj ht
          exact .refl k

theorem Queues.tick_line (h : Queues k none L) (hg : Good k)
    (ht : Xeros.tick k fuel = .ok k') : KeepsLine X k k' := by
  unfold Xeros.tick at ht
  split at ht
  · obtain rfl := Except.ok.inj ht
    exact .refl k
  · rename_i r hr
    split at ht
    · simp only [Run.bind_eq_ok, pure, Except.pure, Except.ok.injEq] at ht
      obtain ⟨k₁, h₁, rfl⟩ := ht
      have hun : Unmoved k (k.upd r fun c => c.setTicks 0) := .upd k r rfl rfl rfl
      have hx := Quiet.updTicks (X := nobody) hg (hg.headsleeper r hr) fun _ => 0
      exact ((KeepsLine.unmoved hun).trans ((h.unmoved hun).tickLoop_line hx.good h₁)).trans
        (.unmoved (.countDown k₁))
    · obtain rfl := Except.ok.inj ht
      exact .unmoved (.countDown k)

/-- A process that starts joins the line. -/
theorem launch_line {cf fp : Word} (hu : k.Used r) (hr : ¬ (k.proctab r).Up)
    (hl : launch k r cf fp = .ok k') : KeepsLine X k k' := by
  refine .of_or (r := r) ?_ hr
  have hmem : KeepsLine (fun q => X q ∨ q = r) k (k.setMem (startContext k.mem k.img cf fp)) :=
    .unmoved (.setMem k _)
  refine (hmem.trans (.upd _ r (f := fun c => c.start cf) fun _ => .inr rfl)).trans ?_
  exact .ready (fun _ => .inr rfl) (Kernel.Used.upd rfl hu) hl

/-- A process that is created was neither running nor ready. -/
theorem Queues.sysCreate_line (h : Queues k none L) (hc : Xeros.sysCreate k p a = .ok k') :
    KeepsLine X k k' := by
  obtain ⟨pid, k₁, h₁, rfl⟩ := sysCreate_cases hc
  refine KeepsLine.trans ?_ (.unmoved (.setRet k₁ p pid))
  rcases create_cases h₁ with ⟨k₂, n, -, h₂, -, rfl⟩ | ⟨i, k₂, n, b, heap, hi, h₂, -, hend⟩
  · exact (h.removeLoop_line (Q := .deadQ) rfl (by decide) h₂).trans
      (.of_ends rfl rfl rfl fun _ _ _ => ⟨rfl, rfl, rfl⟩)
  · have hdown : ¬ (k₂.proctab i).Up := by
      unfold Pcb.Up
      rw [(Relinked.remove h₂).state]
      rcases (freeSlot_spec hi).2 with hs | hs
      · simp [hs]
      · simp [hs]
    have hrenew : KeepsLine X k ((k₂.upd i fun c => c.renew i).setHeap heap) :=
      ((h.removeLoop_line (Q := .deadQ) rfl (by decide) h₂).trans
        (.upd k₂ i (f := fun c => c.renew i) fun hup => absurd hup hdown)).trans
        (.of_ends rfl rfl rfl fun _ _ _ => ⟨rfl, rfl, rfl⟩)
    rcases hend with ⟨-, -, rfl⟩ | ⟨-, -, hl⟩
    · exact hrenew
    · refine hrenew.trans (launch_line ?_ ?_ hl)
      · exact ⟨(freeSlot_spec hi).1, by simpa using nextPid_used (k₂.proctab i).pid i⟩
      · unfold Pcb.Up at hdown ⊢
        simpa using hdown

/-- The reader that is notified was blocked. -/
theorem Queues.notifyReader_line {b : Bool} (h : Queues k none L) (hg : Good k)
    (hn : Xeros.notifyReader k fuel = .ok (k', b)) : KeepsLine X k k' := by
  unfold Xeros.notifyReader at hn
  split at hn
  · obtain ⟨rfl, -⟩ := Prod.mk.inj (Except.ok.inj hn)
    exact .refl k
  · rename_i r hr
    split at hn
    · rename_i hb
      simp only [notify, Run.bind_eq_ok, pure, Except.pure, Except.ok.injEq, Prod.mk.injEq] at hn
      obtain ⟨k₁, ⟨_, -, ⟨k₂, n⟩, h₂, h₁⟩, rfl, -⟩ := hn
      have hret : Unmoved k₂ (k₂.setRet r (toWord k₂.kbd.applbufidx)) := .setRet k₂ r _
      have hst : (k₂.proctab r).state = .blocked := ((Relinked.remove h₂).state r).trans hb
      have hu : (k₂.setRet r (toWord k₂.kbd.applbufidx)).Used r :=
        hret.used ((hg.reader r hr).congr ((Relinked.remove h₂).pid r))
      have hready : KeepsLine X (k₂.setRet r (toWord k₂.kbd.applbufidx)) k₁ := by
        refine .ready (fun hup => ?_) hu h₁
        unfold Pcb.Up at hup
        rw [hret.state, hst] at hup
        simp at hup
      exact (((h.removeLoop_line (Q := .blockedQ) rfl (by decide) h₂).trans
        (.unmoved hret)).trans hready).trans (.of_ends rfl rfl rfl fun _ _ _ => ⟨rfl, rfl, rfl⟩)
    · obtain ⟨rfl, -⟩ := Prod.mk.inj (Except.ok.inj hn)
      exact .refl k

theorem Queues.bufferKey_line {c ascii : Byte} (h : Queues k none L) (hg : Good k)
    (hb : Xeros.bufferKey k fuel c ascii = .ok k') : KeepsLine X k k' := by
  have hk := KbdOnly.storeAndFlush k c
  unfold Xeros.bufferKey at hb
  split at hb
  · obtain rfl := Except.ok.inj hb
    exact .refl k
  · split at hb
    · rename_i k₁ hk₁
      rw [hk₁] at hk
      obtain rfl := Except.ok.inj hb
      exact .unmoved hk.unmoved
    · rename_i k₁ hk₁
      rw [hk₁] at hk
      simp only [Run.bind_eq_ok, pure, Except.pure, Except.ok.injEq] at hb
      obtain ⟨⟨k₂, b⟩, h₂, rfl⟩ := hb
      exact (KeepsLine.unmoved hk.unmoved).trans ((h.unmoved hk.unmoved).notifyReader_line
        (hk.quiet (X := nobody) hg).good h₂)

/-- A key wakes the reader at most. -/
theorem Queues.sysKeyboard_line (h : Queues k none L) (hg : Good k)
    (hk : Xeros.sysKeyboard k a = .ok k') : KeepsLine X k k' := by
  unfold Xeros.sysKeyboard at hk
  split at hk
  · have hn : KbdOnly k (k.noteKey a) := ⟨k.mem, _, rfl, rfl⟩
    have hgn := (hn.quiet (X := nobody) hg).good
    have hqn := h.unmoved hn.unmoved
    have hh : Xeros.handleKey (k.noteKey a) a.fuel a.datasrc
        ((kbtoa k.kbd.keyState a.datasrc).1.setWidth 8) = .ok k' := hk
    refine (KeepsLine.unmoved hn.unmoved).trans ?_
    generalize k.noteKey a = k₀ at hgn hqn hh
    unfold Xeros.handleKey at hh
    split at hh
    · obtain rfl := Except.ok.inj hh
      exact .refl _
    split at hh
    · obtain rfl := Except.ok.inj hh
      exact .unmoved (KbdOnly.storeKey k₀ _).unmoved
    split at hh
    · have hc := KbdOnly.completeRead k₀ a.datasrc
      have hgc := (hc.quiet (X := nobody) hgn).good
      simp only [Run.bind_eq_ok] at hh
      obtain ⟨⟨k₁, b⟩, h₁, hh⟩ := hh
      have hfirst : KeepsLine X k₀ k₁ := (KeepsLine.unmoved hc.unmoved).trans
        ((hqn.unmoved hc.unmoved).notifyReader_line hgc h₁)
      cases b with
      | true =>
          obtain rfl : k₁ = k' := Except.ok.inj hh
          exact hfirst
      | false =>
          rcases notifyReader_cases hgc h₁ with ⟨-, rfl, -⟩ | ⟨hb, -⟩
          · have hrest : Xeros.bufferKey (completeRead k₀ a.datasrc) a.fuel a.datasrc
                ((kbtoa k.kbd.keyState a.datasrc).1.setWidth 8) = .ok k' := hh
            exact hfirst.trans ((hqn.unmoved hc.unmoved).bufferKey_line hgc hrest)
          · cases hb
    · exact hqn.bufferKey_line hgn hh
  · obtain rfl := Except.ok.inj hk
    exact .refl k

/-! ## A request -/

/-- The request of `p` gives up the processor: the dispatcher calls `next`. -/
def Switches (k : Kernel) (p : Slot) : Request → Prop
  | .yield => True
  | .stop => True
  | .send => True
  | .recv => True
  | .sleep => True
  | .timer => True
  | .sigwait => (k.proctab p).sigAllow ≠ 0
  | .read => (diRead k p (k.arg p 0).toInt (k.arg p 1) (k.arg p 2).toInt).1 = registeredKbdread
  | _ => False

/-- What serving a request does to the line: without `next` it only grows; else it grows, `next`
takes its first process, and it grows again. -/
inductive Hands (k : Kernel) (p : Slot) (req : Request) (k' : Kernel) (p' : Slot) : Prop
  | stays (hs : ¬ Switches k p req) (hp : p' = p) (h : KeepsLine nobody k k')
  | switches {k₁ k₂ : Kernel} {L₁ : Queue → List Slot} (hs : Switches k p req)
      (h₁ : KeepsLine (· = p) k k₁) (hq : Queues k₁ none L₁) (hg : Good k₁)
      (hr : reschedule k₁ = .ok (k₂, p')) (h₂ : KeepsLine nobody k₂ k')

theorem Queues.serve_hands {req : Request} (h : Queues k none L) (hg : Good k) (hu : k.Used p)
    (hp : (k.proctab p).state = .running) (hc : MovesSafely k p a req)
    (hs : Xeros.serve k p a req = .ok (k', p')) : Hands k p req k' p' := by
  have hidle : Retires k p a req → p ≠ slotOf k.idleprocPid := fun hr hi => hc.idle hi hr
  have hstill : ∀ {req : Request} {k₁ : Kernel}, ¬ Switches k p req → Unmoved k k₁ →
      Hands k p req k₁ p := fun hn hun => .stays hn rfl (.unmoved hun)
  cases serve_cases hs with
  | getpid => exact hstill not_false (.setRet k p _)
  | puts => exact hstill not_false (.refl k)
  | bad => exact hstill not_false (.refl k)
  | sighandler => exact hstill not_false (.sysSighandler k p)
  | sigreturn => exact hstill not_false (.sysSigreturn k p a)
  | openDev => exact hstill not_false ((FdsOnly.diOpen k p _).unmoved.trans (.setRet _ p _))
  | close => exact hstill not_false ((FdsOnly.diClose k p _).unmoved.trans (.setRet _ p _))
  | ioctl => exact hstill not_false ((FdsOnly.diIoctl k a p _ _ _).unmoved.trans (.setRet _ p _))
  | write h₁ => exact hstill not_false (.sysWrite h₁)
  | sigkill h₁ => exact hstill not_false (.sysSigkill (hc.sigkill rfl) h₁)
  | noHandler hn => exact hstill (fun hs => hs hn) (.setRet k p _)
  | keyboard h₁ => exact .stays not_false rfl (h.sysKeyboard_line hg h₁)
  | create h₁ => exact .stays not_false rfl (h.sysCreate_line h₁)
  | yield h₁ h₂ =>
      obtain ⟨L₁, hq₁, -⟩ := h.readyRunning hu hp h₁
      exact .switches trivial (.ready (fun _ => rfl) hu h₁) hq₁
        (ready_quiet (X := nobody) hg hu h₁).good h₂ (.refl k')
  | stop h₁ h₂ =>
      obtain ⟨L₁, hq₁, -⟩ := h.sysStop hg hu hp (hidle trivial) (hc.stop rfl) h₁
      exact .switches trivial (h.sysStop_line hg hu hp rfl (hidle trivial) h₁) hq₁
        (sysStop_quiet (X := (· = p)) hg hu rfl h₁).good h₂ (.refl k')
  | send h₁ h₂ =>
      obtain ⟨L₁, hq₁, -⟩ := h.sysSend hg hu hp hidle (hc.send rfl) h₁
      exact .switches trivial (h.sysSend_line hg hu hp rfl hc h₁) hq₁
        (sysSend_quiet (X := (· = p)) hg hu rfl h₁).good h₂ (.refl k')
  | recv h₁ h₂ =>
      obtain ⟨L₁, hq₁, -⟩ := h.sysRecv hg hu hp (fun k₀ h₀ => hidle ⟨k₀, h₀⟩) (hc.recv rfl) h₁
      exact .switches trivial (h.sysRecv_line hg hu hp rfl hc h₁) hq₁
        (sysRecv_quiet (X := (· = p)) hg hu rfl h₁).good h₂ (.refl k')
  | sleep h₁ h₂ =>
      obtain ⟨L₁, hq₁, -⟩ := h.sleep hp (hidle trivial) (sysSleep_cases h₁)
      exact .switches trivial (h.sleep_line hp rfl (hidle trivial) (sysSleep_cases h₁)) hq₁
        (sysSleep_quiet (X := (· = p)) hg hu rfl h₁).good h₂ (.refl k')
  | sigwait hallow h₁ h₂ =>
      obtain ⟨L₁, hq₁, -⟩ := h.sysSigwait hp (hidle hallow) h₁
      have hout := (h.leave fun c => h.notMem_of_running hp).updOut
        (f := fun c => { c with sigwaiter := 1, next := none }) fun _ => .inr hp
      have hline : KeepsLine (· = p) k (k.upd p fun c => { c with sigwaiter := 1, next := none }) :=
        .upd k p fun _ => rfl
      exact .switches hallow (hline.trans (hout.block_line (hidle hallow) rfl h₁)) hq₁
        (sysSigwait_quiet (X := (· = p)) hg hu rfl h₁).good h₂ (.refl k')
  | timer h₁ =>
      obtain ⟨k₁, k₂, h₁, h₂, h₃⟩ := sysTimer_cases h₁
      obtain ⟨L₁, hq₁, -⟩ := h.readyRunning hu hp h₁
      have hg₁ := (ready_quiet (X := nobody) hg hu h₁).good
      obtain ⟨L₂, hq₂, -⟩ := hq₁.giveUp hg₁ h₂
      exact .switches trivial (.ready (fun _ => rfl) hu h₁) hq₁ hg₁ h₂
        (hq₂.tick_line (reschedule_quiet (X := nobody) hg₁ h₂).1.good h₃)
  | read h₁ =>
      have hun := (FdsOnly.diRead k p (k.arg p 0).toInt (k.arg p 1) (k.arg p 2).toInt).unmoved
      rcases sysRead_cases h₁ with ⟨hrc, rfl, v, rfl⟩ | ⟨hrc, k₁, h₂, h₃⟩
      · exact hstill hrc (hun.trans (.setRet _ p' v))
      · have hx := diRead_quiet (X := nobody) (k.arg p 0).toInt (k.arg p 1) (k.arg p 2).toInt hg hu
        have hy := hx.trans (.updNext hx.good (hx.used hu) (o := none) (by simp))
        have hout := (h.leave fun c => h.notMem_of_running hp).unmoved hun
        have hq₀ := hout.relink (p := p) (hout.out p rfl) none
        have hi : p ≠ slotOf (diRead k p (k.arg p 0).toInt (k.arg p 1)
            (k.arg p 2).toInt).2.idleprocPid := by
          rw [hun.idle]
          exact hidle hrc
        obtain ⟨L₁, hq₁, -⟩ := hq₀.blockOut hi h₂
        have hline : KeepsLine (· = p) k ((diRead k p (k.arg p 0).toInt (k.arg p 1)
            (k.arg p 2).toInt).2.upd p fun c => c.setNext none) :=
          (KeepsLine.unmoved hun).trans (.upd _ p fun _ => rfl)
        exact .switches hrc (hline.trans (hq₀.block_line hi rfl h₂)) hq₁
          (block_quiet (X := (· = p)) hy.good (hy.used hu) rfl h₂).good h₃ (.refl k')

end Xeros
