import Xeros.Logic.Moves
import Xeros.Logic.Readers

/-!
# Requests that move processes safely

`MovesSafely` says of a request that nobody is taken out of the middle of a list. It then
leaves every process in the list of its state.
-/

namespace Xeros

open Lib

variable {k k' k₁ k₂ : Kernel} {p p' q r z : Slot} {L : Queue → List Slot} {a : Ambient}
  {fuel : Nat}

/-! ## Messages -/

theorem Queues.first_of_eq (h : Queues k none L) {c : Queue} {l : List Slot}
    (hl : L c = q :: l) : k.first c = some q := by
  have hc := h.chain c
  rw [hl] at hc
  exact hc.1

/-- The end of a rendezvous, when the peer is the head of `blocked_q`. -/
theorem Queues.release {n : Int} (h : Queues k none L) (hg : Good k) (hu : k.Used p)
    (hp : (k.proctab p).state = .running) (hz : k.blockedQ = some z)
    (h₁ : Xeros.ready k p = .ok k₁)
    (h₂ : remove k₁ fuel (getQ (k₁.proctab z).state) (k₁.proctab z).pid = .ok (k₂, n))
    (h₃ : Xeros.ready k₂ z = .ok k') :
    ∃ L', Queues k' none L' ∧ ∀ r ∈ L .blocked, r ≠ z → r ∈ L' .blocked := by
  obtain ⟨l, hl, -⟩ := h.first_eq (c := .blocked) hz
  obtain ⟨L₁, hq₁, hL₁, -⟩ := (h.leave fun c => h.notMem_of_running hp).ready hu h₁
  have hl₁ : L₁ .blocked = z :: l := (hL₁ _ (by decide)).trans hl
  have hz₁ : k₁.blockedQ = some z := hq₁.first_of_eq hl₁
  have hst : (k₁.proctab z).state = .blocked := by
    have := hq₁.placed .blocked z (by simp [hl₁])
    revert this
    cases (k₁.proctab z).state <;> simp [PState.queue]
  rw [hst] at h₂
  obtain ⟨l₂, hl₂, hq₂⟩ := hq₁.removeHead hz₁ h₂
  have hx₁ := ready_quiet (X := nobody) hg hu h₁
  have hx₂ := remove_quiet (X := nobody) hx₁.good h₂
  obtain ⟨L₃, hq₃, hL₃, -⟩ := hq₂.ready (hx₂.used (hx₁.good.blockedQ z hz₁)) h₃
  refine ⟨L₃, hq₃, fun r hr hrz => ?_⟩
  rw [hL₃ _ (by decide), Function.update_self]
  have hl₂' : l₂ = l := by
    rw [hl₁] at hl₂
    exact (List.cons.inj hl₂).2.symm
  rw [hl₂']
  rw [hl] at hr
  exact (List.mem_cons.mp hr).resolve_left hrz

/-- A process that is on the processor is made ready. -/
theorem Queues.readyRunning (h : Queues k none L) (hu : k.Used p)
    (hp : (k.proctab p).state = .running) (hr : Xeros.ready k p = .ok k') :
    ∃ L', Queues k' none L' ∧ L' .blocked = L .blocked := by
  obtain ⟨L', h', hframe, -⟩ := (h.leave fun c => h.notMem_of_running hp).ready hu hr
  exact ⟨L', h', hframe .blocked (by decide)⟩

/-- The process on its way joins those that are blocked. -/
theorem Queues.blockOut (h : Queues k (some p) L) {code : Word} (hidle : p ≠ slotOf k.idleprocPid)
    (hb : Xeros.block k fuel p code = .ok k') :
    ∃ L', Queues k' none L' ∧ p ∈ L' .blocked ∧ ∀ r ∈ L .blocked, r ∈ L' .blocked := by
  refine ⟨_, h.block hidle hb, ?_, fun r hr => ?_⟩
  · rw [Function.update_self]
    exact List.mem_append_right _ List.mem_cons_self
  · rw [Function.update_self]
    exact List.mem_append_left _ hr

theorem Queues.sysSend (h : Queues k none L) (hg : Good k) (hu : k.Used p)
    (hp : (k.proctab p).state = .running)
    (hidle : (send k a (k.arg p 0) (k.arg p 1) (k.arg p 2).toInt p).1 = 0 →
      p ≠ slotOf k.idleprocPid)
    (hhead : ∀ r, sendPeer k a p = some r → ¬ EmptyMessage k p r → k.blockedQ = some r)
    (hs : Xeros.sysSend k p a = .ok k') :
    ∃ L', Queues k' none L' ∧ ∀ r ∈ L .blocked,
      (sendPeer k a p = some r → EmptyMessage k p r) → r ∈ L' .blocked := by
  obtain ⟨n, k₀, h₀, hs⟩ := sysSend_cases hs
  have hx : Quiet (· = p) k k₀ := send_quiet hg rfl h₀
  have hcases := send_cases h₀
  have hun : Unmoved k k₀ := by
    rcases hcases with ⟨r, -, -, rfl⟩ | ⟨-, -, rfl | ⟨v, rfl⟩⟩
    · exact .setMem _ _
    · exact .refl _
    · exact .setRet _ _ _
  rcases hs with ⟨hn, k₁, k₂, m, h₁, h₂, h₃⟩ | ⟨-, h₁⟩ | ⟨hn, h₁⟩
  · -- only a peer makes the number positive
    rcases hcases with ⟨r, hpeer, hpassed, -⟩ | ⟨-, hn', -⟩
    · have hmsg : ¬ EmptyMessage k p r := passMessage_pos.mp (by omega)
      have hr : r = slotOf (k.arg p 0) := by
        unfold sendPeer at hpeer
        split at hpeer
        · cases hpeer
        · split at hpeer
          · rename_i hm
            cases hpeer
            exact (sendMatch_found hm).1
          · cases hpeer
      have hb : k₀.blockedQ = some (slotOf (k.arg p 0)) := by
        have := hun.first .blocked
        rw [show k.first .blocked = some r from hhead r hpeer hmsg] at this
        exact hr ▸ this
      have hun' := Unmoved.answered k₀ p (slotOf (k.arg p 0)) n
      have hy := answered_quiet (q := slotOf (k.arg p 0)) (n := n) hx rfl
      have hrun : ((answered k₀ p (slotOf (k.arg p 0)) n).proctab p).state = .running := by
        rw [hun'.state, hun.state]
        exact hp
      obtain ⟨L', h', hkeep⟩ :=
        ((h.unmoved hun).unmoved hun').release hy.good (hy.used hu) hrun hb h₁ h₂ h₃
      refine ⟨L', h', fun q hq hempty => hkeep q hq ?_⟩
      rintro rfl
      exact hmsg (hr ▸ hempty (hpeer.trans (congrArg some hr)))
    · omega
  · have hun' := hun.trans (.setRet k₀ p (toWord n))
    obtain ⟨L', h', hb'⟩ :=
      (h.unmoved hun').readyRunning (hun'.used hu) (by rw [hun'.state]; exact hp) h₁
    exact ⟨L', h', fun r hr _ => hb' ▸ hr⟩
  · have hout := (h.leave fun c => h.notMem_of_running hp).unmoved hun
    obtain ⟨L', h', -, hkeep⟩ :=
      hout.blockOut (by rw [hun.idle]; exact hidle (by rw [h₀]; exact hn)) h₁
    exact ⟨L', h', fun r hr _ => hkeep r hr⟩

/-- The slot that a receive of `p` releases once it has the message of `q`. -/
def released (k : Kernel) (p q : Slot) : Slot := slotOf ((passMessage k q p).2.word (k.arg p 0))

theorem Queues.sysRecv (h : Queues k none L) (hg : Good k) (hu : k.Used p)
    (hp : (k.proctab p).state = .running)
    (hidle : ∀ k₀, recv k a (k.arg p 0) (k.arg p 1) (k.arg p 2).toInt p = .ok (0, k₀) →
      p ≠ slotOf k.idleprocPid)
    (hhead : ∀ q, recvPeer k a p = .ok (some q) → ¬ EmptyMessage k q p →
      (k.proctab (released k p q)).pid = 0 ∨ k.blockedQ = some (released k p q))
    (hs : Xeros.sysRecv k p a = .ok k') :
    ∃ L', Queues k' none L' ∧ ∀ r ∈ L .blocked,
      (∀ q, recvPeer k a p = .ok (some q) → ¬ EmptyMessage k q p → r ≠ released k p q) →
        r ∈ L' .blocked := by
  obtain ⟨n, k₀, h₀, hs⟩ := sysRecv_cases hs
  have hx : Quiet (· = p) k k₀ := recv_quiet hg rfl h₀
  have hcases := recv_cases h₀
  have hun : Unmoved k k₀ := by
    rcases hcases with ⟨q, -, -, rfl⟩ | ⟨-, -, rfl | ⟨v, rfl⟩⟩
    · exact .setMem _ _
    · exact .refl _
    · exact .setRet _ _ _
  rcases hs with ⟨hn, k₁, h₁, hs⟩ | ⟨-, h₁⟩ | ⟨hn, h₁⟩
  · rcases hcases with ⟨q, hpeer, rfl, hk₀⟩ | ⟨-, hn', -⟩
    · have hmsg : ¬ EmptyMessage k q p := passMessage_pos.mp (by omega)
      have hz : slotOf (k₀.mem.word (k.arg p 0)) = released k p q := by rw [hk₀]; rfl
      rw [hz] at h₁ hs
      have hun' := Unmoved.answered k₀ p (released k p q) (passMessage k q p).1
      have hy := answered_quiet (q := released k p q) (n := (passMessage k q p).1) hx rfl
      have hq := (h.unmoved hun).unmoved hun'
      have hp' : ((answered k₀ p (released k p q) (passMessage k q p).1).proctab p).state
          = .running := by
        rw [hun'.state, hun.state]
        exact hp
      have hpid : (k₁.proctab (released k p q)).pid = (k.proctab (released k p q)).pid := by
        have hr := ready_quiet (X := nobody) hy.good (hy.used hu) h₁
        rw [(hr.same _).pid, hun'.pid, hun.pid]
      rcases hs with ⟨hpid₁, k₂, m, h₂, h₃⟩ | ⟨-, rfl⟩
      · rcases hhead q hpeer hmsg with h0 | hb
        · exact absurd (hpid.trans h0) hpid₁
        · have hfirst := (hun.trans hun').first .blocked
          obtain ⟨L', h', hkeep⟩ :=
            hq.release hy.good (hy.used hu) hp' (hfirst.trans hb) h₁ h₂ h₃
          exact ⟨L', h', fun r hr hne => hkeep r hr (hne q hpeer hmsg)⟩
      · obtain ⟨L', h', hb'⟩ := hq.readyRunning (hy.used hu) hp' h₁
        exact ⟨L', h', fun r hr _ => hb' ▸ hr⟩
    · omega
  · have hun' := hun.trans (.setRet k₀ p (toWord n))
    obtain ⟨L', h', hb'⟩ :=
      (h.unmoved hun').readyRunning (hun'.used hu) (by rw [hun'.state]; exact hp) h₁
    exact ⟨L', h', fun r hr _ => hb' ▸ hr⟩
  · have hout := (h.leave fun c => h.notMem_of_running hp).unmoved hun
    obtain ⟨L', h', -, hkeep⟩ := hout.blockOut (by rw [hun.idle]; exact hidle k₀ (hn ▸ h₀)) h₁
    exact ⟨L', h', fun r hr _ => hkeep r hr⟩

/-! ## The keyboard and the devices -/

theorem KbdOnly.unmoved (h : KbdOnly k k') : Unmoved k k' := by
  obtain ⟨m, b, rfl, -⟩ := h
  exact (Unmoved.setMem k m).trans (.setKbd _ b)

theorem KbdOnly.reader (h : KbdOnly k k') : k'.kbd.reader = k.kbd.reader := by
  obtain ⟨m, b, rfl, hb⟩ := h
  exact hb

/-- If the keyboard has a blocked reader, it is the head of `blocked_q`. -/
def ReaderFirst (k : Kernel) : Prop :=
  ∀ r, k.kbd.reader = some r → (k.proctab r).state = .blocked → k.blockedQ = some r

theorem ReaderFirst.kbdOnly (h : ReaderFirst k) (hk : KbdOnly k k') : ReaderFirst k' := by
  intro r hr hb
  have hun := hk.unmoved
  rw [hk.reader] at hr
  rw [hun.state] at hb
  exact (hun.first .blocked).trans (h r hr hb)

/-- The reader that is notified is taken from the head of `blocked_q`. -/
theorem Queues.notifyReader {b : Bool} (h : Queues k none L) (hg : Good k) (hf : ReaderFirst k)
    (hn : notifyReader k fuel = .ok (k', b)) :
    ∃ L', Queues k' none L' ∧ Within L L' ∧ (b = false → k' = k) := by
  unfold Xeros.notifyReader at hn
  split at hn
  · simp only [pure, Except.pure, Except.ok.injEq, Prod.mk.injEq] at hn
    obtain ⟨rfl, rfl⟩ := hn
    exact ⟨L, h, .refl L, fun _ => rfl⟩
  · rename_i r hr
    split at hn
    · rename_i hb
      simp only [Run.bind_eq_ok, pure, Except.pure, Except.ok.injEq, Prod.mk.injEq, notify] at hn
      obtain ⟨k₁, ⟨_, -, ⟨k₂, n⟩, h₂, h₁⟩, rfl, rfl⟩ := hn
      obtain ⟨l, hl, hq⟩ := h.removeHead (hf r hr hb) h₂
      have hx := remove_quiet (X := nobody) hg h₂
      have hu : (k₂.setRet r (toWord k₂.kbd.applbufidx)).Used r :=
        (Unmoved.setRet k₂ r _).used (hx.used (hg.reader r hr))
      obtain ⟨L', h', -, hnew⟩ := (hq.unmoved (.setRet k₂ r _)).ready hu h₁
      refine ⟨L', h'.unmoved (.setKbd k₁ _), fun q c hq => ?_, by simp⟩
      rcases hnew q c hq with rfl | hq
      · exact ⟨.blocked, by simp [hl]⟩
      · exact Within.update (c := .blocked) (fun s hs => by simp [hl, hs]) q c hq
    · simp only [pure, Except.pure, Except.ok.injEq, Prod.mk.injEq] at hn
      obtain ⟨rfl, rfl⟩ := hn
      exact ⟨L, h, .refl L, fun _ => rfl⟩

theorem Queues.bufferKey {c ascii : Byte} (h : Queues k none L) (hg : Good k)
    (hf : ¬ keyIgnored c ascii → (storeAndFlush k c).2 = true → ReaderFirst k)
    (hb : bufferKey k fuel c ascii = .ok k') : ∃ L', Queues k' none L' ∧ Within L L' := by
  unfold Xeros.bufferKey at hb
  split at hb
  · simp only [pure, Except.pure, Except.ok.injEq] at hb
    exact ⟨L, hb ▸ h, .refl L⟩
  · rename_i hi
    have hs := KbdOnly.storeAndFlush k c
    split at hb
    · rename_i k₁ hk₁
      simp only [pure, Except.pure, Except.ok.injEq] at hb
      rw [hk₁] at hs
      exact ⟨L, hb ▸ h.unmoved hs.unmoved, .refl L⟩
    · rename_i k₁ hk₁
      have hflag : (storeAndFlush k c).2 = true := by rw [hk₁]
      rw [hk₁] at hs
      simp only [Run.bind_eq_ok, pure, Except.pure, Except.ok.injEq] at hb
      obtain ⟨⟨k₂, b⟩, h₂, rfl⟩ := hb
      obtain ⟨L', h', hL', -⟩ := (h.unmoved hs.unmoved).notifyReader
        (hs.quiet (X := nobody) hg).good ((hf hi hflag).kbdOnly hs) h₂
      exact ⟨L', h', hL'⟩

/-- The key wakes the reader, if it is blocked: it completes the read, or fills the
keyboard buffer. -/
def keyWakes (k : Kernel) (c ascii : Byte) : Prop :=
  k.kbd.applbuffer ≠ 0 ∧
    (readCompletes k.kbd c ascii ∨ ¬ keyIgnored c ascii ∧ (storeAndFlush k c).2 = true)

theorem Queues.handleKey {c ascii : Byte} (h : Queues k none L) (hg : Good k)
    (hf : keyWakes k c ascii → ReaderFirst k)
    (hk : handleKey k fuel c ascii = .ok k') : ∃ L', Queues k' none L' ∧ Within L L' := by
  unfold Xeros.handleKey at hk
  split at hk
  · simp only [pure, Except.pure, Except.ok.injEq] at hk
    exact ⟨L, hk ▸ h, .refl L⟩
  rename_i h₁
  split at hk
  · simp only [pure, Except.pure, Except.ok.injEq] at hk
    exact ⟨L, hk ▸ h.unmoved (KbdOnly.storeKey k c).unmoved, .refl L⟩
  rename_i h₂
  have happl := Kbd.applbuffer_ne h₁ h₂
  split at hk
  · rename_i hr
    simp only [Run.bind_eq_ok] at hk
    obtain ⟨⟨k₁, woken⟩, h₃, hk⟩ := hk
    have hc := KbdOnly.completeRead k c
    have hf₁ := (hf ⟨happl, .inl hr⟩).kbdOnly hc
    have hg₁ := (hc.quiet (X := nobody) hg).good
    obtain ⟨L₁, hq₁, hL₁, hsame⟩ := (h.unmoved hc.unmoved).notifyReader hg₁ hf₁ h₃
    split at hk
    · simp only [pure, Except.pure, Except.ok.injEq] at hk
      exact ⟨L₁, hk ▸ hq₁, hL₁⟩
    · rename_i hw
      obtain rfl := hsame (by simpa using hw)
      obtain ⟨L₂, hq₂, hL₂⟩ := hq₁.bufferKey hg₁ (fun _ _ => hf₁) hk
      exact ⟨L₂, hq₂, hL₁.trans hL₂⟩
  · exact h.bufferKey hg (fun hi hs => hf ⟨happl, .inr ⟨hi, hs⟩⟩) hk

/-- The translation of a scan code notes which control keys are down. -/
def Kernel.noteKey (k : Kernel) (a : Ambient) : Kernel :=
  k.setKbd { k.kbd with keyState := (kbtoa k.kbd.keyState a.datasrc).2 }

/-- The keyboard interrupt brings a key that wakes the reader. -/
def wakesReader (k : Kernel) (a : Ambient) : Prop :=
  a.control &&& 1 ≠ 0 ∧ keyWakes (k.noteKey a) a.datasrc
    ((kbtoa k.kbd.keyState a.datasrc).1.setWidth 8)

theorem Queues.sysKeyboard (h : Queues k none L) (hg : Good k)
    (hf : wakesReader k a → ReaderFirst k) (hk : sysKeyboard k a = .ok k') :
    ∃ L', Queues k' none L' ∧ Within L L' := by
  unfold Xeros.sysKeyboard at hk
  split at hk
  · rename_i hc
    have hn : KbdOnly k (k.noteKey a) := ⟨k.mem, _, rfl, rfl⟩
    exact (h.unmoved hn.unmoved).handleKey (hn.quiet (X := nobody) hg).good
      (fun hw => (hf ⟨hc, hw⟩).kbdOnly hn) hk
  · simp only [pure, Except.pure, Except.ok.injEq] at hk
    exact ⟨L, hk ▸ h, .refl L⟩

/-- A call of a device changes descriptors, the driver, the table of the devices and the memory
only. -/
structure FdsOnly (k k' : Kernel) : Prop where
  pcb : ∀ q, ∃ d, k'.proctab q = { k.proctab q with fd := d }
  first : ∀ c, k'.first c = k.first c
  tail : k'.tail = k.tail
  idle : k'.idleprocPid = k.idleprocPid

namespace FdsOnly

theorem of_proctab (hp : k'.proctab = k.proctab) (hf : ∀ c, k'.first c = k.first c)
    (ht : k'.tail = k.tail) (hi : k'.idleprocPid = k.idleprocPid) : FdsOnly k k' :=
  ⟨fun q => ⟨(k.proctab q).fd, by rw [hp]⟩, hf, ht, hi⟩

theorem refl (k : Kernel) : FdsOnly k k := of_proctab rfl (fun _ => rfl) rfl rfl

theorem trans (h₁ : FdsOnly k k₁) (h₂ : FdsOnly k₁ k₂) : FdsOnly k k₂ where
  pcb q := by
    obtain ⟨d₁, hd₁⟩ := h₁.pcb q
    obtain ⟨d₂, hd₂⟩ := h₂.pcb q
    exact ⟨d₂, by rw [hd₂, hd₁]⟩
  first c := (h₂.first c).trans (h₁.first c)
  tail := h₂.tail.trans h₁.tail
  idle := h₂.idle.trans h₁.idle

theorem setMem (k : Kernel) (m : Bytes) : FdsOnly k (k.setMem m) :=
  of_proctab rfl (fun c => by cases c <;> rfl) rfl rfl

theorem setKbd (k : Kernel) (b : Kbd) : FdsOnly k (k.setKbd b) :=
  of_proctab rfl (fun c => by cases c <;> rfl) rfl rfl

theorem setFd (k : Kernel) (q : Slot) (i : Fin maxFiles) (g : Pcb → Fildes) :
    FdsOnly k (k.upd q fun c => c.setFd i (g c)) := by
  refine ⟨fun r => ?_, fun c => by cases c <;> rfl, rfl, rfl⟩
  by_cases hr : r = q
  · subst hr
    rw [Kernel.upd_proctab_self]
    exact ⟨_, rfl⟩
  · exact ⟨(k.proctab r).fd, by rw [Kernel.upd_proctab_ne _ _ _ hr]⟩

theorem callTransfer (f : TransferFn) (k : Kernel) (p : Slot) (buff : Word) (len : Int) :
    FdsOnly k (callTransfer f k p buff len).2 := by
  have he : FdsOnly k (ekbdRead k p buff len).2 := by
    unfold ekbdRead
    split
    · exact refl k
    · exact setKbd k _
  cases f with
  | unsupported => exact refl k
  | kbdRead =>
      unfold Xeros.callTransfer kbdRead
      dsimp only
      split
      · exact setMem k _
      · exact he
  | ekbdRead => exact he

theorem diRead (k : Kernel) (p : Slot) (fd : Int) (buff : Word) (len : Int) :
    FdsOnly k (diRead k p fd buff len).2 := by
  unfold Xeros.diRead
  split
  · exact refl k
  · exact callTransfer _ k p buff len

theorem diWrite (k : Kernel) (p : Slot) (fd : Int) (buff : Word) (len : Int) :
    FdsOnly k (diWrite k p fd buff len).2 := by
  unfold Xeros.diWrite
  split
  · exact refl k
  · exact callTransfer _ k p buff len

theorem diIoctl (k : Kernel) (a : Ambient) (p : Slot) (fd cmd : Int) (arg : Word) :
    FdsOnly k (diIoctl k a p fd cmd arg).2 := by
  unfold Xeros.diIoctl
  split
  · exact refl k
  · unfold callIoctl
    split
    · exact refl k
    · unfold kbdIoctl
      split
      · exact refl k
      split
      · exact setKbd k _
      · exact refl k

theorem diClose (k : Kernel) (p : Slot) (fd : Int) : FdsOnly k (diClose k p fd).2 := by
  unfold Xeros.diClose
  split
  · exact refl k
  · rename_i i _
    have hc : FdsOnly k (callClose (devOf k p i).dvclose k).2 := by
      unfold callClose
      split
      · exact refl k
      · exact setKbd k _
    dsimp only
    split
    · exact hc.trans (setFd _ p i fun c => { c.fd i with status := .closed })
    · exact hc

theorem diOpen (k : Kernel) (p : Slot) (devno : Word) : FdsOnly k (diOpen k p devno).2 := by
  have hopen : ∀ (f : OpenFn) (k : Kernel), FdsOnly k (callOpen f k p).2 := by
    intro f k
    unfold callOpen
    split
    · exact refl k
    · exact of_proctab rfl (fun c => by cases c <;> rfl) rfl rfl
  unfold Xeros.diOpen
  dsimp only
  have h₁ := setFd k (slotOf (k.proctab p).pid) 0 fun c => { c.fd 0 with devTab := 0 }
  split
  · split
    · exact h₁
    · rename_i i _
      have h₂ := h₁.trans (setFd _ (slotOf (k.proctab p).pid) i
        fun _ => { major := devno, devTab := 0, status := .opened })
      split
      · exact h₂.trans (hopen _ _)
      · exact h₂.trans (hopen _ _)
  · exact refl k

theorem unmoved (h : FdsOnly k k') : Unmoved k k' where
  next q := by
    obtain ⟨d, hd⟩ := h.pcb q
    rw [hd]
  state q := by
    obtain ⟨d, hd⟩ := h.pcb q
    rw [hd]
  pid q := by
    obtain ⟨d, hd⟩ := h.pcb q
    rw [hd]
  first := h.first
  tail := h.tail
  idle := h.idle

end FdsOnly

theorem Unmoved.sysSighandler (k : Kernel) (p : Slot) : Unmoved k (sysSighandler k p) := by
  unfold Xeros.sysSighandler
  dsimp only
  split
  · exact .setRet k p _
  · refine .trans (.trans (.setMem k _) (.upd _ p ?_ ?_ ?_)) (.setRet _ p _)
    · simp
    · unfold Pcb.install Pcb.setHandler
      dsimp only
      split <;> split <;> rfl
    · simp

theorem Unmoved.sysSigreturn (k : Kernel) (p : Slot) (a : Ambient) :
    Unmoved k (sysSigreturn k p a) := by
  refine .upd k p (by simp) ?_ (by simp)
  unfold Pcb.sigreturn
  dsimp only
  split
  · split <;> rfl
  · rfl

theorem Unmoved.sysWrite (h : Xeros.sysWrite k p a = .ok k') : Unmoved k k' := by
  obtain ⟨m, rfl⟩ := sysWrite_cases h
  exact ((FdsOnly.setMem k m).trans (.diWrite _ p _ _ _)).unmoved.trans (.setRet _ p _)

/-- A signal for `t` that is posted moves nobody when `t` is not waiting. -/
theorem Unmoved.post {t : Slot} {n : Int} (ht : ¬ (k.proctab t).waiting)
    (hp : post k t n = .ok k') : Unmoved k k' := by
  rcases post_cases hp with ⟨hw, -⟩ | ⟨-, rfl⟩
  · exact absurd hw ht
  · exact .upd k t rfl rfl rfl

/-- A signal moves nobody if the process that it is sent to is not waiting. -/
theorem Unmoved.sysSigkill
    (hw : accepts k (k.arg p 0).toInt (k.arg p 1).toInt →
      ¬ (k.proctab (slotOf (k.arg p 0))).waiting)
    (h : Xeros.sysSigkill k p a = .ok k') : Unmoved k k' := by
  rcases sysSigkill_cases h with ⟨hacc, k₁, h₁, rfl⟩ | ⟨-, rfl⟩
  · exact (Unmoved.post (hw hacc) h₁).trans (.setRet k₁ p _)
  · exact .setRet k p _

/-! ## Requests that move the process itself -/

/-- The end of a request that gives up the processor. -/
theorem Queues.giveUp (h : Queues k none L) (hg : Good k) (hr : Xeros.reschedule k = .ok (k', p')) :
    ∃ L', Queues k' none L' ∧ (∀ c, p' ∉ L' c) ∧ L' .blocked = L .blocked := by
  obtain ⟨L', h', hframe⟩ := h.reschedule hg hr
  refine ⟨L', h', fun c => h'.notMem_of_running ?_, hframe .blocked (by decide)⟩
  simp only [Xeros.reschedule, Run.bind_eq_ok, pure, Except.pure, Except.ok.injEq,
    Prod.mk.injEq] at hr
  obtain ⟨⟨k₁, q⟩, -, rfl, rfl⟩ := hr
  simp [Xeros.run]

/-- The process that stops joins those that are dead, and releases no other than a process that
sends or receives. -/
theorem Queues.sysStop (h : Queues k none L) (hg : Good k) (hu : k.Used p)
    (hp : (k.proctab p).state = .running) (hi : p ≠ slotOf k.idleprocPid)
    (hstop : ∀ q, k.blockedQ = some q → waitsOn k q a.destpid ≠ (k.proctab p).pid)
    (hs : Xeros.sysStop k p a = .ok k') :
    ∃ L', Queues k' none L' ∧ ∀ r ∈ L .blocked, ¬ Messaging k r → r ∈ L' .blocked := by
  obtain ⟨k₁, h₁, h₂⟩ := sysStop_cases hs
  have hout := h.leave fun c => h.notMem_of_running hp
  have hg₀ : Good (k.upd p fun c => (c.setState .stopped).setNext none) := hg.upd hu rfl (by simp)
  have hg₁ := (append_quiet (X := nobody) hg₀ (hu.upd rfl) h₁).good
  have hq₁ := (hout.updOut (f := fun c => (c.setState .stopped).setNext none)
    fun he => absurd he hi).append rfl (by decide) (by simp [PState.queue]) h₁
  have hcalls := SameCalls.stopped h₁
  rw [hcalls.pid] at h₂
  -- the head of `blocked_q` is the one that it was, and waits for whom it did
  have hwait : ∀ q, k₁.blockedQ = some q → waitsOn k₁ q a.destpid ≠ (k.proctab p).pid := by
    intro q hq
    rw [hcalls.waitsOn]
    exact hstop q ((append_deadQ_others h₁).1 ▸ hq)
  obtain ⟨L', h', hkeep⟩ := hq₁.notifyWaiters hg₁ hwait h₂
  refine ⟨L', h', fun r hr hm => hkeep r ?_ ?_⟩
  · rwa [Function.update_of_ne (by decide)]
  · unfold Messaging at hm ⊢
    rwa [hcalls.ret]

/-- The timer moves nobody out of `blocked_q`. -/
theorem Queues.sysTimer (h : Queues k none L) (hg : Good k) (hu : k.Used p)
    (hp : (k.proctab p).state = .running) (hs : Xeros.sysTimer k p a = .ok (k', p')) :
    ∃ L', Queues k' none L' ∧ (∀ c, p' ∉ L' c) ∧ L' .blocked = L .blocked := by
  obtain ⟨k₁, k₂, h₁, h₂, h₃⟩ := sysTimer_cases hs
  obtain ⟨L₁, hq₁, hb₁⟩ := h.readyRunning hu hp h₁
  have hg₁ := (ready_quiet (X := nobody) hg hu h₁).good
  obtain ⟨L₂, hq₂, hout₂, hb₂⟩ := hq₁.giveUp hg₁ h₂
  have hg₂ := (reschedule_quiet (X := nobody) hg₁ h₂).1.good
  obtain ⟨L₃, hq₃, hb₃, hL₃⟩ := hq₂.tick hg₂ h₃
  refine ⟨L₃, hq₃, fun c hm => ?_, (hb₃.trans hb₂).trans hb₁⟩
  obtain ⟨d, hd⟩ := hL₃ p' c hm
  exact hout₂ d hd

/-- A process that waits for a signal joins those that are blocked. -/
theorem Queues.sysSigwait (h : Queues k none L) (hp : (k.proctab p).state = .running)
    (hi : p ≠ slotOf k.idleprocPid) (hs : Xeros.sysSigwait k p a = .ok k') :
    ∃ L', Queues k' none L' ∧ ∀ r ∈ L .blocked, r ∈ L' .blocked := by
  have hout := (h.leave fun c => h.notMem_of_running hp).updOut
    (f := fun c => { c with sigwaiter := 1, next := none }) fun _ => .inr hp
  obtain ⟨L', h', -, hkeep⟩ := hout.blockOut hi hs
  exact ⟨L', h', hkeep⟩

/-- A read moves nobody, unless the reader is registered: then it joins those that are
blocked. -/
theorem Queues.sysRead (h : Queues k none L) (hg : Good k) (hu : k.Used p)
    (hp : (k.proctab p).state = .running)
    (hi : (diRead k p (k.arg p 0).toInt (k.arg p 1) (k.arg p 2).toInt).1 = registeredKbdread →
      p ≠ slotOf k.idleprocPid)
    (hs : Xeros.sysRead k p a = .ok (k', p')) :
    ∃ L', Queues k' none L' ∧ (∀ c, p' ∉ L' c) ∧ (∀ r ∈ L .blocked, r ∈ L' .blocked) ∧
      ((diRead k p (k.arg p 0).toInt (k.arg p 1) (k.arg p 2).toInt).1 = registeredKbdread →
        p ∈ L' .blocked) := by
  have hout : ∀ c, p ∉ L c := fun c => h.notMem_of_running hp
  have hun := (FdsOnly.diRead k p (k.arg p 0).toInt (k.arg p 1) (k.arg p 2).toInt).unmoved
  have hx := diRead_quiet (X := nobody) (k.arg p 0).toInt (k.arg p 1) (k.arg p 2).toInt hg hu
  rcases sysRead_cases hs with ⟨hrc, rfl, v, rfl⟩ | ⟨hrc, k₁, h₁, h₂⟩
  · exact ⟨L, h.unmoved (hun.trans (.setRet _ _ v)), hout, fun r hr => hr, fun he => absurd he hrc⟩
  · have hq₀ := ((h.leave hout).unmoved hun).relink (p := p) hout none
    have hy := hx.trans (.updNext hx.good (hx.used hu) (o := none) (by simp))
    obtain ⟨L₁, hq₁, hp₁, hkeep⟩ := hq₀.blockOut (hun.idle ▸ hi hrc) h₁
    obtain ⟨L₂, hq₂, hout₂, hb₂⟩ := hq₁.giveUp
      (block_quiet (X := (· = p)) hy.good (hy.used hu) rfl h₁).good h₂
    exact ⟨L₂, hq₂, hout₂, fun r hr => hb₂ ▸ hkeep r hr, fun _ => hb₂ ▸ hp₁⟩

/-! ## A turn -/

/-- The request ends or blocks the process that makes it. -/
def Retires (k : Kernel) (p : Slot) (a : Ambient) : Request → Prop
  | .stop => True
  | .sleep => True
  | .send => (send k a (k.arg p 0) (k.arg p 1) (k.arg p 2).toInt p).1 = 0
  | .recv => ∃ k₀, recv k a (k.arg p 0) (k.arg p 1) (k.arg p 2).toInt p = .ok (0, k₀)
  | .sigwait => (k.proctab p).sigAllow ≠ 0
  | .read => (diRead k p (k.arg p 0).toInt (k.arg p 1) (k.arg p 2).toInt).1 = registeredKbdread
  | _ => False

/-- What keeps a request from splicing the lists: the idle process does not block, sleep
or stop; `create` takes no slot that stays in `dead_q`; a process that is woken or released by another is
the head of `blocked_q`, or, when a process stops, it is not; and no signal is accepted
for a process that is blocked or asleep. -/
structure MovesSafely (k : Kernel) (p : Slot) (a : Ambient) (req : Request) : Prop where
  idle : p = slotOf k.idleprocPid → ¬ Retires k p a req
  create : req = .create → ¬ createSplices k a.fuel (k.arg p 1)
  stop : req = .stop → ∀ q, k.blockedQ = some q → waitsOn k q a.destpid ≠ (k.proctab p).pid
  send : req = .send → ∀ r, sendPeer k a p = some r → ¬ EmptyMessage k p r →
    k.blockedQ = some r
  recv : req = .recv → ∀ q, recvPeer k a p = .ok (some q) → ¬ EmptyMessage k q p →
    (k.proctab (released k p q)).pid = 0 ∨ k.blockedQ = some (released k p q)
  sigkill : req = .sigkill → accepts k (k.arg p 0).toInt (k.arg p 1).toInt →
    ¬ (k.proctab (slotOf (k.arg p 0))).waiting
  keyboard : req = .keyboard → wakesReader k a → ReaderFirst k

/-- The request may take `r`, which is blocked, out of `blocked_q`. -/
def Frees (k : Kernel) (p : Slot) (a : Ambient) (r : Slot) : Request → Prop
  | .send => sendPeer k a p = some r ∧ ¬ EmptyMessage k p r
  | .recv => ∃ q, recvPeer k a p = .ok (some q) ∧ ¬ EmptyMessage k q p ∧ r = released k p q
  | .stop => Messaging k r
  | .keyboard => k.kbd.reader = some r
  | _ => False

/-- The lists `L'` after a request: the process to run is in none of them, those that are
blocked and that the request does not free stay so, and a reader that is registered joins
them. -/
structure Relisted (k : Kernel) (p : Slot) (a : Ambient) (req : Request)
    (L : Queue → List Slot) (k' : Kernel) (p' : Slot) (L' : Queue → List Slot) : Prop where
  queues : Queues k' none L'
  out : ∀ c, p' ∉ L' c
  keeps : ∀ r ∈ L .blocked, ¬ Frees k p a r req → r ∈ L' .blocked
  joins : req = .read → (diRead k p (k.arg p 0).toInt (k.arg p 1) (k.arg p 2).toInt).1
    = registeredKbdread → p ∈ L' .blocked

/-- A request that keeps the processor and moves nobody. -/
theorem Relisted.still {req : Request} (h : Queues k none L) (hp : ∀ c, p ∉ L c) (hne : req ≠ .read)
    (hun : Unmoved k k') : Relisted k p a req L k' p L :=
  ⟨h.unmoved hun, hp, fun _ hr _ => hr, fun he => absurd he hne⟩

/-- A request after which the processor is given up. -/
theorem Relisted.leave {req : Request} {L₁ : Queue → List Slot} (h : Queues k₁ none L₁)
    (hg : Good k₁) (hne : req ≠ .read)
    (hkeep : ∀ r ∈ L .blocked, ¬ Frees k p a r req → r ∈ L₁ .blocked)
    (hr : Xeros.reschedule k₁ = .ok (k', p')) : ∃ L', Relisted k p a req L k' p' L' := by
  obtain ⟨L', h', hout, hb⟩ := h.giveUp hg hr
  exact ⟨L', h', hout, fun r hr hf => hb ▸ hkeep r hr hf, fun he => absurd he hne⟩

/-- After a key, those that are blocked stay so, the reader apart. -/
theorem Relisted.keyboard (h : Queues k none L) (hg : Good k) (hp : ∀ c, p ∉ L c)
    (hf : wakesReader k a → ReaderFirst k) (hk : Xeros.sysKeyboard k a = .ok k') :
    ∃ L', Relisted k p a .keyboard L k' p L' := by
  obtain ⟨L', h', hwithin⟩ := h.sysKeyboard hg hf hk
  refine ⟨L', h', fun c hm => ?_, fun r hr hne => ?_, fun he => by cases he⟩
  · obtain ⟨d, hd⟩ := hwithin p c hm
    exact hp d hd
  · have hst : (k'.proctab r).state.queue = some .blocked := by
      rw [← h.placed .blocked r hr]
      rcases sysKeyboard_cases hg hk with hk | ⟨r', hk⟩
      · rw [hk.proctab]
      · rw [(hk.other r fun he => hne (he ▸ hk.reader)).1]
    exact h'.found r .blocked (by simp) hst (by decide) fun he => by cases he

/-- A process that is created is none of those in the lists. -/
theorem Relisted.create (h : Queues k none L) (hg : Good k) (hp : (k.proctab p).state = .running)
    (hc : ¬ createSplices k a.fuel (k.arg p 1)) (hk : Xeros.sysCreate k p a = .ok k') :
    ∃ L', Relisted k p a .create L k' p L' := by
  obtain ⟨pid, k₁, h₁, rfl⟩ := sysCreate_cases hk
  obtain ⟨L', h', hb, hnew⟩ := h.create hg hc h₁
  refine ⟨L', h'.unmoved (.setRet k₁ p pid), fun c hm => ?_, fun r hr _ => hb ▸ hr,
    fun he => by cases he⟩
  rcases hnew p c hm with ⟨d, hd⟩ | hdead
  · exact h.notMem_of_running hp hd
  · rw [hp] at hdead
    cases hdead

/-- Serving a request keeps every process in the list of its state. -/
theorem Queues.serve {req : Request} (h : Queues k none L) (hg : Good k) (hu : k.Used p)
    (hp : (k.proctab p).state = .running) (hc : MovesSafely k p a req)
    (hs : serve k p a req = .ok (k', p')) : ∃ L', Relisted k p a req L k' p' L' := by
  have hout : ∀ c, p ∉ L c := fun c => h.notMem_of_running hp
  have hidle : Retires k p a req → p ≠ slotOf k.idleprocPid := fun hr hi => hc.idle hi hr
  have hstill : ∀ {req : Request} {k₁ : Kernel}, req ≠ .read → Unmoved k k₁ →
      ∃ L', Relisted k p a req L k₁ p L' := fun hne hun => ⟨L, .still h hout hne hun⟩
  cases serve_cases hs with
  | getpid => exact hstill (by decide) (.setRet k p _)
  | puts => exact hstill (by decide) (.refl k)
  | bad => exact hstill (by decide) (.refl k)
  | sighandler => exact hstill (by decide) (.sysSighandler k p)
  | sigreturn => exact hstill (by decide) (.sysSigreturn k p a)
  | openDev => exact hstill (by decide) ((FdsOnly.diOpen k p _).unmoved.trans (.setRet _ p _))
  | close => exact hstill (by decide) ((FdsOnly.diClose k p _).unmoved.trans (.setRet _ p _))
  | ioctl => exact hstill (by decide) ((FdsOnly.diIoctl k a p _ _ _).unmoved.trans (.setRet _ p _))
  | write h₁ => exact hstill (by decide) (.sysWrite h₁)
  | sigkill h₁ => exact hstill (by decide) (.sysSigkill (hc.sigkill rfl) h₁)
  | keyboard h₁ => exact Relisted.keyboard h hg hout (hc.keyboard rfl) h₁
  | create h₁ => exact Relisted.create h hg hp (hc.create rfl) h₁
  | yield h₁ h₂ =>
      obtain ⟨L₁, hq₁, hb₁⟩ := h.readyRunning hu hp h₁
      exact Relisted.leave hq₁ (ready_quiet (X := nobody) hg hu h₁).good (by decide)
        (fun r hr _ => hb₁ ▸ hr) h₂
  | stop h₁ h₂ =>
      obtain ⟨L₁, hq₁, hkeep⟩ := h.sysStop hg hu hp (hidle trivial) (hc.stop rfl) h₁
      exact Relisted.leave hq₁ (sysStop_quiet (X := (· = p)) hg hu rfl h₁).good (by decide) hkeep h₂
  | send h₁ h₂ =>
      obtain ⟨L₁, hq₁, hkeep⟩ := h.sysSend hg hu hp hidle (hc.send rfl) h₁
      refine Relisted.leave hq₁ (sysSend_quiet (X := (· = p)) hg hu rfl h₁).good (by decide)
        (fun r hr hf => hkeep r hr fun hpeer => ?_) h₂
      exact Classical.not_not.mp fun he => hf ⟨hpeer, he⟩
  | recv h₁ h₂ =>
      obtain ⟨L₁, hq₁, hkeep⟩ := h.sysRecv hg hu hp (fun k₀ h₀ => hidle ⟨k₀, h₀⟩)
        (hc.recv rfl) h₁
      exact Relisted.leave hq₁ (sysRecv_quiet (X := (· = p)) hg hu rfl h₁).good (by decide)
        (fun r hr hf => hkeep r hr fun q hq he hrel => hf ⟨q, hq, he, hrel⟩) h₂
  | timer h₁ =>
      obtain ⟨L', h', hout', hb⟩ := h.sysTimer hg hu hp h₁
      exact ⟨L', h', hout', fun r hr _ => hb ▸ hr, fun he => by cases he⟩
  | sleep h₁ h₂ =>
      obtain ⟨L₁, hq₁, hb₁⟩ := h.sleep hp (hidle trivial) (sysSleep_cases h₁)
      exact Relisted.leave hq₁ (sysSleep_quiet (X := (· = p)) hg hu rfl h₁).good (by decide)
        (fun r hr _ => hb₁ ▸ hr) h₂
  | noHandler _ => exact hstill (by decide) (.setRet k p _)
  | sigwait hallow h₁ h₂ =>
      obtain ⟨L₁, hq₁, hkeep⟩ := h.sysSigwait hp (hidle hallow) h₁
      exact Relisted.leave hq₁ (sysSigwait_quiet (X := (· = p)) hg hu rfl h₁).good (by decide)
        (fun r hr _ => hkeep r hr) h₂
  | read h₁ =>
      obtain ⟨L', h', hout', hkeep, hjoin⟩ := h.sysRead hg hu hp hidle h₁
      exact ⟨L', h', hout', fun r hr _ => hkeep r hr, fun _ => hjoin⟩

/-- The step moves processes safely. -/
def StepMovesSafely (s : Disp) (t : Trap) : Prop :=
  MovesSafely (contextswitch s.k s.p t) s.p t.ambient t.cause.request

theorem Unmoved.contextswitch (k : Kernel) (p : Slot) (t : Trap) :
    Unmoved k (contextswitch k p t) := by
  refine .trans (.setMem k _) (.upd _ p (f := fun c => c.enter t.esp t.cause) ?_ ?_ ?_)
  · exact Pcb.enter_next _ _ _
  · exact Pcb.enter_state _ _ _
  · exact Pcb.enter_pid _ _ _

/-- The process on its way is put on the processor and gets its signals. -/
theorem Queues.loopTop (h : Queues k (some p) L) (hu : k.Used p) :
    Queues (loopTop k p).k none L := by
  have hu' : (Xeros.run k p).Used p := hu.congr (by simp [Xeros.run])
  have hk : (Xeros.loopTop k p).k = deliverSignalsIfany (Xeros.run k p) p := rfl
  rw [hk, deliverSignalsIfany_eq hu']
  split
  · exact h.run.unmoved (.trans (.setMem _ _) (.upd _ p rfl rfl rfl))
  · exact h.run

theorem Queues.turn {s s' : Disp} {t : Trap} (h : Queues s.k none L) (hs : Sound s)
    (hc : StepMovesSafely s t) (ht : turn s t = .ok s') : ∃ L', Queues s'.k none L' := by
  obtain ⟨k₂, hserve, he⟩ := turn_cases ht
  have hg := contextswitch_good hs.good hs.used t
  have hu := contextswitch_used (p := s.p) hs.used t
  have hp : ((Xeros.contextswitch s.k s.p t).proctab s.p).state = .running := by
    rw [contextswitch_state]
    exact hs.running
  obtain ⟨L', h'⟩ := (h.unmoved (.contextswitch s.k s.p t)).serve hg hu hp hc hserve
  obtain ⟨-, hu'⟩ := serve_served hg hu hserve
  rw [he]
  exact ⟨L', (h'.queues.leave h'.out).loopTop hu'⟩

end Xeros
