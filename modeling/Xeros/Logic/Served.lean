import Xeros.Logic.Serving

/-!
# What a turn of the dispatcher does to the signals

`Served` is the inversion of `serve`: a request is quiet, or it is one of five
that change the signals or the pid of one pcb and are quiet otherwise. Every
invariant about signals is proved from it.
-/

namespace Xeros

open Lib

variable {k k' : Kernel} {X : Slot → Prop} {p p' : Slot} {a : Ambient}

/-! ## Messages -/

theorem sendMatch_found {d : Word} {r : Slot} (h : sendMatch k p d = .found r) :
    r = slotOf d ∧ (k.proctab r).state = .blocked := by
  unfold sendMatch at h
  dsimp only at h
  split at h
  · rename_i hb
    split at h
    · cases h
      exact ⟨rfl, hb⟩
    split at h
    · cases h
    · cases h
      exact ⟨rfl, hb⟩
  · cases h

theorem validatePeer_quiet {pid buf : Word} {len : Int} (hg : Good k) (hX : X p) :
    Quiet X k (validatePeer k a p pid buf len).2 := by
  unfold validatePeer
  split
  · exact .setRet hg hX _
  split
  · exact .setRet hg hX _
  · exact .refl hg

/-- The codes of `validatePeer` that are not negative leave the kernel alone. -/
theorem validatePeer_ok {pid buf : Word} {len : Int}
    (h : ¬ (validatePeer k a p pid buf len).1 < 0) :
    (validatePeer k a p pid buf len).2 = k := by
  unfold validatePeer at h ⊢
  split
  · rename_i hv
    simp [hv] at h
  split
  · rename_i hv hp
    simp [hv, hp] at h
  · rfl

theorem sendMatch_refuse {d : Word} {rc : Int} (h : sendMatch k p d = .refuse rc) :
    rc = wouldDeadlock := by
  unfold sendMatch at h
  dsimp only at h
  split at h
  · split at h
    · cases h
    split at h
    · cases h
      rfl
    · cases h
  · cases h

theorem send_quiet {d b : Word} {l n : Int} (hg : Good k) (hX : X p)
    (h : send k a d b l p = (n, k')) : Quiet X k k' := by
  have hv : Quiet X k (validateSend k a p d b l).2 := validatePeer_quiet hg hX
  unfold send at h
  dsimp only at h
  split at h
  · simp only [Prod.mk.injEq] at h
    exact h.2 ▸ hv
  split at h <;> simp only [Prod.mk.injEq] at h
  · exact h.2 ▸ hv
  · exact h.2 ▸ hv
  · exact h.2 ▸ hv.trans (.setMem hv.good _)

/-- A send that passes bytes has found its target blocked. -/
theorem send_pos {d b : Word} {l n : Int} (h : send k a d b l p = (n, k')) (hn : 0 < n) :
    (k.proctab (slotOf d)).state = .blocked := by
  unfold send at h
  dsimp only at h
  split at h
  · simp only [Prod.mk.injEq] at h
    omega
  · rename_i hv
    rw [show (validateSend k a p d b l).2 = k from validatePeer_ok hv] at h
    split at h <;> simp only [Prod.mk.injEq] at h
    · rename_i rc hm
      rw [← h.1, sendMatch_refuse hm] at hn
      exact absurd hn (by decide)
    · omega
    · rename_i r hm
      obtain ⟨rfl, hb⟩ := sendMatch_found hm
      exact hb

theorem recv_quiet {f buf : Word} {len n : Int} (hg : Good k) (hX : X p)
    (h : recv k a f buf len p = .ok (n, k')) : Quiet X k k' := by
  have hv : Quiet X k (validateRecv k a p (k.mem.word f) buf len).2 :=
    validatePeer_quiet hg hX
  unfold recv at h
  dsimp only at h
  split at h
  · simp only [pure, Except.pure, Except.ok.injEq, Prod.mk.injEq] at h
    exact h.2 ▸ hv
  · simp only [Run.bind_eq_ok] at h
    obtain ⟨m, -, h⟩ := h
    split at h <;> simp only [pure, Except.pure, Except.ok.injEq, Prod.mk.injEq] at h
    · exact h.2 ▸ hv
    · exact h.2 ▸ hv
    · exact h.2 ▸ hv.trans (.setMem hv.good _)

/-- The end of a rendezvous: the peer leaves its queue and is made ready. -/
theorem release_quiet {q : Slot} {fuel : Nat} {r : Int} {k₀ k₁ : Kernel} (hg : Good k)
    (hu : k.Used q) (h₀ : Quiet (fun s => X s ∨ s = q) k₀ k)
    (h₁ : remove k fuel (getQ (k.proctab q).state) (k.proctab q).pid = .ok (k₁, r))
    (h : ready k₁ q = .ok k') : Quiet X k₀ k' := by
  have hr := h₀.trans (remove_quiet hg h₁)
  have hu' := (remove_quiet (X := nobody) hg h₁).used hu
  exact ready_settles hr.good hu' h (fun _ h => h) hr

/-- Storing the value of a completed call in two pcbs. -/
theorem answered_quiet {k₀ : Kernel} {q : Slot} {n : Int} (h : Quiet X k₀ k) (hp : X p) :
    Quiet (fun s => X s ∨ s = q) k₀ (answered k p q n) := by
  have hx := h.mono (Y := fun s => X s ∨ s = q) fun _ => .inl
  have hy := hx.trans (.setRet hx.good (.inl hp) (toWord n))
  exact hy.trans (.setRet hy.good (.inr rfl) (toWord n))

theorem sysSend_quiet (hg : Good k) (hu : k.Used p) (hX : X p)
    (h : sysSend k p a = .ok k') : Quiet X k k' := by
  obtain ⟨n, k₀, h₀, h⟩ := sysSend_cases h
  have hs : Quiet X k k₀ := send_quiet hg hX h₀
  rcases h with ⟨hn, k₁, k₂, r, h₁, h₂, h⟩ | ⟨-, h⟩ | ⟨-, h⟩
  · have hd : k.Used (slotOf (k.arg p 0)) := hg.used (by simp [send_pos h₀ hn])
    have hz := answered_quiet (q := slotOf (k.arg p 0)) (n := n) hs hX
    have hw := hz.trans (ready_quiet hz.good (hz.used hu) h₁)
    exact release_quiet hw.good (hw.used hd) hw h₂ h
  · have hy := hs.trans (.setRet hs.good hX (toWord n))
    exact hy.trans (ready_quiet hy.good (hy.used hu) h)
  · exact hs.trans (block_quiet hs.good (hs.used hu) hX h)

theorem sysRecv_quiet (hg : Good k) (hu : k.Used p) (hX : X p)
    (h : sysRecv k p a = .ok k') : Quiet X k k' := by
  obtain ⟨n, k₀, h₀, h⟩ := sysRecv_cases h
  have hs : Quiet X k k₀ := recv_quiet hg hX h₀
  rcases h with ⟨hn, k₁, h₁, h⟩ | ⟨-, h⟩ | ⟨-, h⟩
  · have hz := answered_quiet (q := slotOf (k₀.mem.word (k.arg p 0))) (n := n) hs hX
    have hw := hz.trans (ready_quiet hz.good (hz.used hu) h₁)
    rcases h with ⟨hpid, k₂, r, h₂, h⟩ | ⟨hpid, rfl⟩
    · exact release_quiet hw.good (hw.good.used_of_pid hpid) hw h₂ h
    · -- the slot named by the cell was never used, and stays stopped
      refine hw.settle fun s hs' => hs'.imp id ?_
      rintro rfl
      have hst := hw.good.stopped_of_pid hpid
      have hst₀ := hg.stopped_of_pid ((hw.same _).pid ▸ hpid)
      exact .inl ⟨hst.trans hst₀.symm, .inl hst₀⟩
  · have hy := hs.trans (.setRet hs.good hX (toWord n))
    exact hy.trans (ready_quiet hy.good (hy.used hu) h)
  · exact hs.trans (block_quiet hs.good (hs.used hu) hX h)

/-! ## The other quiet requests -/

theorem sysStop_quiet (hg : Good k) (hu : k.Used p) (hX : X p)
    (h : sysStop k p a = .ok k') : Quiet X k k' := by
  obtain ⟨k₁, h₁, h₂⟩ := sysStop_cases h
  have hx : Quiet X k (k.upd p fun c => (c.setState .stopped).setNext none) :=
    .upd hg hu ⟨rfl, rfl, rfl, rfl, rfl, rfl, rfl, rfl⟩ (by simp) (.inl hX)
  have hy := hx.trans (append_quiet hx.good (hx.used hu) h₁)
  exact hy.trans (notifyWaiters_quiet hy.good h₂)

theorem sysSigwait_quiet (hg : Good k) (hu : k.Used p) (hX : X p)
    (h : sysSigwait k p a = .ok k') : Quiet X k k' := by
  have hx : Quiet X k (k.upd p fun c => { c with sigwaiter := 1, next := none }) :=
    .upd hg hu ⟨rfl, rfl, rfl, rfl, rfl, rfl, rfl, rfl⟩ (by simp) (.inl hX)
  exact hx.trans (block_quiet hx.good (hx.used hu) hX h)

theorem sysTimer_quiet (hg : Good k) (hu : k.Used p)
    (h : sysTimer k p a = .ok (k', p')) : Quiet X k k' ∧ k'.Used p' := by
  obtain ⟨k₁, k₂, h₁, h₂, h₃⟩ := sysTimer_cases h
  have hx := ready_quiet (X := X) hg hu h₁
  obtain ⟨hy, hq⟩ := reschedule_quiet (X := X) hx.good h₂
  have hz := tick_quiet (X := X) hy.good h₃
  exact ⟨(hx.trans hy).trans hz, hz.used hq⟩

theorem sysSleep_quiet (hg : Good k) (hu : k.Used p) (hX : X p)
    (h : sysSleep k p a = .ok k') : Quiet X k k' :=
  sleep_quiet hg hu hX (sysSleep_cases h)

theorem sysWrite_quiet (hg : Good k) (hu : k.Used p) (hX : X p)
    (h : sysWrite k p a = .ok k') : Quiet X k k' := by
  obtain ⟨m, rfl⟩ := sysWrite_cases h
  have hx : Quiet X k (k.setMem m) := .setMem hg m
  have hy := hx.trans (diWrite_quiet (k.arg p 0).toInt (k.arg p 1)
    (k.arg p 2).toInt hx.good (hx.used hu))
  exact hy.trans (.setRet hy.good hX _)

theorem sysRead_quiet (hg : Good k) (hu : k.Used p) (hX : X p)
    (h : sysRead k p a = .ok (k', p')) : Quiet X k k' ∧ k'.Used p' := by
  have hx := diRead_quiet (X := X) (k.arg p 0).toInt (k.arg p 1)
    (k.arg p 2).toInt hg hu
  rcases sysRead_cases h with ⟨-, rfl, v, rfl⟩ | ⟨-, k₁, h₁, h₂⟩
  · have hy := hx.trans (.setRet hx.good hX v)
    exact ⟨hy, hy.used hu⟩
  · have hy := hx.trans (.updNext hx.good (hx.used hu) (o := none) (by simp))
    have hz := hy.trans (block_quiet hy.good (hy.used hu) hX h₁)
    obtain ⟨hw, hp⟩ := reschedule_quiet (X := X) hz.good h₂
    exact ⟨hz.trans hw, hp⟩

theorem sysKeyboard_quiet (hg : Good k) (h : sysKeyboard k a = .ok k') :
    Quiet X k k' := by
  unfold sysKeyboard at h
  split at h
  · exact processKey_quiet hg h
  · simp only [pure, Except.pure, Except.ok.injEq] at h
    exact h ▸ .refl hg

/-! ## The requests that change signals -/

/-- An update of one pcb that keeps its pid and its link. -/
theorem Good.updSig (hg : Good k) (hu : k.Used p) {f : Pcb → Pcb}
    (hpid : (f (k.proctab p)).pid = (k.proctab p).pid)
    (hnext : (f (k.proctab p)).next = (k.proctab p).next) : Good (k.upd p f) :=
  hg.upd hu hpid fun r hr => hg.next p r (hnext ▸ hr)

@[simp] theorem Pcb.setHandler_pid (c : Pcb) (n : Int) (fp : Word) :
    (c.setHandler n fp).pid = c.pid := by
  unfold setHandler
  dsimp only
  split <;> rfl

@[simp] theorem Pcb.setHandler_next (c : Pcb) (n : Int) (fp : Word) :
    (c.setHandler n fp).next = c.next := by
  unfold setHandler
  dsimp only
  split <;> rfl

@[simp] theorem Pcb.install_pid (c : Pcb) (n : Int) (fp : Word) :
    (c.install n fp).pid = c.pid := by
  unfold install
  dsimp only
  split <;> simp

@[simp] theorem Pcb.install_next (c : Pcb) (n : Int) (fp : Word) :
    (c.install n fp).next = c.next := by
  unfold install
  dsimp only
  split <;> simp

@[simp] theorem Pcb.sigreturn_pid (c : Pcb) (m : Bytes) (sig : Int) (sp : Word) :
    (c.sigreturn m sig sp).pid = c.pid := by
  unfold sigreturn
  dsimp only
  split
  · split <;> rfl
  · rfl

@[simp] theorem Pcb.sigreturn_next (c : Pcb) (m : Bytes) (sig : Int) (sp : Word) :
    (c.sigreturn m sig sp).next = c.next := by
  unfold sigreturn
  dsimp only
  split
  · split <;> rfl
  · rfl

/-- Posting sets the bit and is quiet otherwise; a waiting target is made ready. -/
theorem post_quiet {t : Slot} {signo : Int} (hg : Good k) (ht : k.Used t)
    (h : post k t signo = .ok k') :
    Quiet X (k.upd t fun c => c.pend signo) k' ∧
      ((k.proctab t).waiting → (k'.proctab t).state = .ready) := by
  have hg' : Good (k.upd t fun c => c.pend signo) := hg.updSig ht rfl rfl
  have ht' : (k.upd t fun c => c.pend signo).Used t := ht.upd rfl
  rcases post_cases h with ⟨-, k₁, v, h₁, rfl⟩ | ⟨hn, rfl⟩
  · have hs : ((k₁.setRet t v).proctab t).state = .ready := by
      simpa [Kernel.setRet] using ready_state ht' h₁
    have hx := ready_quiet (X := fun s => X s ∨ s = t) hg' ht' h₁
    refine ⟨(hx.trans (.setRet hx.good (.inr rfl) v)).settle ?_, fun _ => hs⟩
    rintro s (hs' | rfl)
    · exact .inl hs'
    · exact .inr (.inr (.inl hs))
  · exact ⟨.refl hg', fun hw => absurd hw hn⟩

/-- A target that accepts a signal is used. -/
theorem accepts.used {pid signo : Int} (hg : Good k) (h : accepts k pid signo) :
    k.Used (slotOf (toWord pid)) := by
  refine (hg.slot _).resolve_right fun hf => h.2.2 ?_
  rw [hf.2.2]
  simp

/-! ## Process creation -/

/-- The new pid leads back to the slot. -/
theorem nextPid_used (pid : Word) (i : Slot) :
    slotOf (nextPid pid i.val) = i ∧ (nextPid pid i.val).toNat < 0x80000000 := by
  have hlow : slotOf (BitVec.ofNat 32 i.val) = i ∧ (BitVec.ofNat 32 i.val).toNat < 0x80000000 := by
    have hlt : i.val < 64 := i.isLt
    simp only [slotOf, maxProc, Fin.ext_iff, BitVec.toNat_ofNat]
    omega
  unfold nextPid
  split
  · exact hlow
  split
  · exact hlow
  · rename_i h₁ h₂
    have h₃ : (pid + BitVec.ofNat 32 maxProc).toNat < 2147483647 := by
      simpa [BitVec.le_def] using h₂
    have h₄ : (pid + BitVec.ofNat 32 maxProc).toNat % maxProc = pid.toNat % maxProc := by
      simp only [maxProc, BitVec.toNat_add, BitVec.toNat_ofNat]
      omega
    refine ⟨?_, by omega⟩
    unfold slotOf
    rw [Fin.ext_iff]
    dsimp only
    rw [h₄]
    exact Classical.not_not.mp h₁

theorem freeSlot_spec {i : Slot} (h : freeSlot k = some i) :
    i ≠ 0 ∧ ((k.proctab i).state = .stopped ∨ (k.proctab i).state = .dead) := by
  have := List.find?_some h
  simpa using this

/-- A pid is given to slot `i`. -/
theorem Good.renew (hg : Good k) {i : Slot} (hi : i ≠ 0) :
    Good (k.upd i fun c => c.renew i) := by
  have hui : (k.upd i fun c => c.renew i).Used i := by
    refine ⟨hi, ?_⟩
    simpa using nextPid_used (k.proctab i).pid i
  have hu : ∀ q, k.Used q → (k.upd i fun c => c.renew i).Used q := by
    intro q hq
    by_cases h : q = i
    · exact h ▸ hui
    · exact hq.congr (by simp [h])
  refine ⟨fun q => ?_, fun q r hr => hu r (hg.next q r ?_), fun q h => hu q (hg.head q h),
    fun q h => hu q (hg.tail q h), fun q h => hu q (hg.running q h),
    fun q h => hu q (hg.blockedQ q h), fun q h => hu q (hg.deadQ q h),
    fun q h => hu q (hg.headsleeper q h), fun q h => hu q (hg.reader q h), hu _ hg.idle⟩
  · by_cases h : q = i
    · exact .inl (h ▸ hui)
    · exact (hg.slot q).imp (hu q) fun hf => by simpa [Kernel.Fresh, h] using hf
  · by_cases h : q = i
    · subst h
      simpa using hr
    · simpa [h] using hr

/-- A frame between kernels whose slot `i` has been updated on both sides. -/
theorem Quiet.updBoth (h : Quiet X k k') {i : Slot} {f : Pcb → Pcb} {k₂ : Kernel}
    (hp : ∀ q, q ≠ i → k₂.proctab q = k'.proctab q)
    (hs : (f (k.proctab i)).Same (k₂.proctab i))
    (hi : X i ∨ (f (k.proctab i)).Sched (k₂.proctab i))
    (hidle : k₂.idleprocPid = k'.idleprocPid) (himg : k₂.img = k'.img) (hg : Good k₂) :
    Quiet X (k.upd i f) k₂ where
  same q := by
    by_cases hq : q = i
    · subst hq
      simpa using hs
    · simpa [hq, hp q hq] using h.same q
  sched q hx := by
    by_cases hq : q = i
    · subst hq
      simpa using hi.resolve_left hx
    · simpa [hq, hp q hq] using h.sched q hx
  idle := hidle.trans h.idle
  img := himg.trans h.img
  good := hg

/-- `create` gives a pid to the slot it has chosen, if any, and is quiet
otherwise. -/
theorem create_quiet {fuel : Nat} {fp stack pid : Word} (hg : Good k)
    (h : create k fuel fp stack = .ok (pid, k')) :
    (freeSlot k = none ∧ Quiet X k k') ∨
    ∃ i esp, freeSlot k = some i ∧
      Quiet X (k.upd i fun c => { c.renew i with esp := esp }) k' := by
  rcases create_cases h with ⟨k₁, r, hf, h₁, -, rfl⟩ | ⟨i, k₁, r, block, heap, hf, h₁, -, h⟩
  · -- no slot is free, but `remove` has been called already
    have hx := remove_quiet (X := X) hg h₁
    exact .inl ⟨hf, hx.same, hx.sched, hx.idle, hx.img, { hx.good with }⟩
  · obtain ⟨hi, hst⟩ := freeSlot_spec hf
    have hx := remove_quiet (X := X) hg h₁
    have hs := hx.same i
    have hgr : Good ((k₁.upd i fun c => c.renew i).setHeap heap) :=
      { hx.good.renew hi with }
    have hui : ((k₁.upd i fun c => c.renew i).setHeap heap).Used i := by
      refine ⟨hi, ?_⟩
      simpa using nextPid_used (k₁.proctab i).pid i
    rcases h with ⟨-, -, rfl⟩ | ⟨-, -, h₂⟩
    · -- the heap is used up: the slot has its new pid, but no context
      refine .inr ⟨i, (k.proctab i).esp, hf, hx.updBoth ?_ ?_ ?_ rfl rfl hgr⟩
      · intro q hq
        simp [hq]
      · simpa using ⟨hs.esp, by simp [hs.pid], hs.args, hs.sigPending, hs.sigAllow, rfl,
          hs.sigHandler, hs.major⟩
      · by_cases hX : X i
        · exact .inl hX
        · exact .inr (by simpa [Pcb.Sched] using hx.sched i hX)
    · generalize block + (if stack.slt procStack then procStack else stack) - 4 - 44 = cf
        at h₂
      have hgm := Quiet.setMem (X := X) hgr (startContext k₁.mem k₁.img cf fp)
      have hgs : Good ((((k₁.upd i fun c => c.renew i).setHeap heap).setMem
          (startContext k₁.mem k₁.img cf fp)).upd i fun c => c.start cf) :=
        hgm.good.updSig (hgm.used hui) rfl rfl
      have hy : Quiet X (k.upd i fun c => { c.renew i with esp := cf })
          ((((k₁.upd i fun c => c.renew i).setHeap heap).setMem
            (startContext k₁.mem k₁.img cf fp)).upd i fun c => c.start cf) := by
        refine hx.updBoth ?_ ?_ ?_ rfl rfl hgs
        · intro q hq
          simp [hq]
        · simpa using ⟨rfl, by simp [hs.pid], hs.args, hs.sigPending, hs.sigAllow, rfl,
            hs.sigHandler, hs.major⟩
        · exact .inr (by simp [Pcb.Sched])
      refine .inr ⟨i, cf, hf, ?_⟩
      exact hy.trans (ready_quiet hy.good ((hgm.used hui).upd rfl) h₂)

/-! ## Opening a device -/

/-- The pcb after descriptor 0 has been opened on a device. -/
def Pcb.openFirst (c : Pcb) (devno : Word) : Pcb :=
  c.setFd 0 { major := devno, devTab := 0, status := .opened }

theorem callOpen_quiet {f : OpenFn} (hg : Good k) (hu : k.Used p) :
    Quiet X k (callOpen f k p).2 := by
  unfold callOpen
  split
  · exact .refl hg
  · have h₁ : Quiet X k (keyboardInit k) :=
      ⟨fun _ => .refl _, fun _ _ => .refl _, rfl, rfl, { hg with }⟩
    refine h₁.trans (.setKbd h₁.good ?_)
    rintro r ⟨rfl⟩
    exact h₁.used hu

/-- The first descriptor is the first one scanned. -/
theorem scanFds_zero {fd : Fin maxFiles → Fildes} {devno : Word}
    (h : scanFds fd devno (List.finRange maxFiles) = some 0) : (fd 0).status ≠ .opened := by
  intro hs
  have h4 : List.finRange maxFiles = [0, 1, 2, 3] := by decide
  have hmem : ∀ (l : List (Fin maxFiles)) (i : Fin maxFiles), scanFds fd devno l = some i → i ∈ l := by
    intro l
    induction l with
    | nil => simp [scanFds]
    | cons j rest ih =>
        intro i hi
        unfold scanFds at hi
        split at hi
        · split at hi
          · cases hi
          split at hi
          · cases hi
          · exact List.mem_cons_of_mem _ (ih i hi)
        · cases hi
          exact List.mem_cons_self
  rw [h4] at h
  unfold scanFds at h
  rw [if_pos hs] at h
  split at h
  · cases h
  split at h
  · cases h
  · exact absurd (hmem _ _ h) (by decide)

/-- `di_open` is quiet but for the first descriptor, when it is the one that is
opened. -/
theorem diOpen_quiet (devno : Word) (hg : Good k) (hu : k.Used p) :
    Quiet X k (diOpen k p devno).2 ∨
    ((k.proctab p).fd 0).status ≠ .opened ∧
      Quiet X (k.upd p fun c => c.openFirst devno) (diOpen k p devno).2 := by
  unfold diOpen
  rw [hu.2.1]
  dsimp only
  have h₁ : Quiet X k (k.upd p fun c => c.setFd 0 { c.fd 0 with devTab := 0 }) :=
    setFd_quiet hg hu 0 (fun c => { c.fd 0 with devTab := 0 }) fun _ _ => rfl
  split
  · split
    · exact .inl h₁
    · rename_i i hi
      by_cases hi0 : i = 0
      · subst hi0
        have hgo : Good ((k.upd p fun c => c.setFd 0 { c.fd 0 with devTab := 0 }).upd p
            fun c => c.setFd 0 { major := devno, devTab := 0, status := .opened }) :=
          h₁.good.updSig (h₁.used hu) rfl rfl
        have hp : ∀ q, q ≠ p → ((k.upd p fun c => c.setFd 0 { c.fd 0 with devTab := 0 }).upd p
            fun c => c.setFd 0 { major := devno, devTab := 0, status := .opened }).proctab q
              = k.proctab q := by
          intro q hq
          simp [hq]
        have hs : ((k.proctab p).openFirst devno).Same
            (((k.upd p fun c => c.setFd 0 { c.fd 0 with devTab := 0 }).upd p
              fun c => c.setFd 0 { major := devno, devTab := 0, status := .opened }).proctab p) := by
          simpa using ⟨rfl, rfl, rfl, rfl, rfl, rfl, rfl, rfl⟩
        have h₂ : Quiet X (k.upd p fun c => c.openFirst devno)
            ((k.upd p fun c => c.setFd 0 { c.fd 0 with devTab := 0 }).upd p
              fun c => c.setFd 0 { major := devno, devTab := 0, status := .opened }) :=
          (Quiet.refl (X := X) hg).updBoth hp hs
            (.inr (.inl ⟨by simp [Pcb.setFd, Pcb.openFirst], .inr (by
              simp [Pcb.setFd, Pcb.openFirst])⟩)) rfl rfl hgo
        refine .inr ⟨by simpa [Pcb.setFd] using scanFds_zero hi, ?_⟩
        split
        · exact h₂.trans (callOpen_quiet h₂.good (h₂.used (hu.upd rfl)))
        · exact h₂.trans (callOpen_quiet h₂.good (h₂.used (hu.upd rfl)))
      · have h₂ := h₁.trans (setFd_quiet h₁.good (h₁.used hu) i
          (fun _ => { major := devno, devTab := 0, status := .opened })
          fun h => absurd h hi0)
        split
        · exact .inl (h₂.trans (callOpen_quiet h₂.good (h₂.used hu)))
        · exact .inl (h₂.trans (callOpen_quiet h₂.good (h₂.used hu)))
  · exact .inl (.refl hg)

/-! ## The inversion of `serve` -/

/-- The request changes no signals and no pid, whatever else it does. Opening a
device is not among the requests that are told apart. -/
def Silent (k : Kernel) (p : Slot) : Request → Prop
  | .create => freeSlot k = none
  | .sighandler => ¬ (0 ≤ (k.arg p 0).toInt ∧ (k.arg p 0).toInt ≤ maxSignal)
  | .sigreturn => False
  | .sigkill => ¬ accepts k (k.arg p 0).toInt (k.arg p 1).toInt
  | _ => True

/-- What serving a request of `p` does to the pcbs, up to a quiet step. Where it
is not quiet, `p` stays on the processor. -/
inductive Served (k : Kernel) (p : Slot) (a : Ambient) (req : Request) (k' : Kernel)
    (p' : Slot) : Prop
  | quiet (hreq : Silent k p req) (h : Quiet (· = p) k k')
  | create (hreq : req = .create) (hp : p' = p) (i : Slot) (esp : Word)
      (hi : freeSlot k = some i)
      (h : Quiet (· = p) (k.upd i fun c => { c.renew i with esp := esp }) k')
  | install (hreq : req = .sighandler) (hp : p' = p)
      (hn : 0 ≤ (k.arg p 0).toInt ∧ (k.arg p 0).toInt ≤ maxSignal)
      (h : Quiet (· = p) (k.upd p fun c => c.install (k.arg p 0).toInt (k.arg p 1)) k')
  | sigreturn (hreq : req = .sigreturn) (hp : p' = p) (h : k' = sysSigreturn k p a)
  | post (hreq : req = .sigkill) (hp : p' = p)
      (hacc : accepts k (k.arg p 0).toInt (k.arg p 1).toInt)
      (h : Quiet (· = p) (k.upd (slotOf (k.arg p 0)) fun c => c.pend (k.arg p 1).toInt) k')
      (hwake : (k.proctab (slotOf (k.arg p 0))).waiting →
        (k'.proctab (slotOf (k.arg p 0))).state = .ready)
  | openFirst (hreq : req = .openDev) (hp : p' = p)
      (hfd : ((k.proctab p).fd 0).status ≠ .opened)
      (h : Quiet (· = p) (k.upd p fun c => c.openFirst (k.arg p 0)) k')

/-- Serving a request keeps the pointers good. -/
theorem Served.good {req : Request} (h : Served k p a req k' p') (hg : Good k)
    (hu : k.Used p) : Good k' := by
  cases h with
  | quiet _ h => exact h.good
  | create _ _ _ _ _ h => exact h.good
  | install _ _ _ h => exact h.good
  | sigreturn _ _ h =>
      rw [h]
      exact hg.updSig hu (by simp) (by simp)
  | post _ _ _ h _ => exact h.good
  | openFirst _ _ _ h => exact h.good

/-- The process served gets its return value. -/
theorem Quiet.thenRet (h : Quiet (· = p) k k') (v : Word) :
    Quiet (· = p) k (k'.setRet p v) :=
  h.trans (.setRet (X := (· = p)) h.good rfl v)

theorem sysSighandler_served (hg : Good k) (hu : k.Used p) :
    Served k p a .sighandler (sysSighandler k p) p ∧ (sysSighandler k p).Used p := by
  unfold sysSighandler
  dsimp only
  split
  · have hs : Silent k p .sighandler := by
      rintro ⟨h₁, h₂⟩
      omega
    exact ⟨.quiet hs ((Quiet.refl hg).thenRet _), hu.upd rfl⟩
  · have hx := Quiet.setMem (X := (· = p)) hg
      (k.mem.putWord (k.arg p 2) ((k.proctab p).handler (k.arg p 0).toInt))
    have hy : Quiet (· = p) (k.upd p fun c => c.install (k.arg p 0).toInt (k.arg p 1))
        ((k.setMem (k.mem.putWord (k.arg p 2)
          ((k.proctab p).handler (k.arg p 0).toInt))).upd p
            fun c => c.install (k.arg p 0).toInt (k.arg p 1)) :=
      hx.updBoth (i := p) (fun q hq => by simp [hq])
        (by simpa using Pcb.Same.refl _) (.inl rfl) rfl rfl
        (hx.good.updSig (hx.used hu) (by simp) (by simp))
    have hz := hy.thenRet (toWord sighdlrOk)
    exact ⟨.install rfl rfl ⟨by omega, by omega⟩ hz, hz.used (hu.upd (by simp))⟩

theorem sysSigkill_served (hg : Good k) (hu : k.Used p) (h : sysSigkill k p a = .ok k') :
    Served k p a .sigkill k' p ∧ k'.Used p := by
  rcases sysSigkill_cases h with ⟨hacc, k₁, hpost, rfl⟩ | ⟨hacc, rfl⟩
  · have ht := hacc.used hg
    rw [toWord_toInt] at ht
    obtain ⟨hq, hw⟩ := post_quiet (X := (· = p)) hg ht hpost
    have hq' := hq.thenRet (toWord sighdlrOk)
    refine ⟨.post rfl rfl hacc hq' fun hst => ?_, hq'.used (hu.upd rfl)⟩
    have hst' := hw hst
    -- the caller may be the target itself
    by_cases hp : slotOf (k.arg p 0) = p
    · rw [hp] at hst' ⊢
      simpa [Kernel.setRet] using hst'
    · simpa [Kernel.setRet, hp] using hst'
  · have hq := (Quiet.refl (X := (· = p)) hg).thenRet (toWord invalidSignal)
    exact ⟨.quiet hacc hq, hq.used hu⟩

theorem sysCreate_served (hg : Good k) (hu : k.Used p) (h : sysCreate k p a = .ok k') :
    Served k p a .create k' p ∧ k'.Used p := by
  obtain ⟨pid, k₁, h₁, rfl⟩ := sysCreate_cases h
  rcases create_quiet (X := (· = p)) hg h₁ with ⟨hf, hq⟩ | ⟨i, esp, hi, hq⟩
  · have hq' := hq.thenRet pid
    exact ⟨.quiet hf hq', hq'.used hu⟩
  · have hq' := hq.thenRet pid
    refine ⟨.create rfl rfl i esp hi hq', ?_⟩
    have hui : (k.upd i fun c => { c.renew i with esp := esp }).Used p := by
      by_cases hp : p = i
      · subst hp
        exact ⟨hu.1, by simpa using nextPid_used (k.proctab p).pid p⟩
      · exact hu.congr (by simp [hp])
    exact hq'.used hui

/-- Every request is quiet, or one of the five that are not. -/
theorem serve_served {req : Request} (hg : Good k) (hu : k.Used p)
    (h : serve k p a req = .ok (k', p')) : Served k p a req k' p' ∧ k'.Used p' := by
  have hquiet : ∀ {req : Request} {k₁ : Kernel}, Silent k p req → Quiet (· = p) k k₁ →
      Served k p a req k₁ p ∧ k₁.Used p :=
    fun hs hq => ⟨.quiet hs hq, hq.used hu⟩
  have hresched : ∀ {req : Request} {k₁ : Kernel}, Silent k p req → Quiet (· = p) k k₁ →
      reschedule k₁ = .ok (k', p') → Served k p a req k' p' ∧ k'.Used p' := by
    intro req k₁ hs hq hk
    obtain ⟨h₁, hp'⟩ := reschedule_quiet hq.good hk
    exact ⟨.quiet hs (hq.trans h₁), hp'⟩
  cases serve_cases h with
  | stop h₁ h₂ => exact hresched trivial (sysStop_quiet hg hu rfl h₁) h₂
  | yield h₁ h₂ => exact hresched trivial (ready_quiet hg hu h₁) h₂
  | create h₁ => exact sysCreate_served hg hu h₁
  | timer h₁ =>
      obtain ⟨hq, hp'⟩ := sysTimer_quiet (X := (· = p)) hg hu h₁
      exact ⟨.quiet trivial hq, hp'⟩
  | getpid => exact hquiet trivial ((Quiet.refl hg).thenRet _)
  | puts => exact hquiet trivial (.refl hg)
  | send h₁ h₂ => exact hresched trivial (sysSend_quiet hg hu rfl h₁) h₂
  | recv h₁ h₂ => exact hresched trivial (sysRecv_quiet hg hu rfl h₁) h₂
  | sleep h₁ h₂ => exact hresched trivial (sysSleep_quiet hg hu rfl h₁) h₂
  | sighandler => exact sysSighandler_served hg hu
  | sigreturn => exact ⟨.sigreturn rfl rfl rfl, hu.upd (by simp)⟩
  | sigkill h₁ => exact sysSigkill_served hg hu h₁
  | noHandler _ => exact hquiet trivial ((Quiet.refl hg).thenRet _)
  | sigwait _ h₁ h₂ => exact hresched trivial (sysSigwait_quiet hg hu rfl h₁) h₂
  | openDev =>
      rcases diOpen_quiet (X := (· = p)) (k.arg p 0) hg hu with hq | ⟨hfd, hq⟩
      · exact hquiet trivial (hq.thenRet _)
      · have hq' := hq.thenRet (toWord (diOpen k p (k.arg p 0)).1)
        exact ⟨.openFirst rfl rfl hfd hq', hq'.used (hu.upd rfl)⟩
  | close => exact hquiet trivial ((diClose_quiet hg hu).thenRet _)
  | write h₁ => exact hquiet trivial (sysWrite_quiet hg hu rfl h₁)
  | read h₁ =>
      obtain ⟨hq, hp'⟩ := sysRead_quiet (X := (· = p)) hg hu rfl h₁
      exact ⟨.quiet trivial hq, hp'⟩
  | ioctl => exact hquiet trivial ((diIoctl_quiet hg).thenRet _)
  | keyboard h₁ => exact hquiet trivial (sysKeyboard_quiet hg h₁)
  | bad => exact hquiet trivial (.refl hg)

/-- A process off the processor that waits after a request has been served has
the signals it had before. If it was not the one served, it has waited all along
and with the same `ret`. -/
theorem Served.waiting {req : Request} {q : Slot} (h : Served k p a req k' p')
    (hq : q ≠ p') (hw : (k'.proctab q).waiting) :
    (k.proctab q).Same (k'.proctab q) ∧
      (q ≠ p → (k'.proctab q).state = (k.proctab q).state
        ∧ (k'.proctab q).ret = (k.proctab q).ret) := by
  -- the update of another pcb in front of a quiet step
  have hother : ∀ {i : Slot} {f : Pcb → Pcb}, Quiet (· = p) (k.upd i f) k' → q ≠ i → q ≠ p →
      (k.proctab q).Same (k'.proctab q) ∧
        (q ≠ p → (k'.proctab q).state = (k.proctab q).state
          ∧ (k'.proctab q).ret = (k.proctab q).ret) := by
    intro i f hx hi hp
    have hsame := hx.same q
    have hsched := hx.sched q hp
    rw [Kernel.upd_proctab_ne _ _ _ hi] at hsame hsched
    exact ⟨hsame, fun _ => hsched.waiting hw⟩
  cases h with
  | quiet _ hx => exact ⟨hx.same q, fun hp => (hx.sched q hp).waiting hw⟩
  | create _ hp i esp hi hx =>
      have hqp : q ≠ p := hp ▸ hq
      by_cases hqi : q = i
      · -- the slot chosen was stopped, and is ready if it changed
        subst hqi
        have hst := ((hx.sched q hqp).waiting hw).1
        rw [Kernel.upd_proctab_self] at hst
        obtain ⟨-, hs | hs⟩ := freeSlot_spec hi
        · exact absurd hw (by simp [Pcb.waiting, hst, hs])
        · exact absurd hw (by simp [Pcb.waiting, hst, hs])
      · exact hother hx hqi hqp
  | install _ hp _ hx => exact hother hx (hp ▸ hq) (hp ▸ hq)
  | sigreturn _ hp hk =>
      have hqp : q ≠ p := hp ▸ hq
      have hkq : k'.proctab q = k.proctab q := by
        rw [hk, sysSigreturn, Kernel.upd_proctab_ne _ _ _ hqp]
      exact ⟨hkq ▸ .refl _, fun _ => by rw [hkq]; exact ⟨rfl, rfl⟩⟩
  | post _ hp _ hx hwake =>
      have hqp : q ≠ p := hp ▸ hq
      by_cases hqt : q = slotOf (k.arg p 0)
      · -- a waiting target has been made ready
        rw [← hqt] at hx hwake
        have hst' : (k'.proctab q).state = (k.proctab q).state := by
          have := ((hx.sched q hqp).waiting hw).1
          rwa [Kernel.upd_proctab_self] at this
        have hr := hwake (by simpa [Pcb.waiting, hst'] using hw)
        exact absurd hw (by simp [Pcb.waiting, hr])
      · exact hother hx hqt hqp
  | openFirst _ hp _ hx => exact hother hx (hp ▸ hq) (hp ▸ hq)

end Xeros
