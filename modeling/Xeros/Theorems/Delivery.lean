import Xeros.Logic.SigStep

/-!
# When signals are delivered

Every signal that is pending, installed and above the priority of its process
is delivered before the process runs again, and wakes it if it waits. The signal
that is delivered is the highest of these as long as no pending signal loses its
handler.
-/

namespace Xeros

open Lib

/-! ## Nothing is due at `contextswitch` -/

/-- Nothing is due for the process on the processor and the processes that
wait. -/
structure Settled (s : Disp) : Prop extends Sound s where
  calm : ∀ q, q = s.p ∨ (s.k.proctab q).waiting → (s.k.proctab q).calm

/-- The masks decide whether anything is due. -/
theorem Pcb.SameSig.calm {c c' : Pcb} (h : c.SameSig c') (hc : c.calm) : c'.calm := by
  unfold Pcb.calm
  rw [h.sigPending, h.sigAllow, h.sigPriority]
  exact hc

theorem Booted.settled {s : Disp} (h : Booted s) : Settled s where
  toSound := h.sound
  calm q _ := by simp [Pcb.calm, h.sigPending]

/-- A turn keeps the processes settled: the one that runs next gets its signals,
the others waited with the same masks. -/
theorem Settled.turn {s s' : Disp} {t : Trap} (hs : Settled s) (h : turn s t = .ok s') :
    Settled s' := by
  refine ⟨hs.toSound.turn h, fun q hq => ?_⟩
  obtain ⟨k₂, hserved, -, hu, he⟩ := turn_served hs.toSound h
  by_cases hqp : q = s'.p
  · rw [he, hqp]
    exact loopTop_calm hu
  · have hw := hq.resolve_left hqp
    have hk : s'.k.proctab q = k₂.proctab q := by
      rw [he, loopTop_proctab hu, if_neg hqp]
    rw [hk] at hw ⊢
    obtain ⟨hsame, hst⟩ := hserved.waiting hqp hw
    refine hsame.sig.calm ?_
    rw [contextswitch_proctab] at hst ⊢
    split
    · rename_i hp
      simpa [Pcb.calm] using hs.calm s.p (.inl rfl)
    · rename_i hp
      rw [if_neg hp] at hst
      exact hs.calm q (.inr (by simpa [Pcb.waiting, (hst hp).1] using hw))

theorem settled_of_reachable {s : Disp} (h : dispatcher.Reachable s) : Settled s :=
  TSys.Inductive.holds
    ⟨fun _ h₀ => (booted_of_init h₀).settled, fun _ _ _ hs _ ht => hs.turn ht⟩ h

/-- At every call of `contextswitch`, no signal that is pending, installed and
above the priority is left for the process that is about to run or for one that
is blocked or asleep. -/
theorem no_signal_due_at_contextswitch {s : Disp} (h : dispatcher.Reachable s) (q : Slot)
    (hq : q = s.p ∨ (s.k.proctab q).state = .blocked ∨ (s.k.proctab q).state = .sleep) :
    (s.k.proctab q).sigPending &&& (s.k.proctab q).sigAllow
      &&& (s.k.proctab q).sigPriority = 0 :=
  (settled_of_reachable h).calm q hq

/-- A run in which the root process installs handlers for 5 and 7, creates process 3, posts 7
to itself, and from the handler posts 5 and waits for a signal. -/
def pausing₁ : Recorded := sampleStart.after (sampleInstall 5)

@[inherit_doc pausing₁]
def pausing₂ : Recorded := pausing₁.after (sampleInstall 7)

@[inherit_doc pausing₁]
def pausing₃ : Recorded := pausing₂.after (sampleCall .create [0x1400, 0])

@[inherit_doc pausing₁]
def pausing₄ : Recorded := pausing₃.after (samplePost 1 7)

@[inherit_doc pausing₁]
def pausing₅ : Recorded := pausing₄.after { samplePost 1 5 with esp := 0x4f000 }

@[inherit_doc pausing₁]
def pausing₆ : Recorded := pausing₅.after { sampleCall .sigwait [] with esp := 0x4f000 }

/-- It is blocked with both signals pending and installed, and neither is above the priority. -/
theorem no_signal_due_inside_handler : pausing₆.d.p = 3 ∧
    bits ((pausing₆.d.k.proctab 1).sigPending &&& (pausing₆.d.k.proctab 1).sigAllow) = {5, 7} ∧
    (pausing₆.d.k.proctab 1).sigPending &&& (pausing₆.d.k.proctab 1).sigAllow
      &&& (pausing₆.d.k.proctab 1).sigPriority = 0 := by
  have hok : (sampleStart.turn (sampleInstall 5)).isOk = true ∧
      (pausing₁.turn (sampleInstall 7)).isOk = true ∧
      (pausing₂.turn (sampleCall .create [0x1400, 0])).isOk = true ∧
      (pausing₃.turn (samplePost 1 7)).isOk = true ∧
      (pausing₄.turn { samplePost 1 5 with esp := 0x4f000 }).isOk = true ∧
      (pausing₅.turn { sampleCall .sigwait [] with esp := 0x4f000 }).isOk = true ∧
      pausing₆.d.p = 3 ∧ (pausing₆.d.k.proctab 1).state = .blocked ∧
      bits ((pausing₆.d.k.proctab 1).sigPending &&& (pausing₆.d.k.proctab 1).sigAllow)
        = {5, 7} := by decide +kernel
  obtain ⟨h₁, h₂, h₃, h₄, h₅, h₆, hp, hb, hheld⟩ := hok
  have hreach : recorder.Reachable pausing₆ := by
    refine Recorded.reachable_after ?_ trivial h₆
    refine Recorded.reachable_after ?_ trivial h₅
    refine Recorded.reachable_after ?_ trivial h₄
    refine Recorded.reachable_after ?_ trivial h₃
    refine Recorded.reachable_after ?_ trivial h₂
    exact Recorded.reachable_after sampleStart_reachable trivial h₁
  exact ⟨hp, hheld, no_signal_due_at_contextswitch
    (Recorded.reachable_d (C := TSys.anyStep) hreach) 1 (.inr (.inl hb))⟩

/-! ## Which signal is delivered -/

/-- What a step may not do: remove the handler of a pending signal, restore a mask
that shuts out a signal above one that it admits, or open device 0 in place of the
handler of signal 31. -/
structure KeepsHandlers (s : Disp) (t : Trap) : Prop where
  removed : t.cause.request = .sighandler → ∀ n, removedBy (contextswitch s.k s.p t) s.p = some n →
    n ∉ bits (s.k.proctab s.p).sigPending
  returned : t.cause.request = .sigreturn →
    UpSet 32 (bits ((contextswitch s.k s.p t).mem.word ((contextswitch s.k s.p t).arg s.p 0 - 8)))
  opened : t.cause.request = .openDev → ((s.k.proctab s.p).fd 0).status ≠ .opened →
    31 ∈ bits (s.k.proctab s.p).sigAllow → (contextswitch s.k s.p t).arg s.p 0 ≠ 0

/-- What is pending is installed, what is installed has a handler, and the priority
admits the higher signals with every one it admits. -/
def Handled : SigPred := fun c _ _ =>
  bits c.sigPending ⊆ bits c.sigAllow ∧ UpSet 32 (bits c.sigPriority) ∧
    ∀ n ∈ bits c.sigAllow, c.handler n ≠ 0

theorem handled_stable : Handled.Stable where
  same c c' fs l h hj := by
    obtain ⟨h₁, h₂, h₃⟩ := hj
    refine ⟨h.sigPending ▸ h.sigAllow ▸ h₁, h.sigPriority ▸ h₂, fun n hn => ?_⟩
    rw [h.handler]
    exact h₃ n (h.sigAllow ▸ hn)
  deliver k q fs l hd hj := by
    obtain ⟨h₁, h₂, h₃⟩ := hj
    obtain ⟨m, hlt, hm, -, -⟩ := deliver_greatest hd h₂
    have hmask : (k.proctab q).deliver.sigPriority = getPriorityMask m := by rw [← hm]; rfl
    refine ⟨h₁, ?_, h₃⟩
    rw [hmask, bits_getPriorityMask hlt]
    exact .Ico _

/-- Serving a request keeps the pending signals of `q` handled. -/
theorem SigStep.handled {s : Disp} {t : Trap} {k₂ : Kernel} {h h₂ : History} {q : Slot}
    (hc : KeepsHandlers s t)
    (hs : SigStep (contextswitch s.k s.p t) h s.p t.ambient t.cause.request k₂ h₂ q)
    (hj : Handled ((contextswitch s.k s.p t).proctab q) (h.frames q) (h.log q)) :
    Handled (k₂.proctab q) (h₂.frames q) (h₂.log q) := by
  have hsig := contextswitch_sig s.k s.p q t
  have hfd : ((contextswitch s.k s.p t).proctab s.p).fd 0 = (s.k.proctab s.p).fd 0 := by
    rw [contextswitch_proctab, if_pos rfl]
    cases t.cause <;> rfl
  obtain ⟨h₁, h₂, h₃⟩ := hj
  cases hs with
  | same hsig => exact handled_stable.same _ _ _ _ hsig ⟨h₁, h₂, h₃⟩
  | stopped _ _ hsig => exact handled_stable.same _ _ _ _ hsig ⟨h₁, h₂, h₃⟩
  | renewed _ _ hsig =>
      -- only the priority is reset, to all signals
      refine handled_stable.same _ _ _ _ hsig ⟨h₁, ?_, h₃⟩
      rw [Pcb.renew_sigPriority, bits_neg_one]
      exact .range
  | installed _ _ fp _ n hn _ h0 hsig =>
      refine handled_stable.same _ _ _ _ hsig ⟨?_, ?_, fun m hm => ?_⟩
      · rw [(Pcb.install_masks _ n fp).1, Pcb.install_allow _ hn h0]
        exact h₁.trans Finset.subset_union_left
      · rw [(Pcb.install_masks _ n fp).2]
        exact h₂
      · rw [Pcb.install_handler _ (lt_of_mem_bits hm) hn]
        rw [Pcb.install_allow _ hn h0, Finset.mem_union, Finset.mem_singleton] at hm
        split
        · exact h0
        · rename_i hne
          exact h₃ m (hm.resolve_right hne)
  | removed hreq hq hfp n hn hnum hsig' =>
      subst hq
      refine handled_stable.same _ _ _ _ hsig' ⟨?_, ?_, fun m hm => ?_⟩
      · rw [(Pcb.install_masks _ n 0).1, Pcb.remove_allow _ hn]
        have hrem : removedBy (contextswitch s.k s.p t) s.p = some n := by
          unfold removedBy
          rw [if_pos ⟨by omega, by have : maxSignal = 31 := rfl; omega, hfp⟩, hnum,
            Int.toNat_natCast]
        refine fun m hm => Finset.mem_sdiff.mpr ⟨h₁ hm, fun hmn => ?_⟩
        rw [Finset.mem_singleton.mp hmn, hsig.sigPending] at hm
        exact hc.removed hreq n hrem hm
      · rw [(Pcb.install_masks _ n 0).2]
        exact h₂
      · rw [Pcb.install_handler _ (lt_of_mem_bits hm) hn]
        rw [Pcb.remove_allow _ hn, Finset.mem_sdiff, Finset.mem_singleton] at hm
        rw [if_neg hm.2]
        exact h₃ m hm.1
  | returned hreq hq hk =>
      subst hq
      obtain ⟨hm₁, hm₂, -⟩ := Pcb.sigreturn_masks ((contextswitch s.k s.p t).proctab s.p)
        (contextswitch s.k s.p t).mem t.ambient.sig ((contextswitch s.k s.p t).arg s.p 0)
      obtain ⟨hh₁, hh₂⟩ := Pcb.sigreturn_handlers ((contextswitch s.k s.p t).proctab s.p)
        (contextswitch s.k s.p t).mem t.ambient.sig ((contextswitch s.k s.p t).arg s.p 0)
      rw [← hk] at hm₁ hm₂ hh₁ hh₂
      refine ⟨?_, hm₂ ▸ hc.returned hreq, fun n hn => ?_⟩
      · rw [hm₁, hh₁, bits_and_not]
        exact Finset.sdiff_subset.trans h₁
      · rw [hh₂]
        exact h₃ n (hh₁ ▸ hn)
  | posted _ hq n _ hacc hsig' =>
      refine handled_stable.same _ _ _ _ hsig' ⟨?_, h₂, h₃⟩
      rw [Pcb.pend_sigPending, Pcb.pend_sigAllow, bits_or, bits_bit]
      refine Finset.union_subset h₁ (Finset.singleton_subset_iff.mpr ?_)
      rw [mem_bits_iff_and_bit, BitVec.and_comm, hq, ← toWord_toInt ((contextswitch s.k s.p t).arg
        s.p 0)]
      exact hacc.2.2
  | opened hreq hq hcl hsig' =>
      subst hq
      refine handled_stable.same _ _ _ _ hsig' ⟨h₁, h₂, fun n hn => ?_⟩
      by_cases hn31 : n < 31
      · have := h₃ n hn
        unfold Pcb.handler at this ⊢
        simpa [hn31, Pcb.openFirst, Pcb.setFd] using this
      · -- the word of signal 31 is the major number of the device
        have h31 : n = 31 := by
          have := lt_of_mem_bits hn
          omega
        subst h31
        have h0 := hc.opened hreq (hfd ▸ hcl) (hsig.sigAllow ▸ hn)
        unfold Pcb.handler
        simpa [Pcb.openFirst, Pcb.setFd] using h0

/-- The signal that `deliver_signals_ifany` picks is the highest one that is pending,
installed and above the priority, and it has a handler. -/
def PicksHighestDue (c : Pcb) : Prop :=
  IsGreatest (bits (c.sigPending &&& c.sigAllow &&& c.sigPriority) : Set ℕ)
      (getNextSignal c.sigPending).toNat
    ∧ c.handler (getNextSignal c.sigPending) ≠ 0

/-- In a run whose steps keep the handlers of pending signals, the signal for which
a frame is built is the highest one that is pending, installed and above the
priority, and it has a handler. -/
theorem delivered_signal_is_highest_due {s : Disp} {t : Trap} {k' : Kernel} {p' : Slot}
    (h : dispatcher.ReachableUnder KeepsHandlers s) (hc : KeepsHandlers s t)
    (hs : serve (contextswitch s.k s.p t) s.p t.ambient t.cause.request = .ok (k', p'))
    (hd : deliverable ((run k' p').proctab p')) : PicksHighestDue ((run k' p').proctab p') := by
  obtain ⟨r, rfl, hr⟩ := Recorded.reachable_of_d h
  have hj : Handled.At p' r := by
    refine signal_invariant handled_stable ?_ (fun s t k₂ h₂ s' _ hc _ hj hs => ?_) hr
    · intro d hd
      refine ⟨by rw [hd.sigPending, bits_zero]; exact Finset.empty_subset _, ?_,
        by simp [hd.sigAllow]⟩
      rw [hd.sigPriority]
      split
      · rw [bits_neg_one]
        exact .range
      · simp [UpSet]
    · exact hs.handled hc hj
  -- the request of this turn
  have hsound := Recorded.sound_of_reachable hr.reachable
  have hg := contextswitch_good hsound.good hsound.used t
  have hu := contextswitch_used (p := r.d.p) hsound.used t
  have hstep := (serve_served hg hu hs).1.sigStep (h := r.h) hs p'
  obtain ⟨h₁, h₂, h₃⟩ := handled_stable.same _ _ [] [] (Pcb.setState_sig _ .running)
    (hstep.handled hc (handled_stable.same _ _ _ _ (contextswitch_sig _ _ _ _) hj))
  have hrun : (run k' p').proctab p' = (k'.proctab p').setState .running := by simp [run]
  rw [hrun] at hd ⊢
  obtain ⟨m, hlt, hm, hgr, hmem⟩ := deliver_greatest hd h₂
  unfold PicksHighestDue
  rw [hm, Int.toNat_natCast, bits_and, bits_and]
  have hallow := h₁ (Finset.mem_coe.mp hgr.1)
  refine ⟨greatest_of_subset hgr ?_ ?_, h₃ m hallow⟩
  · exact Finset.inter_subset_left.trans Finset.inter_subset_left
  · exact Finset.mem_inter.mpr ⟨Finset.mem_inter.mpr ⟨Finset.mem_coe.mp hgr.1, hallow⟩, hmem⟩

/-- A run of the root process: it installs handlers for 9, 7 and 3, posts 9 to itself,
posts 7 from the handler, where it waits, removes the handler for 7 and returns. -/
def removal₁ : Recorded := sampleStart.after (sampleInstall 9)

@[inherit_doc removal₁]
def removal₂ : Recorded := removal₁.after (sampleInstall 7)

@[inherit_doc removal₁]
def removal₃ : Recorded := removal₂.after (sampleInstall 3)

@[inherit_doc removal₁]
def removal₄ : Recorded := removal₃.after (samplePost 1 9)

@[inherit_doc removal₁]
def removal₅ : Recorded := removal₄.after { samplePost 1 7 with esp := 0x4f000 }

@[inherit_doc removal₁]
def removal₆ : Recorded := removal₅.after { sampleRemove 7 with esp := 0x4f000 }

@[inherit_doc removal₁]
def removal₇ : Recorded := removal₆.after (sampleReturn 0x50000)

/-- The installation of a handler meets the condition. -/
theorem KeepsHandlers.of_install {s : Disp} {t : Trap} (hreq : t.cause.request = .sighandler)
    (h : removedBy (contextswitch s.k s.p t) s.p = none) : KeepsHandlers s t where
  removed _ n hn := by
    rw [h] at hn
    cases hn
  returned hr := by
    rw [hreq] at hr
    cases hr
  opened hr := by
    rw [hreq] at hr
    cases hr

/-- A post meets the condition. -/
theorem KeepsHandlers.of_post {s : Disp} {t : Trap} (hreq : t.cause.request = .sigkill) :
    KeepsHandlers s t := by
  constructor <;> (intro hr; rw [hreq] at hr; cases hr)

/-- Every turn of the run comes back, and the first three remove no handler. -/
theorem removal_turns :
    ((sampleStart.turn (sampleInstall 9)).isOk = true ∧
      (removal₁.turn (sampleInstall 7)).isOk = true ∧
      (removal₂.turn (sampleInstall 3)).isOk = true ∧
      (removal₃.turn (samplePost 1 9)).isOk = true ∧
      (removal₄.turn { samplePost 1 7 with esp := 0x4f000 }).isOk = true ∧
      (removal₅.turn { sampleRemove 7 with esp := 0x4f000 }).isOk = true ∧
      (removal₆.turn (sampleReturn 0x50000)).isOk = true) ∧
    removedBy (contextswitch sampleStart.d.k sampleStart.d.p (sampleInstall 9)) sampleStart.d.p
      = none ∧
    removedBy (contextswitch removal₁.d.k removal₁.d.p (sampleInstall 7)) removal₁.d.p = none ∧
    removedBy (contextswitch removal₂.d.k removal₂.d.p (sampleInstall 3)) removal₂.d.p = none := by
  refine ⟨⟨?_, ?_, ?_, ?_, ?_, ?_, ?_⟩, ?_, ?_, ?_⟩ <;> decide +kernel

theorem removal₃_reachable :
    recorder.ReachableUnder (fun s t => KeepsHandlers s.d t) removal₃ := by
  obtain ⟨⟨h₁, h₂, h₃, -⟩, hn₁, hn₂, hn₃⟩ := removal_turns
  refine Recorded.reachable_after ?_ (.of_install rfl hn₃) h₃
  refine Recorded.reachable_after ?_ (.of_install rfl hn₂) h₂
  exact Recorded.reachable_after sampleStart_reachable (.of_install rfl hn₁) h₁

theorem removal₇_reachable : recorder.Reachable removal₇ := by
  obtain ⟨⟨-, -, -, h₄, h₅, h₆, h₇⟩, -⟩ := removal_turns
  refine Recorded.reachable_after ?_ trivial h₇
  refine Recorded.reachable_after ?_ trivial h₆
  refine Recorded.reachable_after ?_ trivial h₅
  refine Recorded.reachable_after ?_ trivial h₄
  exact removal₃_reachable.reachable

/-- The request of a trap, served in a state. -/
def Recorded.servedBy (s : Recorded) (t : Trap) : Run (Kernel × Slot) :=
  serve (contextswitch s.d.k s.d.p t) s.d.p t.ambient t.cause.request

/-- The post of 9 while all handlers are installed. -/
def posted₉ : Kernel × Slot := (removal₃.servedBy (samplePost 1 9)).getD (removal₃.d.k, 1)

/-- The signal picked is 9. -/
theorem delivered_signal_nine : PicksHighestDue ((run posted₉.1 posted₉.2).proctab posted₉.2) := by
  have hs : removal₃.servedBy (samplePost 1 9) = .ok posted₉ := Run.eq_getD (by decide +kernel)
  have hd : deliverable ((run posted₉.1 posted₉.2).proctab posted₉.2) := by decide +kernel
  have hc : KeepsHandlers removal₃.d (samplePost 1 9) := .of_post rfl
  revert hs hd
  generalize posted₉ = served
  intro hs hd
  exact delivered_signal_is_highest_due (Recorded.reachable_d removal₃_reachable) hc hs hd

/-- The post of 3 after the handler for 7 has been removed while 7 is pending. -/
def posted₃ : Kernel × Slot := (removal₇.servedBy (samplePost 1 3)).getD (removal₇.d.k, 1)

/-- A frame is built for 7, which enters address 0. -/
theorem delivered_signal_without_handler :
    ¬ ∀ (s : Disp) (t : Trap) (k' : Kernel) (p' : Slot), dispatcher.Reachable s →
      serve (contextswitch s.k s.p t) s.p t.ambient t.cause.request = .ok (k', p') →
      deliverable ((run k' p').proctab p') → PicksHighestDue ((run k' p').proctab p') := by
  intro h
  have hs : removal₇.servedBy (samplePost 1 3) = .ok posted₃ := Run.eq_getD (by decide +kernel)
  have hd : deliverable ((run posted₃.1 posted₃.2).proctab posted₃.2) := by decide +kernel
  have h0 : ((run posted₃.1 posted₃.2).proctab posted₃.2).handler
      (getNextSignal ((run posted₃.1 posted₃.2).proctab posted₃.2).sigPending) = 0 := by
    decide +kernel
  have hr : dispatcher.Reachable removal₇.d := Recorded.reachable_d removal₇_reachable
  revert hs hd h0
  generalize posted₃ = served
  intro hs hd h0
  exact (h removal₇.d (samplePost 1 3) served.1 served.2 hr hs hd).2 h0

end Xeros
