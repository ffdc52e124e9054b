import Xeros.Logic.History

/-!
# One turn and the signals of one process

`SigStep` lists what serving a request can do to the masks, the frames and the
events of a process `q`; the end of a turn may add a delivery. An invariant of
the signals of one process is proved by cases on it, through `signal_invariant`.
-/

namespace Xeros

open Lib

/-- The same pid, masks and handlers. -/
structure Pcb.SameSig (c c' : Pcb) : Prop where
  pid : c'.pid = c.pid
  sigPending : c'.sigPending = c.sigPending
  sigAllow : c'.sigAllow = c.sigAllow
  sigPriority : c'.sigPriority = c.sigPriority
  handler : ∀ n, c'.handler n = c.handler n

theorem Pcb.Same.sig {c c' : Pcb} (h : c.Same c') : c.SameSig c' :=
  ⟨h.pid, h.sigPending, h.sigAllow, h.sigPriority, h.handler⟩

theorem Pcb.enter_sig (c : Pcb) (esp : Word) (cause : Cause) :
    c.SameSig (c.enter esp cause) := by
  constructor <;> simp

theorem Pcb.setState_sig (c : Pcb) (st : PState) : c.SameSig (c.setState st) :=
  ⟨rfl, rfl, rfl, rfl, fun _ => rfl⟩

/-- The masks and handlers of a process do not change when it runs. -/
theorem contextswitch_sig (k : Kernel) (p q : Slot) (t : Trap) :
    (k.proctab q).SameSig ((contextswitch k p t).proctab q) := by
  rw [contextswitch_proctab]
  split
  · rename_i h
    exact h ▸ Pcb.enter_sig _ _ _
  · exact ⟨rfl, rfl, rfl, rfl, fun _ => rfl⟩

/-- What serving a request of `p` can do to the signals of `q`. -/
inductive SigStep (k : Kernel) (h : History) (p : Slot) (a : Ambient) (req : Request)
    (k' : Kernel) (h' : History) (q : Slot) : Prop
  | same (hc : (k.proctab q).SameSig (k'.proctab q)) (hf : h'.frames q = h.frames q)
      (hl : h'.log q = h.log q)
  | stopped (hreq : req = .stop) (hq : q = p) (hc : (k.proctab q).SameSig (k'.proctab q))
      (hf : h'.frames q = h.frames q) (hl : h'.log q = .stopped :: h.log q)
  | renewed (hreq : req = .create) (hq : freeSlot k = some q)
      (hc : ((k.proctab q).renew q).SameSig (k'.proctab q)) (hf : h'.frames q = [])
      (hl : h'.log q = h.log q)
  | installed (hreq : req = .sighandler) (hq : q = p) (fp : Word) (hfp : fp = k.arg p 1)
      (n : ℕ) (hn : n < 32) (hsig : (k.arg p 0).toInt = n) (h0 : fp ≠ 0)
      (hc : ((k.proctab q).install n fp).SameSig (k'.proctab q))
      (hf : h'.frames q = h.frames q) (hl : h'.log q = h.log q)
  | removed (hreq : req = .sighandler) (hq : q = p) (hfp : k.arg p 1 = 0)
      (n : ℕ) (hn : n < 32) (hsig : (k.arg p 0).toInt = n)
      (hc : ((k.proctab q).install n 0).SameSig (k'.proctab q))
      (hf : h'.frames q = h.frames q) (hl : h'.log q = .removed n :: h.log q)
  | returned (hreq : req = .sigreturn) (hq : q = p)
      (hc : k'.proctab q = (k.proctab q).sigreturn k.mem a.sig (k.arg p 0))
      (hf : h'.frames q = (h.frames q).tail)
      (hl : h'.log q = match h.frames q with
        | f :: _ => .completed f.signum :: h.log q
        | [] => h.log q)
  | posted (hreq : req = .sigkill) (hq : q = slotOf (k.arg p 0)) (n : Int)
      (hn : n = (k.arg p 1).toInt) (hacc : accepts k (k.arg p 0).toInt n)
      (hc : ((k.proctab q).pend n).SameSig (k'.proctab q))
      (hf : h'.frames q = h.frames q) (hl : h'.log q = .posted (sigNo n) :: h.log q)
  | opened (hreq : req = .openDev) (hq : q = p) (hfd : ((k.proctab p).fd 0).status ≠ .opened)
      (hc : ((k.proctab q).openFirst (k.arg p 0)).SameSig (k'.proctab q))
      (hf : h'.frames q = h.frames q) (hl : h'.log q = h.log q)

/-! ## What is noted -/

variable {k k' : Kernel} {h : History} {p p' q : Slot} {a : Ambient} {req : Request}

@[simp] theorem History.note_log_self (h : History) (q : Slot) (e : SigEvent) :
    (h.note q e).log q = e :: h.log q := by simp

@[simp] theorem History.note_log_ne (h : History) (e : SigEvent) (hq : q ≠ p) :
    (h.note p e).log q = h.log q := by simp [hq]

/-- A `SYS_SIGKILL` that is served posts when the target accepts. -/
theorem postedBy_eq (hs : serve k p a .sigkill = .ok (k', p')) :
    postedBy k p a =
      if accepts k (k.arg p 0).toInt (k.arg p 1).toInt then
        some (slotOf (k.arg p 0), sigNo (k.arg p 1).toInt) else none := by
  simp only [serve, Run.bind_eq_ok] at hs
  obtain ⟨k₁, h₁, -⟩ := hs
  unfold postedBy
  rw [signal_eq, toWord_toInt]
  rcases sysSigkill_cases h₁ with ⟨hacc, k₂, h₂, -⟩ | ⟨hacc, -⟩
  · rw [if_pos hacc, if_pos hacc, h₂]
    simp [Except.map]
  · rw [if_neg hacc, if_neg hacc]
    rfl

/-- What is done when `SYS_SIGKILL` posts: the bit is noted, a waiting target is woken, and
the caller gets `SIGHDLR_OK`. -/
theorem serve_posts {m : ℕ} (hs : serve k p a .sigkill = .ok (k', p'))
    (hm : postedBy k p a = some (q, m)) :
    accepts k (k.arg p 0).toInt (k.arg p 1).toInt ∧ q = slotOf (k.arg p 0) ∧
      m = sigNo (k.arg p 1).toInt ∧
        ∃ k₁, post k q (k.arg p 1).toInt = .ok k₁ ∧ k' = k₁.setRet p (toWord sighdlrOk) := by
  rw [postedBy_eq hs] at hm
  split at hm
  · rename_i hacc
    obtain ⟨rfl, rfl⟩ := Prod.mk.inj (Option.some.inj hm)
    simp only [serve, Run.bind_eq_ok, pure, Except.pure, Except.ok.injEq, Prod.mk.injEq] at hs
    obtain ⟨k₂, h₂, rfl, -⟩ := hs
    rcases sysSigkill_cases h₂ with ⟨-, hpost⟩ | ⟨hno, -⟩
    · exact ⟨hacc, rfl, rfl, hpost⟩
    · exact absurd hacc hno
  · cases hm

/-- Nothing is noted of the signals for a silent request, except that the process
stops. -/
theorem History.served_silent (hs : serve k p a req = .ok (k', p')) (hreq : Silent k p req) :
    h.served k p a req = if req = .stop then h.note p .stopped else h := by
  cases req with
  | create =>
      have hf : freeSlot k = none := hreq
      simp [served, hf]
  | sighandler =>
      have hr : removedBy k p = none := by
        have hn : ¬ (0 ≤ (k.arg p 0).toInt ∧ (k.arg p 0).toInt ≤ maxSignal) := hreq
        unfold removedBy
        exact if_neg fun h => hn ⟨h.1, h.2.1⟩
      simp [served, hr]
  | sigreturn => exact hreq.elim
  | sigkill =>
      have hp : postedBy k p a = none := by
        rw [postedBy_eq hs]
        exact if_neg hreq
      simp [served, hp]
  | _ => rfl

/-- The inversion of a served request, for the signals of one process. -/
theorem Served.sigStep (hserve : serve k p a req = .ok (k', p'))
    (hs : Served k p a req k' p') (q : Slot) :
    SigStep k h p a req k' (h.served k p a req) q := by
  -- `q` is not the slot that is told apart
  have hother : ∀ {i : Slot} {f : Pcb → Pcb}, Quiet (· = p) (k.upd i f) k' → q ≠ i →
      (h.served k p a req).frames q = h.frames q → (h.served k p a req).log q = h.log q →
      SigStep k h p a req k' (h.served k p a req) q := by
    intro i f hx hi hf hl
    have hc := hx.same q
    rw [Kernel.upd_proctab_ne _ _ _ hi] at hc
    exact .same hc.sig hf hl
  have hself : ∀ {i : Slot} {f : Pcb → Pcb}, Quiet (· = p) (k.upd i f) k' →
      (f (k.proctab i)).SameSig (k'.proctab i) := by
    intro i f hx
    have hc := hx.same i
    rw [Kernel.upd_proctab_self] at hc
    exact hc.sig
  cases hs with
  | quiet hreq hx =>
      rw [History.served_silent hserve hreq]
      by_cases hst : req = .stop
      · rw [if_pos hst]
        by_cases hq : q = p
        · exact .stopped hst hq (hx.same q).sig (by simp) (by simp [hq])
        · exact .same (hx.same q).sig (by simp) (by simp [hq])
      · rw [if_neg hst]
        exact .same (hx.same q).sig rfl rfl
  | create hreq _ i esp hi hx =>
      subst hreq
      have hh : h.served k p a .create = h.setFrames i [] := by simp [History.served, hi]
      by_cases hq : q = i
      · subst hq
        refine .renewed rfl hi ?_ (by simp [hh]) (by simp [hh])
        obtain ⟨h₁, h₂, h₃, h₄, h₅⟩ := hself hx
        exact ⟨h₁, h₂, h₃, h₄, h₅⟩
      · exact hother hx hq (by simp [hh, hq]) (by simp [hh])
  | install hreq _ hn hx =>
      subst hreq
      obtain ⟨n, hn'⟩ := Int.eq_ofNat_of_zero_le hn.1
      have hlt : n < 32 := by
        have : maxSignal = 31 := rfl
        omega
      by_cases hq : q = p
      · subst hq
        have hc := hself hx
        rw [hn'] at hc
        by_cases h0 : k.arg q 1 = 0
        · have hr : removedBy k q = some n := by
            unfold removedBy
            rw [if_pos ⟨hn.1, hn.2, h0⟩, hn', Int.toNat_natCast]
          rw [h0] at hc
          exact .removed rfl rfl h0 n hlt hn' hc (by simp [History.served, hr])
            (by simp [History.served, hr])
        · have hr : removedBy k q = none := by
            unfold removedBy
            exact if_neg fun h => h0 h.2.2
          exact .installed rfl rfl _ rfl n hlt hn' h0 hc (by simp [History.served, hr])
            (by simp [History.served, hr])
      · refine hother hx hq ?_ ?_
        · unfold History.served
          dsimp only
          split <;> simp
        · unfold History.served
          dsimp only
          split <;> simp [hq]
  | sigreturn hreq _ hk =>
      subst hreq
      have hh : h.served k p a .sigreturn = match h.frames p with
        | f :: fs => (h.setFrames p fs).note p (.completed f.signum)
        | [] => h := rfl
      by_cases hq : q = p
      · subst hq
        have hc : k'.proctab q = (k.proctab q).sigreturn k.mem a.sig (k.arg q 0) := by
          rw [hk, sysSigreturn, Kernel.upd_proctab_self]
        cases hfs : h.frames q with
        | nil => exact .returned rfl rfl hc (by simp [hh, hfs]) (by simp [hh, hfs])
        | cons f fs => exact .returned rfl rfl hc (by simp [hh, hfs]) (by simp [hh, hfs])
      · have hc : k'.proctab q = k.proctab q := by
          rw [hk, sysSigreturn, Kernel.upd_proctab_ne _ _ _ hq]
        refine .same (hc ▸ (Pcb.Same.refl _).sig) ?_ ?_
        · rw [hh]
          split <;> simp [hq]
        · rw [hh]
          split <;> simp [hq]
  | post hreq _ hacc hx _ =>
      subst hreq
      have hh : h.served k p a .sigkill
          = h.note (slotOf (k.arg p 0)) (.posted (sigNo (k.arg p 1).toInt)) := by
        simp [History.served, postedBy_eq hserve, hacc]
      by_cases hq : q = slotOf (k.arg p 0)
      · exact .posted rfl hq _ rfl hacc (hq ▸ hself hx) (by simp [hh]) (by simp [hh, hq])
      · exact hother hx hq (by simp [hh]) (by simp [hh, hq])
  | openFirst hreq _ hfd hx =>
      subst hreq
      by_cases hq : q = p
      · exact .opened rfl hq hfd (hq ▸ hself hx) rfl rfl
      · exact hother hx hq rfl rfl

/-! ## A turn -/

/-- The frame that is built is that of a delivery of the pcb. -/
theorem frameOf_signum (k : Kernel) (p : Slot) :
    (frameOf k p).signum = (getNextSignal (k.proctab p).sigPending).toNat := rfl

/-- The end of a turn delivers a signal to the process that runs next, or leaves
the signals of `q` as they were. -/
theorem Turn.delivery {s s' : Recorded} {t : Trap} {k₂ : Kernel} {h₂ : History}
    (ht : Turn s t k₂ h₂ s') (q : Slot) :
    (q = s'.d.p ∧ deliverable (k₂.proctab q)
      ∧ (k₂.proctab q).deliver.SameSig (s'.d.k.proctab q)
      ∧ s'.h.frames q = frameOf (run k₂ q) q :: h₂.frames q
      ∧ s'.h.log q = .started (frameOf (run k₂ q) q).signum :: h₂.log q) ∨
    (¬ (q = s'.d.p ∧ deliverable (k₂.proctab q)) ∧ (k₂.proctab q).SameSig (s'.d.k.proctab q)
      ∧ s'.h.frames q = h₂.frames q ∧ s'.h.log q = h₂.log q) := by
  have hk := loopTop_proctab ht.used q
  rw [← ht.loopTop] at hk
  have hrun : deliverable ((run k₂ s'.d.p).proctab s'.d.p) ↔ deliverable (k₂.proctab s'.d.p) := by
    simp only [run, Kernel.setRunning_proctab, Kernel.upd_proctab_self]
    rfl
  by_cases hq : q = s'.d.p
  · subst hq
    rw [if_pos rfl] at hk
    by_cases hd : deliverable (k₂.proctab s'.d.p)
    · refine .inl ⟨rfl, hd, ?_, ?_, ?_⟩
      · rw [hk, if_pos hd]
        exact ⟨rfl, rfl, rfl, rfl, fun _ => rfl⟩
      · rw [ht.delivered]
        simp [History.deliver, hrun, hd]
      · rw [ht.delivered]
        simp [History.deliver, hrun, hd]
    · refine .inr ⟨fun h => hd h.2, ?_, ?_, ?_⟩
      · rw [hk, if_neg hd]
        exact Pcb.setState_sig _ _
      · rw [ht.delivered]
        simp [History.deliver, hrun, hd]
      · rw [ht.delivered]
        simp [History.deliver, hrun, hd]
  · refine .inr ⟨fun h => hq h.1, ?_, ?_, ?_⟩
    · rw [hk, if_neg hq]
      exact (Pcb.Same.refl _).sig
    · rw [ht.delivered]
      unfold History.deliver
      split <;> simp [hq]
    · rw [ht.delivered]
      unfold History.deliver
      split <;> simp [hq]

/-- A predicate on the signals of `q`. -/
abbrev SigPred := Pcb → List SigFrame → List SigEvent → Prop

/-- The predicate `J` holds of the signals of `q`. -/
def SigPred.At (J : SigPred) (q : Slot) (s : Recorded) : Prop :=
  J (s.d.k.proctab q) (s.h.frames q) (s.h.log q)

/-- A predicate of the masks, frames and events, kept by a delivery. -/
structure SigPred.Stable (J : SigPred) : Prop where
  same : ∀ c c' fs l, c.SameSig c' → J c fs l → J c' fs l
  deliver : ∀ k q fs l, deliverable (k.proctab q) → J (k.proctab q) fs l →
    J (k.proctab q).deliver (frameOf k q :: fs) (.started (frameOf k q).signum :: l)

/-- A turn keeps a stable predicate of the signals of `q` if serving the request
does. -/
theorem Turn.keeps {J : SigPred} (hJ : J.Stable) {s s' : Recorded} {t : Trap} {k₂ : Kernel}
    {h₂ : History} (ht : Turn s t k₂ h₂ s') {q : Slot} (hj : J.At q s)
    (hstep : J ((contextswitch s.d.k s.d.p t).proctab q) (s.h.frames q) (s.h.log q) →
      SigStep (contextswitch s.d.k s.d.p t) (s.h.setCall s.d.p t.cause.call) s.d.p t.ambient
        t.cause.request k₂ h₂ q → J (k₂.proctab q) (h₂.frames q) (h₂.log q)) :
    J.At q s' := by
  have h₁ := hJ.same _ _ _ _ (contextswitch_sig s.d.k s.d.p q t) hj
  have hsig := ht.served.sigStep (h := s.h.setCall s.d.p t.cause.call) ht.serve q
  rw [← ht.noted] at hsig
  have h₂ := hstep h₁ hsig
  rcases ht.delivery q with ⟨-, hd, hc, hf, hl⟩ | ⟨-, hc, hf, hl⟩
  · -- the frame is built when the process is running already
    have hr : ((run k₂ q).proctab q) = (k₂.proctab q).setState .running := by simp [run]
    have h₃ := hJ.deliver (run k₂ q) q _ _ (hr ▸ hd)
      (hJ.same _ _ _ _ (hr ▸ Pcb.setState_sig _ _) h₂)
    unfold SigPred.At
    rw [hf, hl]
    refine hJ.same _ _ _ _ ?_ h₃
    rw [hr]
    exact ⟨hc.pid, hc.sigPending, hc.sigAllow, hc.sigPriority, hc.handler⟩
  · unfold SigPred.At
    rw [hf, hl]
    exact hJ.same _ _ _ _ hc h₂

/-- A stable predicate of the signals of `q` that holds at boot and is kept by
every request holds in every state that is reached. -/
theorem signal_invariant {J : SigPred} (hJ : J.Stable) {C : Recorded → Trap → Prop} {q : Slot}
    (hboot : ∀ d, Booted d → J (d.k.proctab q) [] [])
    (hstep : ∀ s t k₂ h₂ s', Sound s.d → C s t → Turn s t k₂ h₂ s' →
      J ((contextswitch s.d.k s.d.p t).proctab q) (s.h.frames q) (s.h.log q) →
      SigStep (contextswitch s.d.k s.d.p t) (s.h.setCall s.d.p t.cause.call) s.d.p t.ambient
        t.cause.request k₂ h₂ q → J (k₂.proctab q) (h₂.frames q) (h₂.log q))
    {s : Recorded} (h : recorder.ReachableUnder C s) : J.At q s := by
  have hinv : recorder.Inductive C fun s => Sound s.d ∧ J.At q s := by
    constructor
    · rintro s ⟨h₀, hh⟩
      have hb := booted_of_init h₀
      refine ⟨hb.sound, ?_⟩
      unfold SigPred.At
      rw [hh]
      exact hboot _ hb
    · rintro s t s' ⟨hs, hj⟩ hc hst
      obtain ⟨k₂, h₂, ht⟩ := Recorded.turn_cases hs hst
      exact ⟨hs.turn (Recorded.turn_d hst), ht.keeps hJ hj (hstep _ _ _ _ _ hs hc ht)⟩
  exact (hinv.holds h).2

end Xeros
