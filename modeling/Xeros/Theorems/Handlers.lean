import Xeros.Logic.Nested

/-!
# Handlers and what their return does

How the handlers in progress nest, which pending bit a return clears, and what
becomes of a signal that has been accepted.
-/

namespace Xeros

open Lib

/-! ## Nesting -/

/-- In a run in which `q` returns from its handlers properly, the handlers in
progress of `q` have strictly rising signals, the priority mask is that of the
innermost one, and returning from it restores the stack pointer and the mask. -/
theorem handlers_nest {q : Slot} {s : Recorded}
    (h : recorder.ReachableUnder (ReturnsProperly q) s) (hq : s.d.k.Used q) :
    ((s.h.frames q).map SigFrame.signum).reverse.Pairwise (· < ·) ∧
    (s.d.k.proctab q).sigPriority = (match s.h.frames q with
      | [] => -1
      | f :: _ => getPriorityMask f.signum) ∧
    ∀ (t : Trap) (f : SigFrame) (fs : List SigFrame) (k' : Kernel) (p' : Slot), s.d.p = q →
      s.h.frames q = f :: fs → f.ReturnedBy (contextswitch s.d.k q t) q →
      serve (contextswitch s.d.k q t) q t.ambient .sigreturn = .ok (k', p') →
      (k'.proctab q).esp = f.esp ∧ (k'.proctab q).sigPriority = f.priority := by
  obtain ⟨hpri, hnest, -⟩ := nested_of_reachable h hq.pid_ne_zero
  refine ⟨?_, ?_, ?_⟩
  · rw [List.pairwise_reverse]
    exact hnest.pairwise
  · rw [hpri]
    cases s.h.frames q <;> rfl
  · intro t f fs k' p' _ hfs hr hs
    simp only [serve, pure, Except.pure, Except.ok.injEq, Prod.mk.injEq] at hs
    rw [hfs] at hnest
    rw [← hs.1, sysSigreturn, Kernel.upd_proctab_self]
    exact hnest.sigreturn hr _

/-- A run of the root process: it installs handlers for 5 and 7, posts 5 to itself
and posts 7 from the handler. -/
def nesting₁ : Recorded := sampleStart.after (sampleInstall 5)

@[inherit_doc nesting₁]
def nesting₂ : Recorded := nesting₁.after (sampleInstall 7)

@[inherit_doc nesting₁]
def nesting₃ : Recorded := nesting₂.after (samplePost 1 5)

@[inherit_doc nesting₁]
def nesting₄ : Recorded := nesting₃.after { samplePost 1 7 with esp := 0x4f000 }

theorem nesting₄_reachable : recorder.ReachableUnder (ReturnsProperly 1) nesting₄ := by
  refine Recorded.reachable_after ?_ (.of_ne (by decide)) (by decide +kernel)
  refine Recorded.reachable_after ?_ (.of_ne (by decide)) (by decide +kernel)
  refine Recorded.reachable_after ?_ (.of_ne (by decide)) (by decide +kernel)
  exact Recorded.reachable_after sampleStart_reachable (.of_ne (by decide)) (by decide +kernel)

/-- Both handlers are in progress at the end of that run. -/
theorem handlers_nest_at_depth_two :
    (nesting₄.h.frames 1).map SigFrame.signum = [7, 5] ∧
      (nesting₄.d.k.proctab 1).sigPriority = getPriorityMask 7 := by
  have hfs : (nesting₄.h.frames 1).map SigFrame.signum = [7, 5] := by decide +kernel
  refine ⟨hfs, ?_⟩
  have hused : nesting₄.d.k.Used 1 := ⟨by decide, by decide +kernel, by decide +kernel⟩
  have hpri := (handlers_nest nesting₄_reachable hused).2.1
  revert hfs hpri
  cases nesting₄.h.frames 1 with
  | nil => simp
  | cons f fs =>
      intro hfs hpri
      have hf : f.signum = 7 := (List.cons.inj hfs).1
      dsimp only at hpri
      rw [hpri, hf]
      rfl

/-! ## Which bit a return clears -/

/-- A return clears exactly the completed signal if and only if the number decoded
from the mask in force names the same pending bit. When the process returns from
its handlers properly, this is so unless the signal is 30 and the uninitialised
number that the decoder then uses happens to be wrong. -/
theorem sigreturn_clears_completed_iff {q : Slot} {s : Recorded} {t : Trap} {f : SigFrame}
    {fs : List SigFrame} {k' : Kernel} {p' : Slot} (h : recorder.Reachable s) (hp : s.d.p = q)
    (hf : s.h.frames q = f :: fs)
    (hs : serve (contextswitch s.d.k q t) q t.ambient .sigreturn = .ok (k', p')) :
    ((k'.proctab q).sigPending = (s.d.k.proctab q).sigPending &&& ~~~bit f.signum ↔
      (s.d.k.proctab q).sigPending
          &&& bit (prMaskToSignum (s.d.k.proctab q).sigPriority t.ambient.sig)
        = (s.d.k.proctab q).sigPending &&& bit f.signum) ∧
    (recorder.ReachableUnder (ReturnsProperly q) s →
      ((k'.proctab q).sigPending = (s.d.k.proctab q).sigPending &&& ~~~bit f.signum ↔
        f.signum ≠ 30 ∨ t.ambient.sig % 32 = 31)) := by
  have hpend : (k'.proctab q).sigPending = (s.d.k.proctab q).sigPending
      &&& ~~~bit (prMaskToSignum (s.d.k.proctab q).sigPriority t.ambient.sig) := by
    simp only [serve, pure, Except.pure, Except.ok.injEq, Prod.mk.injEq] at hs
    have hsig := contextswitch_sig s.d.k q q t
    rw [← hs.1, sysSigreturn, Kernel.upd_proctab_self,
      (Pcb.sigreturn_masks _ _ _ _).1, hsig.sigPending, hsig.sigPriority]
  have hiff := hpend ▸ and_not_eq_iff
    (x := (s.d.k.proctab q).sigPending)
    (y := bit (prMaskToSignum (s.d.k.proctab q).sigPriority t.ambient.sig))
    (z := bit f.signum)
  refine ⟨hiff, fun hr => hiff.trans ?_⟩
  have hu : s.d.k.Used q := hp ▸ (Recorded.sound_of_reachable h).used
  obtain ⟨hpri, hnest, h30⟩ := nested_of_reachable hr hu.pid_ne_zero
  rw [hf] at hpri hnest h30
  cases hnest with
  | cons hlt =>
      rw [hpri, priorityOf]
      by_cases hn : f.signum = 30
      · have hmem := h30 f List.mem_cons_self hn
        rw [hn, prMaskToSignum_thirty, ← bits_injective.eq_iff, bits_and, bits_and, bits_bit,
          bits_bit, show sigNo ((30 : ℕ) : Int) = 30 from sigNo_natCast (by decide)]
        rw [Finset.inter_singleton_of_mem hmem]
        constructor
        · intro heq
          have hm : (30 : ℕ) ∈ bits (s.d.k.proctab q).sigPending
              ∩ {sigNo (t.ambient.sig - 1)} := heq ▸ Finset.mem_singleton_self 30
          have h1 := Finset.mem_singleton.mp (Finset.mem_inter.mp hm).2
          unfold sigNo at h1
          omega
        · intro hsig
          have h1 : sigNo (t.ambient.sig - 1) = 30 := by
            unfold sigNo
            omega
          rw [h1, Finset.inter_singleton_of_mem hmem]
      · rw [prMaskToSignum_getPriorityMask hlt hn]
        simp [hn]

/-- A run of the root process: it installs a handler for 30 and posts 30 to itself. -/
def thirty₁ : Recorded := sampleStart.after (sampleInstall 30)

@[inherit_doc thirty₁]
def thirty₂ : Recorded := thirty₁.after (samplePost 1 30)

theorem thirty₂_reachable : recorder.ReachableUnder (ReturnsProperly 1) thirty₂ := by
  refine Recorded.reachable_after ?_ (.of_ne (by decide)) (by decide +kernel)
  exact Recorded.reachable_after sampleStart_reachable (.of_ne (by decide)) (by decide +kernel)

/-- The return from the handler of 30 leaves the signal pending. -/
theorem sigreturn_of_thirty :
    ¬ ∀ (q : Slot) (s : Recorded) (t : Trap) (f : SigFrame) (fs : List SigFrame) (k' : Kernel)
      (p' : Slot), recorder.ReachableUnder (ReturnsProperly q) s → s.d.p = q →
      s.h.frames q = f :: fs → f.ReturnedBy (contextswitch s.d.k q t) q →
      serve (contextswitch s.d.k q t) q t.ambient .sigreturn = .ok (k', p') →
      (k'.proctab q).sigPending = (s.d.k.proctab q).sigPending &&& ~~~bit f.signum := by
  intro h
  have hf : ∀ f ∈ thirty₂.h.frames 1, f.signum = 30
      ∧ f.ReturnedBy (contextswitch thirty₂.d.k 1 (sampleReturn 0x50000)) 1 := by
    decide +kernel
  have hlen : (thirty₂.h.frames 1).length = 1 := by decide +kernel
  obtain ⟨f, hfs⟩ := List.length_eq_one_iff.mp hlen
  obtain ⟨hn, hr⟩ := hf f (hfs ▸ List.mem_singleton_self f)
  have hpend := h 1 thirty₂ (sampleReturn 0x50000) f [] _ 1 thirty₂_reachable (by decide +kernel)
    hfs hr rfl
  have hbefore : (thirty₂.d.k.proctab 1).sigPending &&& ~~~bit (30 : ℕ) = 0 := by
    decide +kernel
  have hafter : ((sysSigreturn (contextswitch thirty₂.d.k 1 (sampleReturn 0x50000)) 1
      sampleAmbient).proctab 1).sigPending ≠ 0 := by decide +kernel
  rw [hn, hbefore] at hpend
  exact hafter hpend

/-- In that run the condition fails, and so does the return. -/
theorem sigreturn_of_thirty_iff :
    ((sysSigreturn (contextswitch thirty₂.d.k 1 (sampleReturn 0x50000)) 1
        sampleAmbient).proctab 1).sigPending
      = (thirty₂.d.k.proctab 1).sigPending &&& ~~~bit (30 : ℕ) ↔
    (30 : ℕ) ≠ 30 ∨ (0 : Int) % 32 = 31 := by
  have hlen : (thirty₂.h.frames 1).map SigFrame.signum = [30] := by decide +kernel
  obtain ⟨f, hfs, hn⟩ : ∃ f, thirty₂.h.frames 1 = [f] ∧ f.signum = 30 := by
    revert hlen
    cases thirty₂.h.frames 1 with
    | nil => simp
    | cons f fs => simp +contextual
  have := (sigreturn_clears_completed_iff (t := sampleReturn 0x50000) thirty₂_reachable.reachable
    (by decide +kernel) hfs rfl).2 thirty₂_reachable
  rw [hn] at this
  exact this

/-! ## Accepted signals -/

/-- Signal `n` has been accepted, and since then no handler for it has started, its
handler has not been removed and the process has not stopped. The events are
latest first. -/
def Owed (n : ℕ) : List SigEvent → Prop
  | [] => False
  | .posted m :: l => m = n ∨ Owed n l
  | .started m :: l => m ≠ n ∧ Owed n l
  | .removed m :: l => m ≠ n ∧ Owed n l
  | .completed _ :: l => Owed n l
  | .stopped :: _ => False

/-- No signal is accepted for `q` while a handler for it is in progress, and `q` does
not return from a handler while the mask in force decodes to a pending signal whose
handler is not in progress. -/
structure KeepsPosted (q : Slot) (s : Recorded) (t : Trap) : Prop where
  posted : t.cause.request = .sigkill →
    ∀ n, postedBy (contextswitch s.d.k s.d.p t) s.d.p t.ambient = some (q, n) →
      ∀ f ∈ s.h.frames q, f.signum ≠ n
  returned : s.d.p = q → t.cause.request = .sigreturn →
    sigNo (prMaskToSignum (s.d.k.proctab q).sigPriority t.ambient.sig)
        ∈ bits (s.d.k.proctab q).sigPending →
      ∃ f ∈ s.h.frames q,
        f.signum = sigNo (prMaskToSignum (s.d.k.proctab q).sigPriority t.ambient.sig)

/-- An owed signal is pending, and no handler for it is in progress. -/
def OwedPending : SigPred := fun c fs l =>
  ∀ n, Owed n l → n ∈ bits c.sigPending ∧ ∀ f ∈ fs, f.signum ≠ n

theorem owedPending_stable : OwedPending.Stable where
  same c c' fs l h hj n hn := h.sigPending ▸ hj n hn
  deliver k q fs l hd hj n hn := by
    obtain ⟨h₁, h₂⟩ := hj n hn.2
    refine ⟨h₁, fun f hf => ?_⟩
    rcases List.mem_cons.mp hf with rfl | hf
    · exact hn.1
    · exact h₂ f hf

/-- Serving a request keeps the owed signals of `q` pending. -/
theorem SigStep.owedPending {s : Recorded} {t : Trap} {k₂ : Kernel} {h₂ : History} {q : Slot}
    {p' : Slot} (hc : KeepsPosted q s t)
    (hserve : serve (contextswitch s.d.k s.d.p t) s.d.p t.ambient t.cause.request
      = .ok (k₂, p'))
    (hs : SigStep (contextswitch s.d.k s.d.p t) (s.h.setCall s.d.p t.cause.call) s.d.p t.ambient
      t.cause.request k₂ h₂ q)
    (hj : OwedPending ((contextswitch s.d.k s.d.p t).proctab q) (s.h.frames q) (s.h.log q)) :
    OwedPending (k₂.proctab q) (h₂.frames q) (h₂.log q) := by
  have hsig := contextswitch_sig s.d.k s.d.p q t
  generalize hk : contextswitch s.d.k s.d.p t = k at hc hserve hs hj hsig
  have hstay : (∀ n, Owed n (h₂.log q) → Owed n (s.h.log q)) →
      (k₂.proctab q).sigPending = (k.proctab q).sigPending → h₂.frames q = s.h.frames q →
      OwedPending (k₂.proctab q) (h₂.frames q) (h₂.log q) := by
    intro hl hpend hf n hn
    rw [hpend, hf]
    exact hj n (hl n hn)
  cases hs with
  | same hsig hf hl => exact hstay (fun _ h => hl ▸ h) hsig.sigPending hf
  | stopped _ _ hsig hf hl =>
      refine hstay (fun n h => ?_) hsig.sigPending hf
      rw [hl] at h
      exact h.elim
  | renewed _ _ hsig hf hl =>
      intro n hn
      rw [hl] at hn
      rw [hsig.sigPending, hf]
      exact ⟨(hj n hn).1, by simp⟩
  | installed _ _ fp _ n _ _ _ hsig hf hl =>
      exact hstay (fun _ h => hl ▸ h)
        (hsig.sigPending.trans ((k.proctab q).install_masks n fp).1) hf
  | removed _ _ _ n _ _ hsig hf hl =>
      refine hstay (fun m h => ?_)
        (hsig.sigPending.trans ((k.proctab q).install_masks n 0).1) hf
      rw [hl] at h
      exact h.2
  | opened _ _ _ hsig hf hl => exact hstay (fun _ h => hl ▸ h) hsig.sigPending hf
  | posted hreq hq n hn hacc hsig' hf hl =>
      intro m hm
      rw [hl] at hm
      rw [hsig'.sigPending, Pcb.pend_sigPending, bits_or, bits_bit, hf, Finset.mem_union,
        Finset.mem_singleton]
      rcases hm with rfl | hm
      · refine ⟨.inr rfl, hc.posted hreq _ ?_⟩
        rw [hk]
        rw [hreq] at hserve
        rw [postedBy_eq hserve, ← hn, if_pos hacc, hq]
      · exact ⟨.inl (hj m hm).1, (hj m hm).2⟩
  | returned hreq hq hk₂ hf hl =>
      intro n hn
      have hn' : Owed n (s.h.log q) := by
        rw [hl] at hn
        split at hn <;> exact hn
      obtain ⟨h₁, h₂⟩ := hj n hn'
      refine ⟨?_, fun f hf' => h₂ f (List.mem_of_mem_tail (hf ▸ hf'))⟩
      rw [hk₂, (Pcb.sigreturn_masks _ _ _ _).1, bits_and_not, bits_bit]
      refine Finset.mem_sdiff.mpr ⟨h₁, fun hm => ?_⟩
      -- the decoded signal would be in progress
      have hm' := Finset.mem_singleton.mp hm
      rw [hsig.sigPriority] at hm'
      rw [hsig.sigPending] at h₁
      obtain ⟨f, hf', hfn⟩ := hc.returned hq.symm hreq (hm' ▸ h₁)
      exact h₂ f hf' (hfn.trans hm'.symm)

/-- In a run whose steps meet the condition, an accepted signal stays pending until a
handler for it starts, its handler is removed or the process stops. -/
theorem accepted_stays_pending {q : Slot} {s : Recorded}
    (h : recorder.ReachableUnder (KeepsPosted q) s) {n : ℕ} (hn : Owed n (s.h.log q)) :
    (s.d.k.proctab q).sigPending &&& bit n ≠ 0 := by
  have hj : OwedPending.At q s := by
    refine signal_invariant owedPending_stable (fun _ _ _ => False.elim) ?_ h
    intro s t k₂ h₂ s' _ hc ht hj hs
    exact hs.owedPending hc ht.serve hj
  have hmem := (hj n hn).1
  rw [← mem_bits_iff_and_bit, sigNo_natCast (lt_of_mem_bits hmem)]
  exact hmem

/-- A run of the root process: it installs handlers for 5 and 7, posts 7 to itself
and posts 5 from the handler, which waits for the handler to return. -/
def waiting₁ : Recorded := sampleStart.after (sampleInstall 5)

@[inherit_doc waiting₁]
def waiting₂ : Recorded := waiting₁.after (sampleInstall 7)

@[inherit_doc waiting₁]
def waiting₃ : Recorded := waiting₂.after (samplePost 1 7)

@[inherit_doc waiting₁]
def waiting₄ : Recorded := waiting₃.after { samplePost 1 5 with esp := 0x4f000 }

/-- A post of a signal for which no handler is in progress meets the condition. -/
theorem KeepsPosted.of_post {q : Slot} {s : Recorded} {t : Trap} {m : ℕ}
    (hreq : t.cause.request = .sigkill)
    (hm : postedBy (contextswitch s.d.k s.d.p t) s.d.p t.ambient = some (q, m))
    (hf : ∀ f ∈ s.h.frames q, f.signum ≠ m) : KeepsPosted q s t where
  posted _ n hn := by
    rw [hm, Option.some.injEq, Prod.mk.injEq] at hn
    exact hn.2 ▸ hf
  returned _ hr := by
    rw [hreq] at hr
    cases hr

/-- The installation of a handler meets the condition. -/
theorem KeepsPosted.of_install {q : Slot} {s : Recorded} {t : Trap}
    (hreq : t.cause.request = .sighandler) : KeepsPosted q s t where
  posted hr := by
    rw [hreq] at hr
    cases hr
  returned _ hr := by
    rw [hreq] at hr
    cases hr

/-- The signal that waits in that run is pending. -/
theorem accepted_stays_pending_below_handler :
    (waiting₄.d.k.proctab 1).sigPending &&& bit (5 : ℕ) ≠ 0 := by
  have hlog : waiting₄.h.log 1 = [.posted 5, .started 7, .posted 7] := by decide +kernel
  have hreach : recorder.ReachableUnder (KeepsPosted 1) waiting₄ := by
    refine Recorded.reachable_after ?_ (.of_post (m := 5) rfl (by decide +kernel)
      (by decide +kernel)) (by decide +kernel)
    refine Recorded.reachable_after ?_ (.of_post (m := 7) rfl (by decide +kernel)
      (by decide +kernel)) (by decide +kernel)
    refine Recorded.reachable_after ?_ (.of_install rfl) (by decide +kernel)
    exact Recorded.reachable_after sampleStart_reachable (.of_install rfl) (by decide +kernel)
  exact accepted_stays_pending hreach (by rw [hlog]; exact .inl rfl)

/-- A run of the root process: it installs a handler for 5, posts 5 to itself, posts
5 again from the handler and returns. -/
def reposted₁ : Recorded := sampleStart.after (sampleInstall 5)

@[inherit_doc reposted₁]
def reposted₂ : Recorded := reposted₁.after (samplePost 1 5)

@[inherit_doc reposted₁]
def reposted₃ : Recorded := reposted₂.after { samplePost 1 5 with esp := 0x4f000 }

@[inherit_doc reposted₁]
def reposted₄ : Recorded := reposted₃.after (sampleReturn 0x50000)

theorem reposted₄_reachable : recorder.Reachable reposted₄ := by
  refine Recorded.reachable_after ?_ trivial (by decide +kernel)
  refine Recorded.reachable_after ?_ trivial (by decide +kernel)
  refine Recorded.reachable_after ?_ trivial (by decide +kernel)
  exact Recorded.reachable_after sampleStart_reachable trivial (by decide +kernel)

/-- The second instance is lost when the handler of the first returns. -/
theorem accepted_signal_lost :
    ¬ ∀ (q : Slot) (s : Recorded) (n : ℕ), recorder.Reachable s → Owed n (s.h.log q) →
      (s.d.k.proctab q).sigPending &&& bit n ≠ 0 := by
  intro h
  have hlog : reposted₄.h.log 1 = [.completed 5, .posted 5, .started 5, .posted 5] := by
    decide +kernel
  have hpend : (reposted₄.d.k.proctab 1).sigPending &&& bit (5 : ℕ) = 0 := by decide +kernel
  exact h 1 reposted₄ 5 reposted₄_reachable (by rw [hlog]; exact .inl rfl) hpend

end Xeros
