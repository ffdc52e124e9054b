import Xeros.Logic.SigStep

/-!
# Nested handlers

The frames of the handlers in progress of a process nest: each handler runs
above the priority of the one it interrupts, and its frame holds what the pcb
held before. This survives every step as long as the process returns from its
handlers through `sigtramp`, with the saved words intact.
-/

namespace Xeros

open Lib

/-! ## The frame on the stack -/

/-- The words that `modify_process_stack` saves are found again at their
offsets. -/
theorem frameOf_words (k : Kernel) (p : Slot) :
    (frameOf k p).oldSp = (frameOf k p).esp ∧
      (frameOf k p).savedMask = (frameOf k p).priority := by
  have hoff : ∀ (a : Word) (c d : Word), 4 ≤ (c - d).toNat → (c - d).toNat ≤ 0xfffffffc →
      4 ≤ ((a + c) - (a + d)).toNat ∧ ((a + c) - (a + d)).toNat ≤ 0xfffffffc := by
    intro a c d h₁ h₂
    rw [show a + c - (a + d) = c - d by bv_omega]
    exact ⟨h₁, h₂⟩
  obtain ⟨h₁, h₁'⟩ := hoff ((k.proctab p).esp - sigtrampFrameSize) 56 60 (by decide) (by decide)
  obtain ⟨h₂, h₂'⟩ := hoff ((k.proctab p).esp - sigtrampFrameSize) 56 64 (by decide) (by decide)
  obtain ⟨h₃, h₃'⟩ := hoff ((k.proctab p).esp - sigtrampFrameSize) 60 64 (by decide) (by decide)
  simp only [SigFrame.oldSp, SigFrame.savedMask, SigFrame.ssf, frameOf, modifyProcessStack,
    Kernel.upd_mem, Kernel.setMem_mem, setupFrame]
  constructor
  · rw [Bytes.word_putWord_ne h₂ h₂', Bytes.word_putWord_ne h₁ h₁', Bytes.word_putWord]
  · rw [Bytes.word_putWord_ne h₃ h₃', Bytes.word_putWord]

/-! ## Nesting -/

/-- The mask that is in force while these handlers are in progress. -/
def priorityOf : List SigFrame → Word
  | [] => -1
  | f :: _ => getPriorityMask f.signum

/-- The frames, innermost first, nest: every handler interrupts handlers of lower
signals, and its frame holds the mask that was in force. -/
inductive Nested : List SigFrame → Prop
  | nil : Nested []
  | cons {f : SigFrame} {fs : List SigFrame} (hlt : f.signum < 32)
      (hfs : ∀ g ∈ fs, g.signum < f.signum) (hesp : f.oldSp = f.esp)
      (hmask : f.savedMask = f.priority) (hpri : f.priority = priorityOf fs)
      (h : Nested fs) : Nested (f :: fs)

theorem Nested.pairwise {fs : List SigFrame} (h : Nested fs) :
    (fs.map SigFrame.signum).Pairwise (· > ·) := by
  induction h with
  | nil => exact .nil
  | cons _ hfs _ _ _ _ ih =>
      refine List.pairwise_cons.mpr ⟨fun n hn => ?_, ih⟩
      obtain ⟨g, hg, rfl⟩ := List.mem_map.mp hn
      exact hfs g hg

/-- What is above the mask in force is above every signal in progress. -/
theorem Nested.lt_of_mem {fs : List SigFrame} (h : Nested fs) {m : ℕ}
    (hm : m ∈ bits (priorityOf fs)) : ∀ g ∈ fs, g.signum < m := by
  cases h with
  | nil => simp
  | @cons f fs hlt hfs =>
      have hfm : f.signum + 1 ≤ m := by
        have := (bits_getPriorityMask hlt) ▸ hm
        exact (Finset.mem_Ico.mp this).1
      intro g hg
      rcases List.mem_cons.mp hg with rfl | hg
      · omega
      · have := hfs g hg
        omega

/-- The mask in force admits the higher signals with every one it admits. -/
theorem Nested.upSet {fs : List SigFrame} (h : Nested fs) : UpSet 32 (bits (priorityOf fs)) := by
  cases h with
  | nil =>
      rw [priorityOf, bits_neg_one]
      exact .range
  | cons hlt =>
      rw [priorityOf, bits_getPriorityMask hlt]
      exact .Ico _

/-- The process returned from the handler of `f` through `sigtramp`: it passes
the `old_sp` it was given, and the saved words are intact. -/
structure SigFrame.ReturnedBy (f : SigFrame) (k : Kernel) (q : Slot) : Prop where
  oldSp : k.arg q 0 = f.oldSp
  mask : k.mem.word (f.ssf + 60) = f.savedMask
  ret : k.mem.word (f.ssf + 64) = f.savedRet

instance (f : SigFrame) (k : Kernel) (q : Slot) : Decidable (f.ReturnedBy k q) :=
  decidable_of_iff
    (k.arg q 0 = f.oldSp ∧ k.mem.word (f.ssf + 60) = f.savedMask
      ∧ k.mem.word (f.ssf + 64) = f.savedRet)
    ⟨fun h => ⟨h.1, h.2.1, h.2.2⟩, fun h => ⟨h.1, h.2, h.3⟩⟩

/-- `q` reaches `SYS_SIGRETURN` only by returning from its innermost handler. -/
def ReturnsProperly (q : Slot) (s : Recorded) (t : Trap) : Prop :=
  s.d.p = q → t.cause.request = .sigreturn →
    ∃ f fs, s.h.frames q = f :: fs ∧ f.ReturnedBy (contextswitch s.d.k q t) q

/-- The condition is about `SYS_SIGRETURN`. -/
theorem ReturnsProperly.of_ne {q : Slot} {s : Recorded} {t : Trap}
    (h : t.cause.request ≠ .sigreturn) : ReturnsProperly q s t := fun _ hr => absurd hr h

/-- The frames nest and the mask is that of the innermost one; a signal in progress
that the kernel cannot decode stays pending. -/
def NestedSignals : SigPred := fun c fs _ =>
  c.pid ≠ 0 → c.sigPriority = priorityOf fs ∧ Nested fs ∧
    ∀ f ∈ fs, f.signum = 30 → 30 ∈ bits c.sigPending

theorem nestedSignals_stable : NestedSignals.Stable where
  same c c' fs l h hj hpid := by
    obtain ⟨h₁, h₂, h₃⟩ := hj (h.pid ▸ hpid)
    exact ⟨h.sigPriority.trans h₁, h₂, fun f hf hn => h.sigPending ▸ h₃ f hf hn⟩
  deliver k q fs l hd hj hpid := by
    obtain ⟨h₁, h₂, h₃⟩ := hj hpid
    obtain ⟨m, hlt, hm, hgr, hmem⟩ := deliver_greatest hd (h₁ ▸ h₂.upSet)
    have hsig : (frameOf k q).signum = m := by rw [frameOf_signum, hm, Int.toNat_natCast]
    have hmask : (k.proctab q).deliver.sigPriority = getPriorityMask m := by rw [← hm]; rfl
    obtain ⟨hw₁, hw₂⟩ := frameOf_words k q
    refine ⟨?_, .cons (hsig ▸ hlt) ?_ hw₁ hw₂ h₁ h₂, ?_⟩
    · rw [hmask, ← hsig]
      rfl
    · rw [hsig]
      exact h₂.lt_of_mem (h₁ ▸ hmem)
    · intro f hf hn
      rcases List.mem_cons.mp hf with rfl | hf
      · rw [hsig] at hn
        exact hn ▸ Finset.mem_coe.mp hgr.1
      · exact h₃ f hf hn

/-- Returning from the innermost handler restores what its frame holds. -/
theorem Nested.sigreturn {f : SigFrame} {fs : List SigFrame} {k : Kernel} {q : Slot}
    (h : Nested (f :: fs)) (hr : f.ReturnedBy k q) (sig : Int) :
    ((k.proctab q).sigreturn k.mem sig (k.arg q 0)).esp = f.esp
      ∧ ((k.proctab q).sigreturn k.mem sig (k.arg q 0)).sigPriority = f.priority := by
  obtain ⟨-, h₂, h₃⟩ := (k.proctab q).sigreturn_masks k.mem sig (k.arg q 0)
  cases h with
  | cons hlt hfs hesp hmask hpri h =>
      have hsp : k.arg q 0 = f.esp := hr.oldSp.trans hesp
      refine ⟨h₃.trans hsp, h₂.trans ?_⟩
      calc k.mem.word (k.arg q 0 - 8)
          = k.mem.word (f.ssf + 60) := by
            rw [hsp]
            unfold SigFrame.ssf
            congr 1
            bv_omega
        _ = f.priority := hr.mask.trans hmask

/-- Serving a request keeps the frames of `q` nested, if `q` returns from its handlers
properly. -/
theorem SigStep.nested {k k' : Kernel} {h h' : History} {p q : Slot} {a : Ambient}
    {req : Request} (hs : SigStep k h p a req k' h' q)
    (hret : p = q → req = .sigreturn → ∃ f fs, h.frames q = f :: fs ∧ f.ReturnedBy k q)
    (hj : NestedSignals (k.proctab q) (h.frames q) (h.log q)) :
    NestedSignals (k'.proctab q) (h'.frames q) (h'.log q) := by
  -- the priority and the frames stay, and what is pending stays pending
  have hkeep : (k'.proctab q).pid = (k.proctab q).pid →
      (k'.proctab q).sigPriority = (k.proctab q).sigPriority →
      bits (k.proctab q).sigPending ⊆ bits (k'.proctab q).sigPending →
      h'.frames q = h.frames q → NestedSignals (k'.proctab q) (h'.frames q) (h'.log q) := by
    intro hpid hpri hpend hf h0
    obtain ⟨h₁, h₂, h₃⟩ := hj (hpid ▸ h0)
    rw [hf]
    exact ⟨hpri.trans h₁, h₂, fun f hf' hn => hpend (h₃ f hf' hn)⟩
  cases hs with
  | same hsig hf =>
      exact hkeep hsig.pid hsig.sigPriority (hsig.sigPending ▸ subset_rfl) hf
  | stopped _ _ hsig hf =>
      exact hkeep hsig.pid hsig.sigPriority (hsig.sigPending ▸ subset_rfl) hf
  | renewed _ _ hsig hf =>
      intro _
      rw [hf]
      exact ⟨hsig.sigPriority, .nil, by simp⟩
  | installed _ _ fp _ n _ _ _ hsig hf =>
      obtain ⟨h₁, h₂⟩ := (k.proctab q).install_masks n fp
      exact hkeep (hsig.pid.trans (by simp)) (hsig.sigPriority.trans h₂)
        ((hsig.sigPending.trans h₁) ▸ subset_rfl) hf
  | removed _ _ _ n _ _ hsig hf =>
      obtain ⟨h₁, h₂⟩ := (k.proctab q).install_masks n 0
      exact hkeep (hsig.pid.trans (by simp)) (hsig.sigPriority.trans h₂)
        ((hsig.sigPending.trans h₁) ▸ subset_rfl) hf
  | posted _ _ n _ _ hsig hf =>
      refine hkeep hsig.pid hsig.sigPriority ?_ hf
      rw [hsig.sigPending, Pcb.pend_sigPending, bits_or]
      exact Finset.subset_union_left
  | opened _ _ _ hsig hf =>
      exact hkeep hsig.pid hsig.sigPriority (hsig.sigPending ▸ subset_rfl) hf
  | returned hreq hq hk hf =>
      subst hq
      obtain ⟨f, fs, hfs, hr⟩ := hret rfl hreq
      intro hpid
      rw [hk, Pcb.sigreturn_pid] at hpid
      obtain ⟨h₁, h₂, h₃⟩ := hj hpid
      rw [hfs] at h₁ h₂ h₃ hf
      have hmasks := ((k.proctab q).sigreturn_masks k.mem a.sig (k.arg q 0)).1
      have hpri := (h₂.sigreturn hr a.sig).2
      rw [← hk] at hmasks hpri
      cases h₂ with
      | cons hlt hlow _ _ hsaved h₂ =>
          rw [hf, List.tail_cons]
          refine ⟨hpri.trans hsaved, h₂, fun g hg hn => ?_⟩
          -- signal 30 is interrupted by 31 only, which is decoded
          have h31 : f.signum = 31 := by
            have := hlow g hg
            omega
          rw [hmasks, h₁, priorityOf, h31, prMaskToSignum_getPriorityMask (by decide) (by decide),
            bits_and_not, bits_bit]
          have hno : sigNo ((31 : ℕ) : Int) = 31 := sigNo_natCast (by decide)
          rw [hno]
          exact Finset.mem_sdiff.mpr ⟨h₃ g (List.mem_cons_of_mem _ hg) hn, by decide⟩

/-- The frames of every process that returns from its handlers properly nest. -/
theorem nested_of_reachable {q : Slot} {s : Recorded}
    (h : recorder.ReachableUnder (ReturnsProperly q) s) : NestedSignals.At q s := by
  refine signal_invariant nestedSignals_stable ?_ ?_ h
  · intro d hd hpid
    have hpri : (d.k.proctab q).sigPriority = -1 := by
      rw [hd.pid] at hpid
      rw [hd.sigPriority, if_pos]
      by_contra hq
      obtain ⟨h1, h2⟩ := not_or.mp hq
      simp [h1, h2] at hpid
    exact ⟨hpri, .nil, by simp⟩
  · intro s t k₂ h₂ s' _ hc _ hj hs
    refine hs.nested (fun hp hreq => ?_) hj
    obtain ⟨f, fs, hfs, hr⟩ := hc hp hreq
    exact ⟨f, fs, hfs, hp ▸ hr⟩

end Xeros
