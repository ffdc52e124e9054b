import Xeros.Logic.Boot
import Xeros.Lib.Mask

/-!
# Signal masks as sets

What the mask functions of `signal.c` and `disp.c` mean on sets of signal
numbers: the priority mask of a signal is the set of the higher ones,
`get_next_signal` is the greatest element, and `pr_mask_to_signum` inverts
`get_priority_mask` except at signal 30, whose mask has its only one at the bit
that the search loop leaves out.
-/

namespace Xeros

open Lib

/-- The bit that a signal number uses: a shift counts modulo 32. -/
def sigNo (n : Int) : ℕ := (n % 32).toNat

theorem sigNo_lt (n : Int) : sigNo n < 32 := by
  unfold sigNo
  omega

theorem sigNo_natCast {n : ℕ} (h : n < 32) : sigNo n = n := by
  unfold sigNo
  omega

@[simp] theorem bits_bit (n : Int) : bits (bit n) = {sigNo n} :=
  bits_one_shiftLeft (w := 32) (sigNo_lt n)

theorem mem_bits_iff_and_bit {x : Word} {n : Int} : sigNo n ∈ bits x ↔ x &&& bit n ≠ 0 := by
  rw [← bits_nonempty, bits_and, bits_bit]
  simp [Finset.Nonempty]

/-- The priority mask of a signal is the set of the higher signals. -/
theorem bits_getPriorityMask {n : ℕ} (hn : n < 32) :
    bits (getPriorityMask n) = Finset.Ico (n + 1) 32 := by
  have hmax : maxSignal = 31 := rfl
  unfold getPriorityMask
  split
  · rename_i h
    have h31 : n = 31 := by omega
    subst h31
    rw [bits_zero]
    exact (Finset.Ico_self 32).symm
  · have h32 : ((n : Int) + 1) % 32 = ((n + 1 : ℕ) : Int) := by omega
    rw [h32, Int.toNat_natCast, bits_neg_one_shiftLeft]

theorem highestSet_eq {x : Word} {n m : ℕ} (hn : n ≤ 32)
    (hm : IsGreatest ((bits x : Set ℕ) ∩ {i | i < n}) m) : highestSet x n = m := by
  induction n with
  | zero => exact absurd hm.1.2 (by simp)
  | succ n ih =>
      have hno : sigNo (n : Int) = n := sigNo_natCast (by omega)
      unfold highestSet
      split
      · rename_i hb
        rw [← mem_bits_iff_and_bit, hno] at hb
        have h₁ : n ≤ m := hm.2 ⟨hb, Nat.lt_succ_self n⟩
        have h₂ : m < n + 1 := hm.1.2
        omega
      · rename_i hb
        rw [← mem_bits_iff_and_bit, hno] at hb
        have hmn : m ≠ n := by
          rintro rfl
          exact hb hm.1.1
        have hlt : m < n + 1 := hm.1.2
        exact ih (by omega) ⟨⟨hm.1.1, show m < n by omega⟩,
          fun i hi => hm.2 ⟨hi.1, Nat.lt_succ_of_lt hi.2⟩⟩

/-- `get_next_signal` is the highest signal of a set. -/
theorem getNextSignal_eq {x : Word} {m : ℕ} (hm : IsGreatest (bits x : Set ℕ) m) :
    getNextSignal x = m := by
  refine highestSet_eq (Nat.le_refl 32) ⟨⟨hm.1, ?_⟩, fun i hi => hm.2 hi.1⟩
  exact lt_of_mem_bits (Finset.mem_coe.mp hm.1)

theorem firstSet_eq {x : Word} {sig : Int} {n i m : ℕ} (hm : sigNo m ∈ bits x)
    (him : i ≤ m) (hmn : m < i + n) (hlow : ∀ j, i ≤ j → j < m → sigNo j ∉ bits x) :
    firstSet x sig n i = m := by
  induction n generalizing i with
  | zero => omega
  | succ n ih =>
      unfold firstSet
      by_cases him' : i = m
      · subst him'
        rw [if_pos (mem_bits_iff_and_bit.mp hm)]
      · rw [if_neg fun h => hlow i (Nat.le_refl i) (by omega) (mem_bits_iff_and_bit.mpr h)]
        exact ih (by omega) (by omega) fun j hj => hlow j (by omega)

theorem firstSet_none {x : Word} {sig : Int} {n i : ℕ}
    (h : ∀ j, i ≤ j → j < i + n → sigNo j ∉ bits x) : firstSet x sig n i = sig := by
  induction n generalizing i with
  | zero => rfl
  | succ n ih =>
      unfold firstSet
      rw [if_neg fun hb => h i (Nat.le_refl i) (by omega) (mem_bits_iff_and_bit.mpr hb)]
      exact ih fun j hj hj' => h j (by omega) (by omega)

theorem getPriorityMask_ne {n : ℕ} (hn : n < 31) :
    getPriorityMask n ≠ 0 ∧ getPriorityMask n ≠ -1 := by
  have hb := bits_getPriorityMask (n := n) (by omega)
  constructor
  · intro h
    rw [h, bits_zero] at hb
    have : n + 1 ∈ (∅ : Finset ℕ) := hb ▸ Finset.mem_Ico.mpr (by omega)
    simp at this
  · intro h
    rw [h, bits_neg_one] at hb
    have : 0 ∈ Finset.Ico (n + 1) 32 := hb ▸ Finset.mem_range.mpr (by omega)
    simp at this

/-- `pr_mask_to_signum` inverts `get_priority_mask` on every signal but 30. -/
theorem prMaskToSignum_getPriorityMask {n : ℕ} (hn : n < 32) (h30 : n ≠ 30) (sig : Int) :
    prMaskToSignum (getPriorityMask n) sig = n := by
  unfold prMaskToSignum
  by_cases h31 : n = 31
  · subst h31
    rfl
  · obtain ⟨h₁, h₂⟩ := getPriorityMask_ne (n := n) (by omega)
    rw [if_neg h₁, if_neg h₂, firstSet_eq (m := n + 1)]
    · omega
    · rw [sigNo_natCast (by omega), bits_getPriorityMask hn, Finset.mem_Ico]
      omega
    · omega
    · omega
    · intro j _ hj
      rw [sigNo_natCast (by omega), bits_getPriorityMask hn, Finset.mem_Ico]
      omega

/-- For signal 30 the result is the uninitialised number less one. -/
theorem prMaskToSignum_thirty (sig : Int) :
    prMaskToSignum (getPriorityMask (30 : ℕ)) sig = sig - 1 := by
  obtain ⟨h₁, h₂⟩ := getPriorityMask_ne (n := 30) (by omega)
  unfold prMaskToSignum
  rw [if_neg h₁, if_neg h₂, firstSet_none]
  intro j _ hj
  rw [sigNo_natCast (by omega), bits_getPriorityMask (by omega), Finset.mem_Ico]
  omega

/-! ## Delivery -/

/-- The signals of a process that are pending, installed and above its
priority. -/
def Pcb.due (c : Pcb) : Finset ℕ := bits c.sigPending ∩ bits c.sigAllow ∩ bits c.sigPriority

theorem deliverable_iff {c : Pcb} : deliverable c ↔ c.due.Nonempty := by
  unfold deliverable Pcb.due
  rw [← bits_and, ← bits_and, bits_nonempty]
  constructor
  · exact fun h => h.2
  · intro h
    refine ⟨?_, h⟩
    rw [BitVec.lt_def]
    by_contra h0
    have hz : c.sigPending = 0 := by
      refine BitVec.eq_of_toNat_eq ?_
      simpa using h0
    rw [hz] at h
    simp at h

/-- Nothing is due. -/
def Pcb.calm (c : Pcb) : Prop := c.sigPending &&& c.sigAllow &&& c.sigPriority = 0

theorem Pcb.calm_iff {c : Pcb} : c.calm ↔ c.due = ∅ := by
  unfold calm due
  rw [← bits_and, ← bits_and, bits_eq_empty]

theorem Pcb.calm_iff_not_deliverable {c : Pcb} : c.calm ↔ ¬ deliverable c := by
  rw [calm_iff, deliverable_iff, Finset.not_nonempty_iff_eq_empty]

/-- Delivery leaves nothing due: it takes the highest pending signal and admits
the higher ones only. -/
theorem Pcb.deliver_calm {c : Pcb} (h : deliverable c) : c.deliver.calm := by
  obtain ⟨i, hi⟩ := deliverable_iff.mp h
  have hp : (bits c.sigPending).Nonempty := by
    refine ⟨i, ?_⟩
    simp only [due, Finset.mem_inter] at hi
    exact hi.1.1
  obtain ⟨m, hm⟩ := exists_greatest hp
  have hlt : m < 32 := lt_of_mem_bits (Finset.mem_coe.mp hm.1)
  rw [calm_iff]
  show bits c.sigPending ∩ bits c.sigAllow
    ∩ bits (getPriorityMask (getNextSignal c.sigPending)) = ∅
  rw [getNextSignal_eq hm, bits_getPriorityMask hlt, Finset.inter_right_comm,
    inter_above_greatest hm, Finset.empty_inter]

/-- At `contextswitch` nothing is due for the process about to run. -/
theorem loopTop_calm {k : Kernel} {p : Slot} (hu : k.Used p) :
    ((loopTop k p).k.proctab p).calm := by
  rw [loopTop_proctab hu, if_pos rfl]
  split
  · rename_i h
    exact Pcb.deliver_calm h
  · rename_i h
    exact Pcb.calm_iff_not_deliverable.mpr h

/-- The signal chosen for delivery when the priority mask is an upper set: it is
the greatest one pending, and above the priority. -/
theorem deliver_greatest {c : Pcb} (hd : deliverable c) (hp : UpSet 32 (bits c.sigPriority)) :
    ∃ m : ℕ, m < 32 ∧ getNextSignal c.sigPending = m ∧ IsGreatest (bits c.sigPending : Set ℕ) m
      ∧ m ∈ bits c.sigPriority := by
  obtain ⟨i, hi⟩ := deliverable_iff.mp hd
  simp only [Pcb.due, Finset.mem_inter] at hi
  obtain ⟨m, hm⟩ := exists_greatest ⟨i, hi.1.1⟩
  have hlt : m < 32 := lt_of_mem_bits (Finset.mem_coe.mp hm.1)
  exact ⟨m, hlt, getNextSignal_eq hm, hm,
    hp.greatest_mem hm hlt ⟨i, Finset.mem_inter.mpr ⟨hi.1.1, hi.2⟩⟩⟩

@[simp] theorem Pcb.setHandler_masks (c : Pcb) (n : Int) (fp : Word) :
    (c.setHandler n fp).sigPending = c.sigPending
      ∧ (c.setHandler n fp).sigAllow = c.sigAllow
      ∧ (c.setHandler n fp).sigPriority = c.sigPriority := by
  unfold setHandler
  dsimp only
  split <;> exact ⟨rfl, rfl, rfl⟩

/-- Installing or removing a handler leaves the pending signals and the priority. -/
theorem Pcb.install_masks (c : Pcb) (n : Int) (fp : Word) :
    (c.install n fp).sigPending = c.sigPending
      ∧ (c.install n fp).sigPriority = c.sigPriority := by
  unfold install
  dsimp only
  split <;> simp

/-- The masks of the pcb after `SYS_SIGRETURN`. -/
theorem Pcb.sigreturn_masks (c : Pcb) (m : Bytes) (sig : Int) (sp : Word) :
    (c.sigreturn m sig sp).sigPending
        = c.sigPending &&& ~~~bit (prMaskToSignum c.sigPriority sig)
      ∧ (c.sigreturn m sig sp).sigPriority = m.word (sp - 8)
      ∧ (c.sigreturn m sig sp).esp = sp := by
  unfold sigreturn
  dsimp only
  split
  · split <;> exact ⟨rfl, rfl, rfl⟩
  · exact ⟨rfl, rfl, rfl⟩

/-- `SYS_SIGRETURN` leaves the handlers as they are. -/
theorem Pcb.sigreturn_handlers (c : Pcb) (m : Bytes) (sig : Int) (sp : Word) :
    (c.sigreturn m sig sp).sigAllow = c.sigAllow
      ∧ ∀ n, (c.sigreturn m sig sp).handler n = c.handler n := by
  unfold sigreturn
  dsimp only
  split
  · split <;> exact ⟨rfl, fun _ => rfl⟩
  · exact ⟨rfl, fun _ => rfl⟩

/-! ## Installing -/

/-- The handlers after `fp` has been stored. -/
theorem Pcb.setHandler_handler (c : Pcb) {m n : ℕ} (hm : m < 32) (hn : n < 32) (fp : Word) :
    (c.setHandler n fp).handler m = if m = n then fp else c.handler m := by
  unfold setHandler handler
  simp only [Int.toNat_natCast]
  by_cases hn' : n < 31
  · by_cases hm' : m < 31
    · simp [hn', hm']
    · have hne : m ≠ n := by omega
      simp [hn', hm', hne]
  · by_cases hm' : m < 31
    · have hne : m ≠ n := by omega
      simp [hn', hm', hne]
    · have heq : m = n := by omega
      simp [hn', heq]

theorem Pcb.install_handler (c : Pcb) {m n : ℕ} (hm : m < 32) (hn : n < 32) (fp : Word) :
    (c.install n fp).handler m = if m = n then fp else c.handler m := by
  have hset := c.setHandler_handler hm hn fp
  unfold install
  dsimp only
  split <;> exact hset

theorem Pcb.install_allow (c : Pcb) {n : ℕ} (hn : n < 32) {fp : Word} (hfp : fp ≠ 0) :
    bits (c.install n fp).sigAllow = bits c.sigAllow ∪ {n} := by
  unfold install
  dsimp only
  rw [if_neg hfp, bits_or, bits_bit, (c.setHandler_masks n fp).2.1, sigNo_natCast hn]

theorem Pcb.remove_allow (c : Pcb) {n : ℕ} (hn : n < 32) :
    bits (c.install n 0).sigAllow = bits c.sigAllow \ {n} := by
  unfold install
  dsimp only
  rw [if_pos rfl, bits_and_not, bits_bit, (c.setHandler_masks n 0).2.1, sigNo_natCast hn]

/-- The bits after an installation. -/
theorem Pcb.mem_install_allow (c : Pcb) {m n : ℕ} (hn : n < 32) (fp : Word) :
    m ∈ bits (c.install n fp).sigAllow ↔ if m = n then fp ≠ 0 else m ∈ bits c.sigAllow := by
  by_cases h0 : fp = 0
  · rw [h0, c.remove_allow hn, Finset.mem_sdiff, Finset.mem_singleton]
    split
    · rename_i hm
      simp [hm]
    · rename_i hm
      simp [hm]
  · rw [c.install_allow hn h0, Finset.mem_union, Finset.mem_singleton]
    split
    · rename_i hm
      exact iff_of_true (.inr hm) h0
    · rename_i hm
      simp [hm]

end Xeros
