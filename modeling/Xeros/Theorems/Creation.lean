import Xeros.Logic.Moves
import Xeros.Logic.Rest

/-!
# Creation that fails

`create` takes a slot out of `dead_q`, gives it a pid and only then finds out whether there is a
slot and whether there is memory for the stack.
-/

namespace Xeros

open Lib

variable {k k' : Kernel} {i : Slot} {fuel : Nat} {fp stack pid : Word}

/-! ## The slot -/

/-- `create` takes a process in this state for a slot that is free. -/
def Pcb.Unused (c : Pcb) : Prop := c.state = .stopped ∨ c.state = .dead

instance (c : Pcb) : Decidable c.Unused := inferInstanceAs (Decidable (_ ∨ _))

/-- The loop of `create`, at index `i` with `n` to go: the indices of the table that it reads, and
the one that it ends with. -/
def slotLoop (k : Kernel) : Nat → Nat → List Nat × Nat
  | 0, i => ([], i)
  | n + 1, i =>
    if (k.proctab (Fin.ofNat maxProc i)).Unused then ([i], i)
    else ((i :: (slotLoop k n (i + 1)).1), (slotLoop k n (i + 1)).2)

/-- The indices of the table that `create` uses: those of the loop, and the one at which it reads
and writes the pid. -/
def createIndices (k : Kernel) : List Nat :=
  (slotLoop k (maxProc - 1) 1).1 ++ [(slotLoop k (maxProc - 1) 1).2]

/-- The loop reads indices within the table. -/
theorem slotLoop_lt {n j : Nat} (h : j + n = maxProc) : ∀ i ∈ (slotLoop k n j).1, i < maxProc := by
  induction n generalizing j with
  | zero =>
      intro i hi
      cases hi
  | succ n ih =>
      intro i hi
      unfold slotLoop at hi
      split at hi
      · obtain rfl := List.mem_singleton.mp hi
        omega
      · rcases List.mem_cons.mp hi with rfl | hi
        · omega
        · exact ih (by omega) i hi

/-- It ends at the first slot that is free, or one past the table. -/
theorem slotLoop_snd {n j : Nat} (h : j + n = maxProc) (hj : 0 < j) : (slotLoop k n j).2 =
    (((List.finRange maxProc).drop j).find? fun i =>
      i ≠ 0 ∧ ((k.proctab i).state = .stopped ∨ (k.proctab i).state = .dead)).elim
        maxProc Fin.val := by
  induction n generalizing j with
  | zero =>
      obtain rfl : j = maxProc := h
      rfl
  | succ n ih =>
      have hlt : j < maxProc := by omega
      have hlen : j < (List.finRange maxProc).length := by rwa [List.length_finRange]
      have hi : Fin.ofNat maxProc j = ⟨j, hlt⟩ := Fin.ext (Nat.mod_eq_of_lt hlt)
      have hcons : (List.finRange maxProc).drop j
          = ⟨j, hlt⟩ :: (List.finRange maxProc).drop (j + 1) := by
        rw [List.drop_eq_getElem_cons hlen, List.getElem_finRange]
        rfl
      have hne : (⟨j, hlt⟩ : Slot) ≠ 0 := by
        intro h0
        have : j = 0 := congrArg Fin.val h0
        omega
      rw [hcons, slotLoop, hi]
      by_cases hu : (k.proctab ⟨j, hlt⟩).Unused
      · rw [if_pos hu, List.find?_cons, show decide _ = true from decide_eq_true ⟨hne, hu⟩]
        rfl
      · rw [if_neg hu, List.find?_cons,
          show decide _ = false from decide_eq_false fun hd => hu hd.2]
        exact ih (by omega) (Nat.succ_pos j)

/-- The index that the loop ends with is that of the free slot, if there is one. -/
theorem slotLoop_eq (k : Kernel) :
    (slotLoop k (maxProc - 1) 1).2 = (freeSlot k).elim maxProc Fin.val := by
  rw [slotLoop_snd rfl Nat.one_pos]
  rfl

theorem freeSlot_none : freeSlot k = none ↔ ∀ i, i ≠ 0 → ¬ (k.proctab i).Unused := by
  unfold freeSlot
  rw [List.find?_eq_none]
  constructor
  · intro h i hi hu
    exact h i (List.mem_finRange i) (decide_eq_true ⟨hi, hu⟩)
  · intro h i _ hd
    exact h i (of_decide_eq_true hd).1 (of_decide_eq_true hd).2

/-- The indices lie in the table if and only if a slot is free. -/
theorem createIndices_lt : (∀ i ∈ createIndices k, i < maxProc) ↔ freeSlot k ≠ none := by
  unfold createIndices
  rw [slotLoop_eq]
  constructor
  · intro h hf
    rw [hf] at h
    exact Nat.lt_irrefl maxProc (h maxProc (List.mem_append_right _ List.mem_cons_self))
  · intro h i hi
    obtain ⟨j, hj⟩ := Option.ne_none_iff_exists'.mp h
    rw [hj] at hi
    rcases List.mem_append.mp hi with hi | hi
    · exact slotLoop_lt rfl i hi
    · rw [List.mem_singleton.mp hi]
      exact j.isLt

/-- A slot never keeps its pid. -/
theorem nextPid_ne (pid : Word) (i : Slot) : nextPid pid i.val ≠ pid := by
  have hi : i.val < 64 := i.isLt
  unfold nextPid maxProc
  split
  · rename_i hmod
    rintro rfl
    rw [BitVec.toNat_ofNat] at hmod
    omega
  split
  · rename_i hmod hmax
    intro hpid
    rw [← hpid, BitVec.le_def, BitVec.toNat_add, BitVec.toNat_ofNat, BitVec.toNat_ofNat] at hmax
    have hint : intMax.toNat = 2147483647 := rfl
    omega
  · intro hpid
    bv_omega

/-! ## A creation that fails -/

/-- A slot is free, and the allocator has a block for the stack. -/
def CanCreate (k : Kernel) (fuel : Nat) (stack : Word) : Prop :=
  (∃ i, i ≠ 0 ∧ (k.proctab i).Unused) ∧
    ∃ b heap, stackBlock k fuel stack = .ok (b, heap) ∧ b ≠ 0

/-- The slot has its new pid when the process is ready. -/
theorem launch_pid {k₁ : Kernel} {cf : Word} (h : launch k₁ i cf fp = .ok k') :
    (k'.proctab i).pid = (k₁.proctab i).pid := by
  unfold launch at h
  rw [ready_eq h, readied_pid, Kernel.upd_proctab_self, Pcb.start_pid]
  rfl

/-- What `create` leaves of a process that it starts: its first context. -/
theorem launch_context {k₁ : Kernel} {cf : Word} (h : launch k₁ i cf fp = .ok k') :
    (k'.proctab i).esp = cf ∧ k'.mem = startContext k₁.mem k₁.img cf fp := by
  unfold launch at h
  refine ⟨?_, (Rest.ready h).mem⟩
  obtain ⟨o, ho⟩ := readied_proctab ((k₁.setMem (startContext k₁.mem k₁.img cf fp)).upd i
    fun c => c.start cf) i i
  rw [ready_eq h, ho, if_pos rfl, Kernel.upd_proctab_self]
  rfl

/-- A pid that is given out is not the code of a failure. -/
theorem nextPid_ne_failure (pid : Word) (i : Slot) : nextPid pid i.val ≠ -1 := by
  intro h
  have hlt := (nextPid_used pid i).2
  rw [h] at hlt
  exact absurd hlt (by decide)

/-- `create` fails if and only if it has no slot or no block. -/
theorem create_fails_iff (h : create k fuel fp stack = .ok (pid, k')) :
    pid = -1 ↔ ¬ CanCreate k fuel stack := by
  rcases create_cases h with ⟨k₁, n, hf, -, rfl, -⟩ | ⟨i, k₁, n, b, heap, hf, -, hb, h⟩
  · refine iff_of_true rfl fun hcan => ?_
    obtain ⟨⟨i, hi, hu⟩, -⟩ := hcan
    exact freeSlot_none.mp hf i hi hu
  rcases h with ⟨rfl, rfl, -⟩ | ⟨hb0, rfl, hl⟩
  · refine iff_of_true rfl fun hcan => ?_
    obtain ⟨-, b, heap', hb', hne⟩ := hcan
    have hsame : (0, heap) = (b, heap') := Except.ok.inj (hb.symm.trans hb')
    exact hne (Prod.mk.inj hsame).1.symm
  · refine iff_of_false ?_ fun hno => hno ⟨⟨i, freeSlot_spec hf⟩, b, heap, hb, hb0⟩
    rw [launch_pid hl, Kernel.setHeap_proctab, Kernel.upd_proctab_self, Pcb.renew_pid]
    exact nextPid_ne_failure _ i

/-- `create` changes nothing when it fails, and keeps to the table, if and only if it does not
fail: there is a slot and a block. Without a slot it uses the index one past the table, and
without a block the slot has another pid afterwards. -/
theorem failed_create_changes_nothing_iff (h : create k fuel fp stack = .ok (pid, k')) :
    (((pid = -1 → k' = k) ∧ ∀ i ∈ createIndices k, i < maxProc) ↔ CanCreate k fuel stack) ∧
      (pid = -1 ↔ ¬ CanCreate k fuel stack) := by
  have hfails := create_fails_iff h
  refine ⟨?_, hfails⟩
  rw [createIndices_lt]
  constructor
  · rintro ⟨hsame, hf⟩
    by_contra hno
    have hpid := hfails.mpr hno
    rcases create_cases h with ⟨k₁, n, hf', -⟩ | ⟨i, k₁, n, b, heap, hf', h₁, -, hend⟩
    · exact hf hf'
    rcases hend with ⟨-, -, hk⟩ | ⟨-, rfl, hl⟩
    · -- the pid of the slot is another
      have hslot := congrArg (fun k : Kernel => (k.proctab i).pid) (hk.symm.trans (hsame hpid))
      have hold : (k₁.proctab i).pid = (k.proctab i).pid := (Relinked.remove h₁).pid i
      simp only [Kernel.setHeap_proctab, Kernel.upd_proctab_self, Pcb.renew_pid, hold] at hslot
      exact nextPid_ne _ i hslot
    · rw [launch_pid hl, Kernel.setHeap_proctab, Kernel.upd_proctab_self, Pcb.renew_pid] at hpid
      exact nextPid_ne_failure _ i hpid
  · intro hcan
    refine ⟨fun hpid => absurd hcan (hfails.mp hpid), fun hf => ?_⟩
    obtain ⟨⟨i, hi, hu⟩, -⟩ := hcan
    exact freeSlot_none.mp hf i hi hu

/-- After boot there is room for another process with a stack of the usual size. -/
theorem failed_create_changes_nothing_iff_of_boot :
    ∃ pid k', create sampleBoot.k 10 0x1400 0 = .ok (pid, k') ∧ (pid = -1 → k' = sampleBoot.k) := by
  have hok : create sampleBoot.k 10 0x1400 0
      = .ok ((create sampleBoot.k 10 0x1400 0).getD (0, sampleBoot.k)) :=
    Run.eq_getD (by decide +kernel)
  have hcan : CanCreate sampleBoot.k 10 0 := by
    refine ⟨⟨3, by decide +kernel⟩, _, _, Run.eq_getD (s := (0, sampleBoot.k.heap)) ?_, ?_⟩ <;>
      decide +kernel
  exact ⟨_, _, hok, ((failed_create_changes_nothing_iff hok).1.mpr hcan).1⟩

/-- A stack that no block is large enough for: slot 3 has a pid afterwards. -/
theorem failed_create_renews : ¬ ∀ (s : Disp) (fuel : Nat) (fp stack pid : Word) (k' : Kernel),
    dispatcher.Reachable s → create s.k fuel fp stack = .ok (pid, k') → pid = -1 → k' = s.k := by
  intro h
  have hok : create sampleBoot.k 10 0x1400 0x10000000
      = .ok ((create sampleBoot.k 10 0x1400 0x10000000).getD (0, sampleBoot.k)) :=
    Run.eq_getD (by decide +kernel)
  have hsame := h sampleBoot 10 0x1400 0x10000000 _ _ ⟨_, sampleBoot_init, .refl⟩ hok
    (by decide +kernel)
  have hpid := congrArg (fun k : Kernel => (k.proctab 3).pid) hsame
  exact absurd hpid (by decide +kernel)

end Xeros
