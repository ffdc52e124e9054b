import Mathlib.Data.Finset.Sort
import Mathlib.Order.Bounds.Basic
import Mathlib.Order.Interval.Finset.Nat

/-!
# Machine words as sets of bit positions

`bits x` is the set of the positions at which the word `x` has a one. The bit
operations are the operations on sets, the highest one is the greatest element,
and a mask of leading ones is an upper set. A set that meets an upper set meets
it in its greatest element: this is what makes "the highest member" and "the
highest admitted member" the same.
-/

namespace Lib

variable {w : ℕ}

/-- The positions of the ones of a word. -/
def bits (x : BitVec w) : Finset ℕ := (Finset.range w).filter fun i => x.getLsbD i = true

@[simp] theorem mem_bits {x : BitVec w} {i : ℕ} : i ∈ bits x ↔ x.getLsbD i = true := by
  simp only [bits, Finset.mem_filter, Finset.mem_range, and_iff_right_iff_imp]
  exact BitVec.lt_of_getLsbD

theorem lt_of_mem_bits {x : BitVec w} {i : ℕ} (h : i ∈ bits x) : i < w :=
  BitVec.lt_of_getLsbD (mem_bits.mp h)

@[simp] theorem bits_zero : bits (0 : BitVec w) = ∅ := by
  ext i
  simp

@[simp] theorem bits_neg_one : bits (-1 : BitVec w) = Finset.range w := by
  ext i
  simp [BitVec.neg_one_eq_allOnes]

@[simp] theorem bits_and (x y : BitVec w) : bits (x &&& y) = bits x ∩ bits y := by
  ext i
  simp

@[simp] theorem bits_or (x y : BitVec w) : bits (x ||| y) = bits x ∪ bits y := by
  ext i
  simp

@[simp] theorem bits_and_not (x y : BitVec w) : bits (x &&& ~~~y) = bits x \ bits y := by
  ext i
  simp only [mem_bits, BitVec.getLsbD_and, BitVec.getLsbD_not, Bool.and_eq_true,
    decide_eq_true_eq, Bool.not_eq_true', Finset.mem_sdiff]
  constructor
  · rintro ⟨h₁, -, h₂⟩
    exact ⟨h₁, by simp [h₂]⟩
  · rintro ⟨h₁, h₂⟩
    exact ⟨h₁, BitVec.lt_of_getLsbD h₁, by simpa using h₂⟩

/-- A one shifted to a position of the word. -/
theorem bits_one_shiftLeft {n : ℕ} (hn : n < w) : bits ((1 : BitVec w) <<< n) = {n} := by
  ext i
  simp only [mem_bits, BitVec.getLsbD_shiftLeft, Finset.mem_singleton]
  by_cases hi : i = n
  · subst hi
    simp [hn]
    omega
  · have : ¬ (i - n = 0 ∧ n ≤ i) := by omega
    simp
    omega

/-- All ones shifted: the positions from `n` on. -/
theorem bits_neg_one_shiftLeft (n : ℕ) :
    bits ((-1 : BitVec w) <<< n) = Finset.Ico n w := by
  have h1 : (-1 : BitVec w) = BitVec.allOnes w := BitVec.neg_one_eq_allOnes
  ext i
  rw [h1]
  simp only [mem_bits, BitVec.getLsbD_shiftLeft, BitVec.getLsbD_allOnes, Finset.mem_Ico,
    Bool.and_eq_true, decide_eq_true_eq, Bool.not_eq_true', decide_eq_false_iff_not]
  omega

/-- A word is determined by its set. -/
theorem bits_injective : Function.Injective (bits : BitVec w → Finset ℕ) := by
  intro x y h
  refine BitVec.eq_of_getLsbD_eq fun i _ => ?_
  have hi : i ∈ bits x ↔ i ∈ bits y := by rw [h]
  rw [mem_bits, mem_bits] at hi
  exact Bool.eq_iff_iff.mpr hi

theorem bits_eq_empty {x : BitVec w} : bits x = ∅ ↔ x = 0 := by
  rw [← bits_zero (w := w)]
  exact bits_injective.eq_iff

theorem bits_nonempty {x : BitVec w} : (bits x).Nonempty ↔ x ≠ 0 := by
  rw [Finset.nonempty_iff_ne_empty, ne_eq, bits_eq_empty]

/-- Clearing two sets of bits has the same effect when they meet the word in the
same bits. -/
theorem and_not_eq_iff {x y z : BitVec w} :
    x &&& ~~~y = x &&& ~~~z ↔ x &&& y = x &&& z := by
  rw [← bits_injective.eq_iff, ← bits_injective.eq_iff, bits_and_not, bits_and_not, bits_and,
    bits_and]
  exact Finset.sdiff_eq_sdiff_iff_inter_eq_inter

/-- An upper set of positions, below `w`. -/
def UpSet (w : ℕ) (s : Finset ℕ) : Prop := ∀ i ∈ s, ∀ j, i ≤ j → j < w → j ∈ s

theorem UpSet.range : UpSet w (Finset.range w) := fun _ _ _ _ h => Finset.mem_range.mpr h

theorem UpSet.Ico (n : ℕ) : UpSet w (Finset.Ico n w) := by
  intro i hi j hij hj
  rw [Finset.mem_Ico] at hi ⊢
  omega

/-- A set that meets an upper set meets it in its greatest element. -/
theorem UpSet.greatest_mem {r s : Finset ℕ} {m : ℕ} (hr : UpSet w r)
    (hm : IsGreatest (s : Set ℕ) m) (hw : m < w) (h : (s ∩ r).Nonempty) : m ∈ r := by
  obtain ⟨i, hi⟩ := h
  rw [Finset.mem_inter] at hi
  exact hr i hi.2 m (hm.2 hi.1) hw

/-- Nothing of a set lies above its greatest element. -/
theorem inter_above_greatest {s : Finset ℕ} {m : ℕ} (hm : IsGreatest (s : Set ℕ) m) :
    s ∩ Finset.Ico (m + 1) w = ∅ := by
  ext i
  simp only [Finset.mem_inter, Finset.mem_Ico, Finset.notMem_empty, iff_false, not_and,
    not_lt]
  intro hi hmi
  have := hm.2 (Finset.mem_coe.mpr hi)
  omega

/-- The greatest element of a set is the greatest of every part that has it. -/
theorem greatest_of_subset {s t : Finset ℕ} {m : ℕ} (hm : IsGreatest (s : Set ℕ) m)
    (hts : t ⊆ s) (hmt : m ∈ t) : IsGreatest (t : Set ℕ) m :=
  ⟨hmt, fun _ hi => hm.2 (hts hi)⟩

/-- A nonempty set has a greatest element. -/
theorem exists_greatest {s : Finset ℕ} (h : s.Nonempty) : ∃ m, IsGreatest (s : Set ℕ) m :=
  ⟨s.max' h, s.max'_mem h, fun i hi => s.le_max' i hi⟩

/-- The elements of a set, from the greatest down. -/
def descending (s : Finset ℕ) : List ℕ := s.sort (· ≥ ·)

@[simp] theorem mem_descending {s : Finset ℕ} {n : ℕ} : n ∈ descending s ↔ n ∈ s :=
  Finset.mem_sort _

@[simp] theorem descending_empty : descending ∅ = [] := Finset.sort_empty _

theorem descending_injective : Function.Injective descending := by
  intro s t h
  rw [← Finset.sort_toFinset s (· ≥ ·), ← Finset.sort_toFinset t (· ≥ ·)]
  exact congrArg List.toFinset h

/-- The greatest element is listed first. -/
theorem descending_eq_cons {s : Finset ℕ} {m : ℕ} (hm : IsGreatest (s : Set ℕ) m) :
    descending s = m :: descending (s \ {m}) := by
  have hs : insert m (s \ {m}) = s := by
    rw [Finset.sdiff_singleton_eq_erase]
    exact Finset.insert_erase (Finset.mem_coe.mp hm.1)
  have hnot : m ∉ s \ {m} := by simp
  have hle : ∀ b ∈ s \ {m}, m ≥ b := fun b hb =>
    hm.2 (Finset.mem_coe.mpr (Finset.mem_sdiff.mp hb).1)
  calc descending s = descending (insert m (s \ {m})) := by rw [hs]
    _ = m :: descending (s \ {m}) := Finset.sort_insert _ hle hnot

end Lib
