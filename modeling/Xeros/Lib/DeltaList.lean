import Mathlib

/-!
# Delta lists

A timer queue that stores with each entry how long after the entry before it is
due. Entering an entry touches its neighbours only, and counting the first entry
down counts all of them down. `due` gives the times that the delays stand for:
it says what entering an entry and letting time pass mean.
-/

namespace Lib

variable {α : Type*}

/-- Entries with the delay of each behind the one before it. -/
abbrev Deltas (α : Type*) := List (α × Nat)

namespace Deltas

variable {D A B : Deltas α} {x a : α} {n t d : Nat}

/-- The time until the last entry is due. -/
def total (D : Deltas α) : Nat := (D.map Prod.snd).sum

@[simp] theorem total_nil : total ([] : Deltas α) = 0 := rfl

@[simp] theorem total_cons : total ((a, d) :: D) = d + total D := List.sum_cons

@[simp] theorem total_append : total (A ++ B) = total A + total B := by
  simp [total]

/-- The entries with the times at which they are due, when the first delay counts from
`t`. -/
def due : Nat → Deltas α → List (α × Nat)
  | _, [] => []
  | t, (a, d) :: D => (a, t + d) :: due (t + d) D

@[simp] theorem due_nil : due t ([] : Deltas α) = [] := rfl

@[simp] theorem due_cons : due t ((a, d) :: D) = (a, t + d) :: due (t + d) D := rfl

/-- Every entry has a time. -/
theorem map_fst_due : (due t D).map Prod.fst = D.map Prod.fst := by
  induction D generalizing t with
  | nil => rfl
  | cons e D ih =>
      rw [due, List.map_cons, ih]
      rfl

/-- With the first delay counted from one later, every entry is due one later. -/
theorem mem_due_succ {e : α × Nat} : (e.1, e.2 + 1) ∈ due (t + 1) D ↔ e ∈ due t D := by
  induction D generalizing t with
  | nil => simp
  | cons b D ih =>
      obtain ⟨b, c⟩ := b
      have hsum : t + 1 + c = t + c + 1 := by omega
      rw [due_cons, due_cons, List.mem_cons, List.mem_cons, hsum, ih, Prod.ext_iff, Prod.ext_iff]
      exact or_congr (and_congr Iff.rfl Nat.succ_inj) Iff.rfl

/-! ## Entering an entry -/

/-- Enter `x`, due `n` from now, in front of the first entry that is due no earlier. -/
def insert (x : α) : Nat → Deltas α → Deltas α
  | n, [] => [(x, n)]
  | n, (a, d) :: D =>
    if d < n then (a, d) :: insert x (n - d) D else (x, n) :: (a, d - n) :: D

/-- The entries that are due earlier are passed. -/
theorem insert_append (h : total A < n) : insert x n (A ++ B) = A ++ insert x (n - total A) B := by
  induction A generalizing n with
  | nil => simp
  | cons e A ih =>
      obtain ⟨a, d⟩ := e
      rw [total_cons] at h
      have hd : d < n := by omega
      have hA : total A < n - d := by omega
      rw [List.cons_append, insert, if_pos hd, ih hA, total_cons, Nat.sub_sub, List.cons_append]

/-- The other times stay as they are. -/
theorem due_insert : due t (insert x n D)
    = (due t D).takeWhile (·.2 < t + n) ++ (x, t + n) :: (due t D).dropWhile (·.2 < t + n) := by
  induction D generalizing t n with
  | nil => simp [insert]
  | cons e D ih =>
      obtain ⟨a, d⟩ := e
      unfold insert
      split
      · rename_i hlt
        have hsum : t + d + (n - d) = t + n := by omega
        have hdec : t + d < t + n := by omega
        simp only [due_cons, ih, hsum, List.takeWhile_cons, List.dropWhile_cons, hdec,
          decide_true, if_true, List.cons_append]
      · rename_i hlt
        have hsum : t + n + (d - n) = t + d := by omega
        have hdec : ¬ t + d < t + n := by omega
        simp only [due_cons, hsum, List.takeWhile_cons, List.dropWhile_cons, hdec, decide_false,
          Bool.false_eq_true, if_false, List.nil_append]

theorem mem_due_insert {e : α × Nat} :
    e ∈ due t (insert x n D) ↔ e = (x, t + n) ∨ e ∈ due t D := by
  have hsplit := List.takeWhile_append_dropWhile (p := (·.2 < t + n)) (l := due t D)
  rw [due_insert, List.mem_append, List.mem_cons, or_left_comm, ← List.mem_append, hsplit]

/-- The entries in front of `x` and behind it. -/
theorem insert_split : ∃ l₁ l₂, D.map Prod.fst = l₁ ++ l₂ ∧
    (insert x n D).map Prod.fst = l₁ ++ x :: l₂ := by
  have hsplit := List.takeWhile_append_dropWhile (p := (·.2 < 0 + n)) (l := due 0 D)
  refine ⟨((due 0 D).takeWhile (·.2 < 0 + n)).map Prod.fst,
    ((due 0 D).dropWhile (·.2 < 0 + n)).map Prod.fst, ?_, ?_⟩
  · rw [← List.map_append, hsplit, map_fst_due]
  · rw [← map_fst_due (t := 0), due_insert, List.map_append, List.map_cons]

/-- No delay grows, and that of `x` is at most `n`. -/
theorem insert_le {e : α × Nat} (he : e ∈ insert x n D) :
    (e.1 = x ∧ e.2 ≤ n) ∨ ∃ d, (e.1, d) ∈ D ∧ e.2 ≤ d := by
  induction D generalizing n with
  | nil =>
      obtain rfl := List.mem_singleton.mp he
      exact .inl ⟨rfl, Nat.le_refl _⟩
  | cons b D ih =>
      obtain ⟨a, d⟩ := b
      unfold insert at he
      split at he
      · rcases List.mem_cons.mp he with rfl | he
        · exact .inr ⟨d, List.mem_cons_self, Nat.le_refl _⟩
        · rcases ih he with ⟨hx, hle⟩ | ⟨d', hd', hle⟩
          · exact .inl ⟨hx, Nat.le_trans hle (Nat.sub_le _ _)⟩
          · exact .inr ⟨d', List.mem_cons_of_mem _ hd', hle⟩
      · rcases List.mem_cons.mp he with rfl | he
        · exact .inl ⟨rfl, Nat.le_refl _⟩
        rcases List.mem_cons.mp he with rfl | he
        · exact .inr ⟨d, List.mem_cons_self, Nat.sub_le _ _⟩
        · exact .inr ⟨e.2, List.mem_cons_of_mem _ he, Nat.le_refl _⟩

theorem total_insert : total (insert x n D) = max n (total D) := by
  induction D generalizing n with
  | nil => simp [insert]
  | cons e D ih =>
      obtain ⟨a, d⟩ := e
      unfold insert
      split
      · rw [total_cons, total_cons, ih]
        omega
      · rw [total_cons, total_cons, total_cons]
        omega

/-! ## Letting time pass -/

/-- Count the first entry down. -/
def countDown : Deltas α → Deltas α
  | [] => []
  | (a, d) :: D => (a, d - 1) :: D

/-- The entries at the front with nothing to go. -/
def expired (D : Deltas α) : Deltas α := D.takeWhile (·.2 = 0)

/-- The entries behind those. -/
def remaining (D : Deltas α) : Deltas α := D.dropWhile (·.2 = 0)

theorem expired_append_remaining (D : Deltas α) : expired D ++ remaining D = D :=
  List.takeWhile_append_dropWhile

theorem expired_cons (h : d = 0) : expired ((a, d) :: D) = (a, d) :: expired D := by
  simp [expired, h]

theorem remaining_cons (h : d = 0) : remaining ((a, d) :: D) = remaining D := by
  simp [remaining, h]

theorem expired_cons_pos (h : d ≠ 0) : expired ((a, d) :: D) = [] := by
  simp [expired, h]

theorem remaining_cons_pos (h : d ≠ 0) : remaining ((a, d) :: D) = (a, d) :: D := by
  simp [remaining, h]

/-- No entry is due before the time that is counted from. -/
theorem le_of_mem_due {e : α × Nat} (he : e ∈ due t D) : t ≤ e.2 := by
  induction D generalizing t with
  | nil => cases he
  | cons b D ih =>
      obtain ⟨a, d⟩ := b
      rcases List.mem_cons.mp he with rfl | he
      · exact Nat.le_add_right t d
      · exact Nat.le_trans (Nat.le_add_right t d) (ih he)

/-- The entries with nothing to go are those that are due now. -/
theorem mem_due_remaining {e : α × Nat} :
    e ∈ due t (remaining D) ↔ e ∈ due t D ∧ t < e.2 := by
  induction D with
  | nil => simp [remaining]
  | cons b D ih =>
      obtain ⟨a, d⟩ := b
      by_cases hd : d = 0
      · subst hd
        rw [remaining_cons rfl, ih, due_cons, List.mem_cons]
        refine and_congr_left fun hlt => (or_iff_right ?_).symm
        rintro rfl
        exact absurd hlt (Nat.lt_irrefl t)
      · rw [remaining_cons_pos hd]
        refine (and_iff_left_of_imp fun he => ?_).symm
        have hge : t + d ≤ e.2 := by
          rcases List.mem_cons.mp he with rfl | he
          · exact Nat.le_refl _
          · exact le_of_mem_due he
        omega

/-- What is left has some time to go. -/
theorem head_remaining {D' : Deltas α} (h : remaining D = (a, d) :: D') : 0 < d := by
  have hp := List.head_dropWhile_not (p := fun e : α × Nat => decide (e.2 = 0)) (l := D)
  have hne : D.dropWhile (fun e : α × Nat => decide (e.2 = 0)) ≠ [] := by
    show remaining D ≠ []
    rw [h]
    exact List.cons_ne_nil _ _
  have hhead : (D.dropWhile (fun e : α × Nat => decide (e.2 = 0))).head hne = (a, d) := by
    have : D.dropWhile (fun e : α × Nat => decide (e.2 = 0)) = (a, d) :: D' := h
    simp only [this, List.head_cons]
  have := hp hne
  rw [hhead] at this
  simp only [decide_eq_false_iff_not] at this
  exact Nat.pos_of_ne_zero this

/-- Counting the first entry down brings every entry closer by one. -/
theorem mem_due_countDown (hd : 0 < d) {e : α × Nat} :
    e ∈ due t (countDown ((a, d) :: D)) ↔ (e.1, e.2 + 1) ∈ due t ((a, d) :: D) := by
  have hsum : t + d = t + (d - 1) + 1 := by omega
  rw [countDown, due_cons, due_cons, List.mem_cons, List.mem_cons, hsum, mem_due_succ,
    Prod.ext_iff, Prod.ext_iff]
  exact or_congr (and_congr Iff.rfl Nat.succ_inj.symm) Iff.rfl

/-- With the entries gone that are due now, counting down brings every other one closer by one. -/
theorem mem_due_countDown_remaining {e : α × Nat} :
    e ∈ due 0 (countDown (remaining D)) ↔ (e.1, e.2 + 1) ∈ due 0 D := by
  have hleft : (e.1, e.2 + 1) ∈ due 0 D ↔ (e.1, e.2 + 1) ∈ due 0 (remaining D) :=
    (mem_due_remaining.trans (and_iff_left (Nat.succ_pos e.2))).symm
  rw [hleft]
  cases hR : remaining D with
  | nil => simp [countDown]
  | cons b R =>
      obtain ⟨a, d⟩ := b
      exact mem_due_countDown (head_remaining hR)

theorem total_countDown : (countDown D).total ≤ D.total := by
  cases D with
  | nil => exact Nat.le_refl _
  | cons e D =>
      obtain ⟨a, d⟩ := e
      rw [countDown, total_cons, total_cons]
      omega

theorem total_remaining : (remaining D).total ≤ D.total := by
  have h : (expired D).total + (remaining D).total = D.total := by
    rw [← total_append, expired_append_remaining]
  omega

end Deltas
end Lib
