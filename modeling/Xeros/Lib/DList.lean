import Xeros.Lib.Chain

/-!
# Doubly linked lists

`DList next prev e x l`: following `next` from the pointer `x` one meets exactly
the nodes of `l`, and each of them points back with `prev` to the one before it,
the first one to `e`. The two updates that an allocator makes, cutting a node out
and putting another in its place, are described by what they do to the two link
maps.
-/

namespace Lib

variable {α : Type*}

/-- The nodes of `l` are linked in both directions. -/
def DList (next prev : α → Option α) : Option α → Option α → List α → Prop
  | _, x, [] => x = none
  | e, x, b :: l => x = some b ∧ prev b = e ∧ DList next prev (some b) (next b) l

namespace DList

variable {next prev next' prev' : α → Option α} {e x : Option α} {l l₁ l₂ : List α} {p r : α}

theorem cons_iff {b : α} : DList next prev e x (b :: l) ↔
    x = some b ∧ prev b = e ∧ DList next prev (some b) (next b) l := Iff.rfl

/-- Read forwards it is a chain. -/
theorem chain (h : DList next prev e x l) : Chain next x l := by
  induction l generalizing e x with
  | nil => exact h
  | cons b l ih => exact ⟨h.1, ih h.2.2⟩

/-- Only the links of the members matter. -/
theorem congr (h : DList next prev e x l) (hn : ∀ b ∈ l, next' b = next b)
    (hp : ∀ b ∈ l, prev' b = prev b) : DList next' prev' e x l := by
  induction l generalizing e x with
  | nil => exact h
  | cons b l ih =>
      obtain ⟨hx, he, hl⟩ := h
      refine ⟨hx, (hp b List.mem_cons_self).trans he, ?_⟩
      rw [hn b List.mem_cons_self]
      exact ih hl (fun c hc => hn c (List.mem_cons_of_mem _ hc))
        fun c hc => hp c (List.mem_cons_of_mem _ hc)

/-- A node points back to the last node before it. -/
theorem prev_eq (h : DList next prev e x (l₁ ++ p :: l₂)) :
    prev p = (l₁.getLast?).or e := by
  induction l₁ generalizing e x with
  | nil => exact h.2.1
  | cons b l₁ ih =>
      rw [ih h.2.2]
      cases hl : l₁.getLast? with
      | none =>
          rw [List.getLast?_eq_none_iff.mp hl]
          simp
      | some c => simp [List.getLast?_cons, hl]

/-- The first node alone points back to nothing. -/
theorem first_iff (h : DList next prev none x (l₁ ++ p :: l₂)) : prev p = none ↔ l₁ = [] := by
  rw [h.prev_eq, Option.or_none, List.getLast?_eq_none_iff]

/-- A node points forward to the first node behind it. -/
theorem next_eq (h : DList next prev e x (l₁ ++ p :: l₂)) : next p = l₂.head? := by
  induction l₁ generalizing e x with
  | nil =>
      obtain ⟨-, -, h⟩ := h
      cases l₂ with
      | nil => exact h
      | cons c l₂ => exact h.1
  | cons b l₁ ih => exact ih h.2.2

section Edit

variable [DecidableEq α]

/-- The part from a pointer on, with the first node pointing back to `e'`. -/
theorem turn_back {e' : Option α} (h : DList next prev e x l) (hn : l.Nodup)
    (hnext : ∀ b ∈ l, next' b = next b)
    (hprev : ∀ b ∈ l, prev' b = if x = some b then e' else prev b) :
    DList next' prev' e' x l := by
  cases l with
  | nil => exact h
  | cons b l =>
      obtain ⟨hx, -, hl⟩ := h
      obtain ⟨hb, -⟩ := List.nodup_cons.mp hn
      refine ⟨hx, ?_, ?_⟩
      · rw [hprev b List.mem_cons_self, if_pos hx]
      · rw [hnext b List.mem_cons_self]
        refine hl.congr (fun c hc => hnext c (List.mem_cons_of_mem _ hc)) fun c hc => ?_
        rw [hprev c (List.mem_cons_of_mem _ hc), if_neg]
        rw [hx, Option.some.injEq]
        rintro rfl
        exact hb hc

/-- The node `p` gives way to the nodes `m`: the node before it is linked to `y` and the
node behind it points back to `z`. -/
theorem edit {y z : Option α} {m : List α} (h : DList next prev e x (l₁ ++ p :: l₂))
    (hn : (l₁ ++ p :: l₂).Nodup) (he : ∀ b ∈ l₁ ++ l₂, e ≠ some b)
    (hnext : ∀ b ∈ l₁ ++ l₂, next' b = if prev p = some b then y else next b)
    (hprev : ∀ b ∈ l₁ ++ l₂, prev' b = if next p = some b then z else prev b)
    (hm : DList next' prev' z (next p) l₂ → DList next' prev' (prev p) y (m ++ l₂)) :
    DList next' prev' e (if l₁ = [] then y else x) (l₁ ++ (m ++ l₂)) := by
  induction l₁ generalizing e x with
  | nil =>
      obtain ⟨-, hp, htail⟩ := h
      have hmid : DList next' prev' (prev p) y (m ++ l₂) := by
        refine hm (htail.turn_back (List.nodup_cons.mp hn).2 (fun b hb => ?_) hprev)
        rw [hnext b hb, hp, if_neg (he b hb)]
      rw [hp] at hmid
      simpa using hmid
  | cons b l₁ ih =>
      have hfirst := h.next_eq
      obtain ⟨hx, hb, htail⟩ := h
      obtain ⟨hbn, hn⟩ := List.nodup_cons.mp hn
      have hb₁ : b ∉ l₁ := fun hm => hbn (List.mem_append_left _ hm)
      have hb₂ : b ∉ l₂ := fun hm => hbn (List.mem_append_right _ (List.mem_cons_of_mem _ hm))
      have hbl : b ∉ l₁ ++ l₂ := fun hm => (List.mem_append.mp hm).elim hb₁ hb₂
      have hne : ∀ c ∈ l₁ ++ l₂, some b ≠ some c := by
        rintro c hc ⟨rfl⟩
        exact hbl hc
      have hrest := ih htail hn hne (fun c hc => hnext c (List.mem_cons_of_mem _ hc))
        fun c hc => hprev c (List.mem_cons_of_mem _ hc)
      rw [if_neg (List.cons_ne_nil b l₁)]
      refine ⟨hx, ?_, ?_⟩
      · rw [hprev b List.mem_cons_self, if_neg, hb]
        -- the node behind `p` is not `b`
        rw [hfirst]
        exact fun h => hb₂ (List.mem_of_mem_head? h)
      · have hlast : prev p = l₁.getLast?.or (some b) := htail.prev_eq
        have hiff : prev p = some b ↔ l₁ = [] := by
          rw [hlast]
          cases hl : l₁.getLast? with
          | none => simp [List.getLast?_eq_none_iff.mp hl]
          | some c =>
              have hc := List.mem_of_getLast? hl
              refine iff_of_false ?_ (List.ne_nil_of_mem hc)
              rw [Option.some_or, Option.some.injEq]
              rintro rfl
              exact hb₁ hc
        rw [hnext b List.mem_cons_self]
        simp only [hiff]
        exact hrest

/-- Cutting out the node `p`. -/
theorem cut (h : DList next prev none x (l₁ ++ p :: l₂)) (hn : (l₁ ++ p :: l₂).Nodup)
    (hnext : ∀ b ∈ l₁ ++ l₂, next' b = if prev p = some b then next p else next b)
    (hprev : ∀ b ∈ l₁ ++ l₂, prev' b = if next p = some b then prev p else prev b) :
    DList next' prev' none (if prev p = none then next p else x) (l₁ ++ l₂) := by
  have hedit := h.edit (m := []) hn (fun _ _ => nofun) hnext hprev fun h => h
  simp only [h.first_iff]
  exact hedit

/-- Putting the node `r` in the place of `p`. -/
theorem replace (h : DList next prev none x (l₁ ++ p :: l₂)) (hn : (l₁ ++ p :: l₂).Nodup)
    (hnr : next' r = next p) (hpr : prev' r = prev p)
    (hnext : ∀ b ∈ l₁ ++ l₂, next' b = if prev p = some b then some r else next b)
    (hprev : ∀ b ∈ l₁ ++ l₂, prev' b = if next p = some b then some r else prev b) :
    DList next' prev' none (if prev p = none then some r else x) (l₁ ++ r :: l₂) := by
  have hedit := h.edit (m := [r]) hn (fun _ _ => nofun) hnext hprev
    fun ht => ⟨rfl, hpr, hnr ▸ ht⟩
  simp only [h.first_iff]
  exact hedit

end Edit

end DList
end Lib
