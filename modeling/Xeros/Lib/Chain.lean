import Mathlib.Data.List.Nodup
import Mathlib.Logic.Function.Basic

/-!
# Singly linked lists threaded through a `next` map

`Seg next o l e`: starting at the pointer `o` and following `next`, one meets
exactly the elements of `l`, in order, and then the pointer `e`. `Chain next o l`
is the segment that ends in the null pointer: the linked list that `o` heads.
A chain is finite by definition, and a duplicate-free one is an acyclic list.
The lemmas say what the usual pointer updates (appending a node, cutting the
head off, cutting a node out, splicing one in) do to the list represented.
-/

namespace Lib

variable {α : Type*}

/-- From the pointer `o`, following `next` meets exactly `l` and then `e`. -/
def Seg (next : α → Option α) : Option α → List α → Option α → Prop
  | o, [], e => o = e
  | o, a :: l, e => o = some a ∧ Seg next (next a) l e

/-- The list `l` is linked from the pointer `o` through `next`. -/
def Chain (next : α → Option α) (o : Option α) (l : List α) : Prop :=
  Seg next o l none

namespace Seg

variable {next : α → Option α} {o e : Option α}

@[simp] theorem nil_iff : Seg next o [] e ↔ o = e := Iff.rfl

@[simp] theorem cons_iff {a : α} {l : List α} :
    Seg next o (a :: l) e ↔ o = some a ∧ Seg next (next a) l e := Iff.rfl

/-- Segments compose. -/
theorem append_iff {l₁ l₂ : List α} :
    Seg next o (l₁ ++ l₂) e ↔ ∃ m, Seg next o l₁ m ∧ Seg next m l₂ e := by
  induction l₁ generalizing o with
  | nil => simp
  | cons a l₁ ih =>
      simp only [List.cons_append, cons_iff, ih]
      constructor
      · rintro ⟨ho, m, h₁, h₂⟩
        exact ⟨m, ⟨ho, h₁⟩, h₂⟩
      · rintro ⟨m, ⟨ho, h₁⟩, h₂⟩
        exact ⟨ho, m, h₁, h₂⟩

/-- The last node of a segment holds the end pointer. -/
theorem snoc_iff {l : List α} {a : α} :
    Seg next o (l ++ [a]) e ↔ Seg next o l (some a) ∧ next a = e := by
  rw [append_iff]
  constructor
  · rintro ⟨m, h₁, h₂⟩
    obtain ⟨rfl, h₂⟩ := h₂
    exact ⟨h₁, h₂⟩
  · rintro ⟨h₁, h₂⟩
    exact ⟨some a, h₁, rfl, h₂⟩

/-- Only the links of the members matter. -/
theorem congr {next' : α → Option α} {l : List α}
    (hl : ∀ a ∈ l, next' a = next a) (h : Seg next o l e) : Seg next' o l e := by
  induction l generalizing o with
  | nil => exact h
  | cons a l ih =>
      obtain ⟨ho, hc⟩ := h
      refine ⟨ho, ?_⟩
      rw [hl a List.mem_cons_self]
      exact ih (fun b hb => hl b (List.mem_cons_of_mem _ hb)) hc

/-- The list a pointer leads to, up to a given end outside it, is unique. -/
theorem unique {l₁ l₂ : List α} (h₁ : Seg next o l₁ none)
    (h₂ : Seg next o l₂ none) : l₁ = l₂ := by
  induction l₁ generalizing o l₂ with
  | nil =>
      cases l₂ with
      | nil => rfl
      | cons b l₂ => simp_all
  | cons a l₁ ih =>
      cases l₂ with
      | nil => simp_all
      | cons b l₂ =>
          obtain ⟨ho, h₁⟩ := h₁
          obtain ⟨hb, h₂⟩ := h₂
          rw [ho, Option.some.injEq] at hb
          subst hb
          rw [ih h₁ h₂]

end Seg

namespace Chain

variable {next : α → Option α} {o : Option α}

@[simp] theorem nil_iff : Chain next o [] ↔ o = none := Iff.rfl

@[simp] theorem cons_iff {a : α} {l : List α} :
    Chain next o (a :: l) ↔ o = some a ∧ Chain next (next a) l := Iff.rfl

/-- The null pointer heads the empty list only. -/
@[simp] theorem none_iff {l : List α} : Chain next none l ↔ l = [] := by
  cases l <;> simp

/-- A nonnull pointer heads a list that starts with the node it points to. -/
theorem some_iff {a : α} {l : List α} :
    Chain next (some a) l ↔ ∃ l', l = a :: l' ∧ Chain next (next a) l' := by
  cases l with
  | nil => simp
  | cons b l' =>
      simp only [cons_iff, Option.some.injEq, List.cons.injEq]
      constructor
      · rintro ⟨rfl, h⟩
        exact ⟨l', ⟨rfl, rfl⟩, h⟩
      · rintro ⟨l'', ⟨rfl, rfl⟩, h⟩
        exact ⟨rfl, h⟩

/-- The list a pointer heads is unique. -/
theorem unique {l₁ l₂ : List α} (h₁ : Chain next o l₁) (h₂ : Chain next o l₂) :
    l₁ = l₂ := Seg.unique h₁ h₂

/-- Only the links of the members matter. -/
theorem congr {next' : α → Option α} {l : List α}
    (hl : ∀ a ∈ l, next' a = next a) (h : Chain next o l) : Chain next' o l :=
  Seg.congr hl h

/-- A chain meets no node twice. -/
theorem nodup {l : List α} (h : Chain next o l) : l.Nodup := by
  induction l generalizing o with
  | nil => exact List.nodup_nil
  | cons a l ih =>
      refine List.nodup_cons.mpr ⟨fun ha => ?_, ih h.2⟩
      -- the list behind the second occurrence would be the whole one
      obtain ⟨l₁, l₂, rfl⟩ := List.append_of_mem ha
      obtain ⟨m, -, hm, h₂⟩ := Seg.append_iff.mp h.2
      have hrest : Chain next o (a :: l₂) := ⟨h.1, h₂⟩
      have hlen := congrArg List.length (h.unique hrest)
      simp only [List.length_cons, List.length_append] at hlen
      omega

/-- Appending the node `x`: the last node is linked to it, and it ends the
list. -/
theorem snoc {next' : α → Option α} {l : List α} {t x : α}
    (h : Chain next o (l ++ [t])) (hn : (l ++ [t]).Nodup)
    (hother : ∀ a, a ≠ t → next' a = next a)
    (hnt : next' t = some x) (hnx : next' x = none) :
    Chain next' o (l ++ [t] ++ [x]) := by
  rw [← List.concat_eq_append, List.nodup_concat] at hn
  obtain ⟨h₁, -⟩ := Seg.snoc_iff.mp h
  refine Seg.snoc_iff.mpr ⟨Seg.snoc_iff.mpr ⟨h₁.congr fun a ha => hother a ?_, hnt⟩, hnx⟩
  rintro rfl
  exact hn.1 ha

/-- A node occurs nowhere else in a list without duplicates. -/
theorem ne_of_nodup {l₁ l₂ : List α} {p b : α} (hn : (l₁ ++ [p] ++ l₂).Nodup)
    (hb : b ∈ l₁ ++ l₂) : b ≠ p := by
  rintro rfl
  rw [List.append_assoc, List.singleton_append, List.nodup_middle] at hn
  exact (List.nodup_cons.mp hn).1 hb

/-- Cutting `a` out: its predecessor `p` takes over its link. -/
theorem cut {next' : α → Option α} {l₁ l₂ : List α} {p a : α}
    (h : Chain next o (l₁ ++ [p] ++ a :: l₂)) (hn : (l₁ ++ [p] ++ a :: l₂).Nodup)
    (hother : ∀ b, b ≠ p → next' b = next b) (hnp : next' p = next a) :
    Chain next' o (l₁ ++ [p] ++ l₂) := by
  obtain ⟨m, h₁, h₂⟩ := Seg.append_iff.mp h
  obtain ⟨h₁, -⟩ := Seg.snoc_iff.mp h₁
  refine Seg.append_iff.mpr ⟨next a, Seg.snoc_iff.mpr ⟨?_, hnp⟩, ?_⟩
  · exact h₁.congr fun b hb => hother b (ne_of_nodup hn (List.mem_append_left _ hb))
  · exact h₂.2.congr fun b hb =>
      hother b (ne_of_nodup hn (List.mem_append_right _ (List.mem_cons_of_mem a hb)))

/-- Splicing `x` in behind `p`: it takes over the link of `p`. -/
theorem splice {next' : α → Option α} {l₁ l₂ : List α} {p x : α}
    (h : Chain next o (l₁ ++ [p] ++ l₂)) (hn : (l₁ ++ [p] ++ l₂).Nodup)
    (hx : x ∉ l₁ ++ [p] ++ l₂) (hother : ∀ b, b ≠ p → b ≠ x → next' b = next b)
    (hnp : next' p = some x) (hnx : next' x = next p) :
    Chain next' o (l₁ ++ [p] ++ x :: l₂) := by
  obtain ⟨m, h₁, h₂⟩ := Seg.append_iff.mp h
  obtain ⟨hp, hm⟩ := Seg.snoc_iff.mp h₁
  subst hm
  have hsame : ∀ b ∈ l₁ ++ l₂, next' b = next b := by
    intro b hb
    refine hother b (ne_of_nodup hn hb) ?_
    rintro rfl
    rw [List.append_assoc, List.mem_append, List.singleton_append, List.mem_cons] at hx
    exact hx ((List.mem_append.mp hb).imp_right .inr)
  refine Seg.append_iff.mpr ⟨some x, Seg.snoc_iff.mpr ⟨?_, hnp⟩, rfl, ?_⟩
  · exact hp.congr fun b hb => hsame b (List.mem_append_left _ hb)
  · rw [hnx]
    exact h₂.congr fun b hb => hsame b (List.mem_append_right _ hb)

end Chain
end Lib
