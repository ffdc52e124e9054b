import Mathlib.Data.List.Induction

/-!
# Held keys

A sequence of events, each of which presses or releases a key. A key is held if the latest of
its events is a press. A flag that several keys share follows the latest event of any of them.
It says whether one of them is held, unless one was released last while another is held.
-/

namespace Lib

variable {κ ε : Type*} (key : ε → κ) (down : ε → Bool)

/-- The latest event that meets `P` is a press. -/
def pressed (P : ε → Bool) (es : List ε) : Bool := (es.reverse.find? P).any down

/-- The latest event of the key `k` is a press. -/
def held [DecidableEq κ] (k : κ) (es : List ε) : Bool := pressed down (fun e => key e = k) es

/-- The latest event of a key in `S` is a press. -/
def flagged (S : κ → Bool) (es : List ε) : Bool := pressed down (fun e => S (key e)) es

/-- A key in `S` was released while another one in `S` was held, and no key in `S` has been
pressed or released since. -/
def Masked [DecidableEq κ] (S : κ → Bool) (es : List ε) : Prop :=
  ∃ es₁ e es₂, es = es₁ ++ e :: es₂ ∧ S (key e) ∧ down e = false ∧
    (∃ k, S k ∧ k ≠ key e ∧ held key down k es₁) ∧ ∀ e' ∈ es₂, ¬ S (key e')

variable {key : ε → κ} {down : ε → Bool} {es : List ε} {e : ε} {S : κ → Bool} {k : κ}

@[simp] theorem pressed_nil {P : ε → Bool} : pressed down P [] = false := rfl

/-- One more event counts if it meets `P`. -/
theorem pressed_snoc {P : ε → Bool} :
    pressed down P (es ++ [e]) = if P e then down e else pressed down P es := by
  unfold pressed
  rw [List.reverse_append, List.reverse_singleton, List.singleton_append, List.find?_cons]
  cases P e with
  | true => rfl
  | false => rfl

theorem flagged_snoc :
    flagged key down S (es ++ [e]) = if S (key e) then down e else flagged key down S es :=
  pressed_snoc

variable [DecidableEq κ]

theorem held_snoc :
    held key down k (es ++ [e]) = if key e = k then down e else held key down k es := by
  unfold held
  rw [pressed_snoc]
  by_cases h : key e = k
  · rw [if_pos h, if_pos (decide_eq_true h)]
  · rw [if_neg h, if_neg (by rw [decide_eq_true_eq]; exact h)]

theorem masked_snoc : Masked key down S (es ++ [e]) ↔
    if S (key e) then down e = false ∧ ∃ k, S k ∧ k ≠ key e ∧ held key down k es
    else Masked key down S es := by
  constructor
  · rintro ⟨es₁, e', es₂, hes, hS, hup, hheld, hsince⟩
    rcases List.eq_nil_or_concat es₂ with rfl | ⟨es₃, e'', rfl⟩
    · obtain ⟨rfl, he⟩ := List.append_inj' hes rfl
      obtain rfl := List.singleton_inj.mp he
      rw [if_pos hS]
      exact ⟨hup, hheld⟩
    · rw [List.concat_eq_append, ← List.cons_append, ← List.append_assoc] at hes
      obtain ⟨rfl, he⟩ := List.append_inj' hes rfl
      obtain rfl := List.singleton_inj.mp he
      rw [if_neg (hsince e (by simp))]
      exact ⟨es₁, e', es₃, rfl, hS, hup, hheld, fun x hx => hsince x (by simp [hx])⟩
  · intro h
    split at h
    · rename_i hS
      exact ⟨es, e, [], rfl, hS, h.1, h.2, fun x hx => absurd hx List.not_mem_nil⟩
    · rename_i hS
      obtain ⟨es₁, e', es₂, rfl, hS', hup, hheld, hsince⟩ := h
      refine ⟨es₁, e', es₂ ++ [e], by simp, hS', hup, hheld, fun x hx => ?_⟩
      rcases List.mem_append.mp hx with hx | hx
      · exact hsince x hx
      · obtain rfl := List.mem_singleton.mp hx
        exact hS

/-- One more event, of a key in `S`. -/
theorem exists_held_snoc (hS : S (key e)) : (∃ k, S k ∧ held key down k (es ++ [e])) ↔
    down e ∨ ∃ k, S k ∧ k ≠ key e ∧ held key down k es := by
  constructor
  · rintro ⟨k, hk, hheld⟩
    rw [held_snoc] at hheld
    split at hheld
    · exact .inl hheld
    · rename_i hne
      exact .inr ⟨k, hk, fun he => hne he.symm, hheld⟩
  · rintro (hd | ⟨k, hk, hne, hheld⟩)
    · exact ⟨key e, hS, by rw [held_snoc, if_pos rfl]; exact hd⟩
    · exact ⟨k, hk, by rw [held_snoc, if_neg fun he => hne he.symm]; exact hheld⟩

/-- One more event, of another key. -/
theorem exists_held_snoc_of_not (hS : ¬ S (key e)) :
    (∃ k, S k ∧ held key down k (es ++ [e])) ↔ ∃ k, S k ∧ held key down k es := by
  refine exists_congr fun k => and_congr_right fun hk => ?_
  rw [held_snoc, if_neg]
  rintro rfl
  exact hS hk

/-- The flag says that a key is held, unless one that is held is masked. -/
theorem exists_held_iff :
    (∃ k, S k ∧ held key down k es) ↔ flagged key down S es ∨ Masked key down S es := by
  induction es using List.reverseRecOn with
  | nil =>
      refine iff_of_false ?_ ?_
      · rintro ⟨k, -, hheld⟩
        cases hheld
      · rintro (hflag | ⟨es₁, e, es₂, hes, -⟩)
        · cases hflag
        · exact absurd hes (by simp)
  | append_singleton es e ih =>
      rw [flagged_snoc, masked_snoc]
      by_cases hS : S (key e)
      · rw [exists_held_snoc hS, if_pos hS, if_pos hS]
        cases down e with
        | true => simp
        | false => simp
      · rw [exists_held_snoc_of_not hS, if_neg hS, if_neg hS]
        exact ih

/-- What is set is not masked. -/
theorem not_masked_of_flagged (h : flagged key down S es) : ¬ Masked key down S es := by
  induction es using List.reverseRecOn with
  | nil => cases h
  | append_singleton es e ih =>
      rw [flagged_snoc] at h
      rw [masked_snoc]
      split at h
      · rename_i hS
        rw [if_pos hS, h]
        rintro ⟨⟨⟩, -⟩
      · rename_i hS
        rw [if_neg hS]
        exact ih h

/-- The flag says whether one of its keys is held, exactly if none is masked. -/
theorem flagged_iff_held_iff :
    (flagged key down S es ↔ ∃ k, S k ∧ held key down k es) ↔ ¬ Masked key down S es := by
  rw [exists_held_iff]
  constructor
  · intro h hm
    exact not_masked_of_flagged (h.mpr (.inr hm)) hm
  · intro hm
    rw [or_iff_left hm]

end Lib
