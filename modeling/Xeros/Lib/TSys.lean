import Mathlib.Logic.Relation

/-!
# Labelled transition systems

States, labelled steps, runs, and the induction rules that the development
uses. A run may be constrained: `Path C s t` is a run from `s` to `t` all of
whose steps meet the condition `C`, so that "in every run whose steps meet
`C`" is a statement about `ReachableUnder C` and "in every run" is its
instance at the trivial condition.
-/

namespace Lib

universe u v

/-- A labelled transition system. -/
structure TSys (σ : Type u) (α : Type v) where
  /-- Initial states. -/
  init : σ → Prop
  /-- `step s a t`: the step labelled `a` leads from `s` to `t`. -/
  step : σ → α → σ → Prop

namespace TSys

variable {σ : Type u} {α : Type v} (T : TSys σ α)

/-- The condition every step meets. -/
def anyStep : σ → α → Prop := fun _ _ => True

/-- A run from `s` all of whose steps meet `C`. -/
inductive Path (C : σ → α → Prop) (s : σ) : σ → Prop
  | refl : Path C s s
  | tail {t u : σ} {a : α} : Path C s t → C t a → T.step t a u → Path C s u

/-- The states reached by runs all of whose steps meet `C`. -/
def ReachableUnder (C : σ → α → Prop) (s : σ) : Prop :=
  ∃ s₀, T.init s₀ ∧ T.Path C s₀ s

/-- The states reached by runs. -/
def Reachable (s : σ) : Prop := T.ReachableUnder anyStep s

/-- `I` holds initially and every step that meets `C` keeps it. -/
structure Inductive (C : σ → α → Prop) (I : σ → Prop) : Prop where
  init : ∀ s, T.init s → I s
  step : ∀ s a t, I s → C s a → T.step s a t → I t

variable {T}

/-- A run keeps what each of its steps keeps. -/
theorem Path.preserves {C : σ → α → Prop} {I : σ → Prop} {s t : σ}
    (hp : T.Path C s t) (hs : I s)
    (hstep : ∀ s a t, I s → C s a → T.step s a t → I t) : I t := by
  induction hp with
  | refl => exact hs
  | tail _ hc hst ih => exact hstep _ _ _ ih hc hst

/-- An inductive predicate holds in every state the constrained runs reach. -/
theorem Inductive.holds {C : σ → α → Prop} {I : σ → Prop}
    (h : T.Inductive C I) {s : σ} (hs : T.ReachableUnder C s) : I s := by
  obtain ⟨s₀, h₀, hp⟩ := hs
  exact hp.preserves (h.init s₀ h₀) h.step

/-- Weakening the condition on the steps. -/
theorem Path.mono {C D : σ → α → Prop} (hCD : ∀ s a, C s a → D s a) {s t : σ}
    (hp : T.Path C s t) : T.Path D s t := by
  induction hp with
  | refl => exact .refl
  | tail _ hc hst ih => exact .tail ih (hCD _ _ hc) hst

/-- A constrained run is a run. -/
theorem ReachableUnder.reachable {C : σ → α → Prop} {s : σ}
    (h : T.ReachableUnder C s) : T.Reachable s := by
  obtain ⟨s₀, h₀, hp⟩ := h
  exact ⟨s₀, h₀, hp.mono fun _ _ _ => trivial⟩

/-- Weakening the condition on the steps of the run that reaches a state. -/
theorem ReachableUnder.mono {C D : σ → α → Prop} (hCD : ∀ s a, C s a → D s a)
    {s : σ} (h : T.ReachableUnder C s) : T.ReachableUnder D s := by
  obtain ⟨s₀, h₀, hp⟩ := h
  exact ⟨s₀, h₀, hp.mono hCD⟩

/-- One more step. -/
theorem ReachableUnder.tail {C : σ → α → Prop} {s t : σ} {a : α}
    (h : T.ReachableUnder C s) (hc : C s a) (hst : T.step s a t) :
    T.ReachableUnder C t := by
  obtain ⟨s₀, h₀, hp⟩ := h
  exact ⟨s₀, h₀, hp.tail hc hst⟩

/-- Runs compose. -/
theorem Path.trans {C : σ → α → Prop} {s t u : σ}
    (h₁ : T.Path C s t) (h₂ : T.Path C t u) : T.Path C s u := by
  induction h₂ with
  | refl => exact h₁
  | tail _ hc hst ih => exact ih.tail hc hst

/-- A run from a reachable state ends in a reachable state. -/
theorem ReachableUnder.path {C : σ → α → Prop} {s t : σ}
    (h : T.ReachableUnder C s) (hp : T.Path C s t) : T.ReachableUnder C t := by
  obtain ⟨s₀, h₀, hp₀⟩ := h
  exact ⟨s₀, h₀, hp₀.trans hp⟩

/-- A map of states that carries steps to steps carries runs to runs. -/
theorem Path.map {τ : Type*} {U : TSys τ α} {C : σ → α → Prop} {D : τ → α → Prop}
    {f : σ → τ} (hC : ∀ s a, C s a → D (f s) a)
    (hstep : ∀ s a t, T.step s a t → U.step (f s) a (f t)) {s t : σ}
    (hp : T.Path C s t) : U.Path D (f s) (f t) := by
  induction hp with
  | refl => exact .refl
  | tail _ hc hst ih => exact ih.tail (hC _ _ hc) (hstep _ _ _ hst)

/-- A run is lifted along a map of states when each of its steps is. -/
theorem Path.lift {τ : Type*} {U : TSys τ α} {C : σ → α → Prop} {f : τ → σ}
    (hstep : ∀ s a t, T.step (f s) a t → ∃ t', f t' = t ∧ U.step s a t') {s : τ} {t : σ}
    (hp : T.Path C (f s) t) : ∃ t', f t' = t ∧ U.Path (fun s a => C (f s) a) s t' := by
  induction hp with
  | refl => exact ⟨s, rfl, .refl⟩
  | tail _ hc hst ih =>
      obtain ⟨t', rfl, hp'⟩ := ih
      obtain ⟨u', hu, hst'⟩ := hstep _ _ _ hst
      exact ⟨u', hu, hp'.tail hc hst'⟩

end TSys
end Lib
