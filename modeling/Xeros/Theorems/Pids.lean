import Xeros.Logic.Asserts
import Xeros.Logic.Pids

/-!
# Pids lead back to their slots

The pid of a slot that has been used leads back to the slot, in every run, and no
pid comes up again before all the others of its slot have.
-/

namespace Xeros

open Lib

variable {s : Census} {q : Slot}

/-- The pid of a slot that has been used is the latest of its cycle. -/
theorem Enrolled.pid_eq (h : Enrolled s) (hq : s.given q ≠ []) :
    (s.d.k.proctab q).pid.toNat = pidAt q.val ((s.given q).length - 1) := by
  have hgiven := h.given q
  rw [h.pid q]
  cases hl : s.given q with
  | nil => exact absurd hl hq
  | cons v l =>
      rw [hl, List.length_cons, pidsOf_succ] at hgiven
      have hv : v = BitVec.ofNat 32 (pidAt q.val l.length) := (List.cons.inj hgiven).1
      have hlt := pidAt_lt l.length q.isLt
      have hmax : intMax.toNat = 2147483647 := by decide
      rw [List.head?_cons, Option.getD_some, hv, BitVec.toNat_ofNat, List.length_cons,
        Nat.add_sub_cancel]
      exact Nat.mod_eq_of_lt (by omega)

/-- The register of a slot holds a pid of the slot at every index. -/
theorem Enrolled.given_getElem (h : Enrolled s) {j : Nat} {v : Word}
    (hv : (s.given q)[j]? = some v) :
    j < (s.given q).length ∧ v.toNat = pidAt q.val ((s.given q).length - 1 - j) := by
  obtain ⟨hj, -⟩ := List.getElem?_eq_some_iff.mp hv
  refine ⟨hj, ?_⟩
  have hget := pidsOf_getElem q.val hj
  rw [← h.given q, hv, Option.some.injEq] at hget
  have hlt := pidAt_lt ((s.given q).length - 1 - j) q.isLt
  have hmax : intMax.toNat = 2147483647 := by decide
  rw [hget, BitVec.toNat_ofNat]
  exact Nat.mod_eq_of_lt (by omega)

/-- Between two entries of one pid every other pid of the slot is entered. -/
theorem Enrolled.reused (h : Enrolled s) {i j : Nat} {v w : Word} (hij : i < j)
    (hi : (s.given q)[i]? = some v) (hj : (s.given q)[j]? = some v)
    (hmod : w.toNat % maxProc = q.val) (hlt : w.toNat < intMax.toNat) (hne : w ≠ v) :
    ∃ l, i < l ∧ l < j ∧ (s.given q)[l]? = some w := by
  obtain ⟨hli, hvi⟩ := h.given_getElem hi
  obtain ⟨hlj, hvj⟩ := h.given_getElem hj
  obtain ⟨r, hr, hw⟩ := exists_pidAt hlt hmod
  generalize hn : (s.given q).length = n at *
  have hmeq : (n - 1 - j) % pidCount q.val = (n - 1 - i) % pidCount q.val := by
    have heq := hvi.symm.trans hvj
    simp only [pidAt, maxProc] at heq
    omega
  have hrne : r ≠ (n - 1 - j) % pidCount q.val := by
    intro he
    refine hne (BitVec.eq_of_toNat_eq ?_)
    rw [hw, hvj, pidAt, he]
  obtain ⟨c, hc₁, hc₂, hc₃⟩ := exists_between_cycle (by omega) hmeq hr hrne
  refine ⟨n - 1 - c, by omega, by omega, ?_⟩
  have hget := pidsOf_getElem q.val (n := n) (j := n - 1 - c) (by omega)
  have hgiven := h.given q
  rw [hn] at hgiven
  rw [hgiven, hget, Option.some.injEq]
  refine BitVec.eq_of_toNat_eq ?_
  have hpid : pidAt q.val (n - 1 - (n - 1 - c)) = w.toNat := by
    rw [show n - 1 - (n - 1 - c) = c by omega, pidAt, hc₃, hw]
  have hmax : intMax.toNat = 2147483647 := by decide
  rw [BitVec.toNat_ofNat, hpid]
  exact Nat.mod_eq_of_lt (by omega)

/-- The pid of a slot that has been used is one of the slot's pids. -/
theorem Enrolled.range (h : Enrolled s) (hq : s.given q ≠ []) :
    q ≠ 0 ∧ (s.d.k.proctab q).pid.toNat % maxProc = q.val ∧
      q.val ≤ (s.d.k.proctab q).pid.toNat ∧ (s.d.k.proctab q).pid.toNat < intMax.toNat := by
  rw [h.pid_eq hq]
  exact ⟨fun h0 => hq (h0 ▸ h.first), pidAt_mod _ q.isLt, pidAt_ge _, pidAt_lt _ q.isLt⟩

/-- It leads back to the slot. -/
theorem Enrolled.slotOf_pid (h : Enrolled s) (hq : s.given q ≠ []) :
    (s.d.k.proctab q).pid ≠ 0 ∧ slotOf (s.d.k.proctab q).pid = q := by
  obtain ⟨h0, hmod, -, -⟩ := h.range hq
  have hslot : slotOf (s.d.k.proctab q).pid = q := Fin.ext hmod
  refine ⟨fun hz => h0 ?_, hslot⟩
  rw [← hslot, hz]
  rfl

/-- The comparison that the kernel asserts: a slot that has never been used has the pid 0,
and so has the slot that 0 leads to. -/
theorem Enrolled.pid_slotOf (h : Enrolled s) (q : Slot) :
    (s.d.k.proctab q).pid = (s.d.k.proctab (slotOf (s.d.k.proctab q).pid)).pid := by
  by_cases hq : s.given q = []
  · rw [h.pid q, hq]
    have h0 := h.pid 0
    rw [h.first] at h0
    exact h0.symm
  · rw [(h.slotOf_pid hq).2]

/-- In a turn an assertion fails only where it does in the dispatcher. -/
theorem Sound.turn_assert {d : Disp} (hd : Sound d) {t : Trap}
    (h : Xeros.turn d t = .error .kassert) :
    (t.cause.request = .sleep ∧ (d.k.proctab d.p).next ≠ none) ∨
      ∃ k₁ q, CallsNext (contextswitch d.k d.p t) d.p t.ambient t.cause.request k₁ ∧
        k₁.head = some q ∧
        (k₁.proctab q).pid = (k₁.proctab (slotOf (k₁.proctab q).pid)).pid ∧
        (k₁.proctab q).state ≠ .ready := by
  have hg := contextswitch_good hd.good hd.used t
  have hu := contextswitch_used (p := d.p) hd.used t
  have hrun : ((contextswitch d.k d.p t).proctab d.p).state = .running := by
    rw [contextswitch_state]
    exact hd.running
  have hserve : serve (contextswitch d.k d.p t) d.p t.ambient t.cause.request
      = .error .kassert := by
    unfold Xeros.turn at h
    cases hs : serve (contextswitch d.k d.p t) d.p t.ambient t.cause.request with
    | error e =>
        rw [hs] at h
        cases h
        rfl
    | ok v =>
        rw [hs] at h
        cases h
  rcases serve_assert hg hu hrun hserve with ⟨hreq, hnext⟩ | hcall
  · refine .inl ⟨hreq, ?_⟩
    rwa [contextswitch_proctab, if_pos rfl, Pcb.enter_next] at hnext
  · exact .inr hcall

/-- In every run the pid of a slot that has been used leads back to the slot and is
below `INT_MAX`, no two slots share a pid, and the assertions that compare pids hold:
when a turn ends in a failed assertion, it is that of `SYS_SLEEP` on the link or that of
`next` on the state. A slot is given a pid again only when it has been given all its
other pids in between. -/
theorem pid_discipline (h : registrar.Reachable s) :
    (∀ q, s.given q ≠ [] → q ≠ 0 ∧ (s.d.k.proctab q).pid.toNat % maxProc = q.val ∧
      q.val ≤ (s.d.k.proctab q).pid.toNat ∧ (s.d.k.proctab q).pid.toNat < intMax.toNat) ∧
    (∀ q, s.given q ≠ [] → (s.d.k.proctab q).pid ≠ 0 ∧ slotOf (s.d.k.proctab q).pid = q) ∧
    (∀ q r, s.given q ≠ [] → s.given r ≠ [] → q ≠ r →
      (s.d.k.proctab q).pid ≠ (s.d.k.proctab r).pid) ∧
    (∀ q, (s.d.k.proctab q).pid
      = (s.d.k.proctab (slotOf (s.d.k.proctab q).pid)).pid) ∧
    (∀ t, turn s.d t = .error .kassert →
      (t.cause.request = .sleep ∧ (s.d.k.proctab s.d.p).next ≠ none) ∨
      ∃ k₁ q, CallsNext (contextswitch s.d.k s.d.p t) s.d.p t.ambient t.cause.request k₁ ∧
        k₁.head = some q ∧
        (k₁.proctab q).pid = (k₁.proctab (slotOf (k₁.proctab q).pid)).pid ∧
        (k₁.proctab q).state ≠ .ready) ∧
    (∀ (q : Slot) (i j : Nat) (v : Word), i < j → (s.given q)[i]? = some v →
      (s.given q)[j]? = some v → ∀ w : Word, w.toNat % maxProc = q.val →
      w.toNat < intMax.toNat → w ≠ v → ∃ l, i < l ∧ l < j ∧ (s.given q)[l]? = some w) := by
  have he := enrolled_of_reachable h
  refine ⟨fun _ => he.range, fun _ => he.slotOf_pid, fun q r hq hr hne hpid => hne ?_,
    he.pid_slotOf, fun _ => he.toSound.turn_assert,
    fun q i j v hij hi hj w hmod hlt hne => he.reused hij hi hj hmod hlt hne⟩
  rw [← (he.slotOf_pid hq).2, hpid, (he.slotOf_pid hr).2]

/-- The sample machine with its register: its root process makes two processes. -/
def census₀ : Census :=
  { d := sampleBoot
    given := fun q => if (sampleBoot.k.proctab q).pid = 0 then []
      else [(sampleBoot.k.proctab q).pid] }

@[inherit_doc census₀]
def census₁ : Census := (census₀.turn (sampleCall .create [0x1400, 0])).getD census₀

@[inherit_doc census₀]
def census₂ : Census := (census₁.turn (sampleCall .create [0x1500, 0])).getD census₁

theorem census₂_reachable : registrar.Reachable census₂ := by
  have h₀ : registrar.Reachable census₀ := ⟨_, ⟨sampleBoot_init, fun _ => rfl⟩, .refl⟩
  have h₁ := h₀.tail trivial (Run.eq_getD (s := census₀) (by decide +kernel) :
    census₀.turn (sampleCall .create [0x1400, 0]) = .ok census₁)
  exact h₁.tail trivial (Run.eq_getD (s := census₁) (by decide +kernel) :
    census₁.turn (sampleCall .create [0x1500, 0]) = .ok census₂)

/-- The second process is in slot 4. -/
theorem pid_discipline_of_two :
    census₂.given 4 = [4] ∧ (census₂.d.k.proctab 4).pid ≠ 0 ∧
      slotOf (census₂.d.k.proctab 4).pid = 4 := by
  have hgiven : census₂.given 4 = [4] := by decide +kernel
  exact ⟨hgiven, (pid_discipline census₂_reachable).2.1 4 (by rw [hgiven]; simp)⟩

end Xeros
