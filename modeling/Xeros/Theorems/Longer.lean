import Xeros.Theorems.Sleepers

/-!
# Longer sleeps

Two processes that go to sleep between the same two ticks wake up in the order of their ticks:
both are counted down by the same ticks from then on. The ticks are not in the order of the
durations, because the conversion multiplies before it divides.
-/

namespace Xeros

open Lib

variable {k : Kernel} {s s' s₁ s₂ : Nap} {p q r : Slot} {D : Deltas Slot} {m n ms : Word}
  {t t' : Nat}

/-! ## Two processes go to sleep -/

/-- `p` calls `sleep` for `m` milliseconds and then `q` for `n`, with no tick in between. -/
def SleepBoth (s : Nap) (p : Slot) (m : Word) (q : Slot) (n : Word) (s' : Nap) : Prop :=
  ∃ s₁ s₂, naps.step s (.sleep m p) s₁ ∧ naps.Path (fun _ c => c ≠ .tick) s₁ s₂ ∧
    naps.step s₂ (.sleep n q) s'

/-- Neither process goes to sleep again. -/
def SleptOnce (p q : Slot) (_ : Nap) (c : NapCall) : Prop :=
  ∀ ms, c ≠ .sleep ms p ∧ c ≠ .sleep ms q

/-- The ticks of a duration: the product is cut off at 32 bits. -/
theorem toNat_millisecondsToTicks (ms : Word) :
    (millisecondsToTicks ms).toNat = 100 * ms.toNat % 2 ^ 32 / 1000 := by
  unfold millisecondsToTicks
  rw [BitVec.toNat_udiv, BitVec.toNat_mul]
  rfl

/-- A process sleeps if and only if it is due some time. -/
theorem Asleep.sleeping_iff (h : Asleep s D) :
    (s.k.proctab q).state = .sleep ↔ ∃ t, (q, t) ∈ Deltas.due 0 D := by
  rw [h.sleeping]
  unfold procs
  rw [← Deltas.map_fst_due (t := 0), List.mem_map]
  constructor
  · rintro ⟨e, he, rfl⟩
    exact ⟨e.2, he⟩
  · rintro ⟨t, ht⟩
    exact ⟨_, ht, rfl⟩

/-- It is due once. -/
theorem Asleep.due_inj (h : Asleep s D) (h₁ : (q, t) ∈ Deltas.due 0 D)
    (h₂ : (q, t') ∈ Deltas.due 0 D) : t = t' := by
  have hnd : ((Deltas.due 0 D).map Prod.fst).Nodup := by
    rw [Deltas.map_fst_due]
    exact h.list.nodup
  exact (Prod.mk.inj (List.inj_on_of_nodup_map hnd h₁ h₂ rfl)).2

/-- Without a tick, every sleeper is due when it was. -/
theorem Asleep.step_due {c : NapCall} (h : Asleep s D) (hc : c ≠ .tick)
    (hs : naps.step s c s') : ∃ D', Asleep s' D' ∧ ∀ e ∈ Deltas.due 0 D, e ∈ Deltas.due 0 D' := by
  cases c with
  | sleep ms p =>
      exact ⟨_, h.sleep hs, fun e he => Deltas.mem_due_insert.mpr (.inr he)⟩
  | tick => exact absurd rfl hc
  | other => exact ⟨D, h.other hs, fun e he => he⟩

/-- A process that goes to sleep is due as many ticks from now as it asks for. -/
theorem Asleep.sleep_due (h : Asleep s D) (hs : naps.step s (.sleep ms p) s') :
    ∃ D', Asleep s' D' ∧ (p, (millisecondsToTicks ms).toNat) ∈ Deltas.due 0 D' ∧
      ∀ e ∈ Deltas.due 0 D, e ∈ Deltas.due 0 D' := by
  refine ⟨_, h.sleep hs, Deltas.mem_due_insert.mpr (.inl ?_),
    fun e he => Deltas.mem_due_insert.mpr (.inr he)⟩
  rw [Nat.zero_add]

/-- When both sleep, both are due as many ticks from now as they asked for. -/
theorem SleepBoth.due (h : naps.Reachable s) (hb : SleepBoth s p m q n s') :
    ∃ D, Asleep s' D ∧ (p, (millisecondsToTicks m).toNat) ∈ Deltas.due 0 D ∧
      (q, (millisecondsToTicks n).toNat) ∈ Deltas.due 0 D := by
  obtain ⟨s₁, s₂, hfirst, hpath, hsecond⟩ := hb
  obtain ⟨D, hD⟩ := asleep_of_reachable h
  obtain ⟨D₁, hD₁, hp₁, -⟩ := hD.sleep_due hfirst
  obtain ⟨D₂, hD₂, hp₂⟩ : ∃ D₂, Asleep s₂ D₂ ∧
      (p, (millisecondsToTicks m).toNat) ∈ Deltas.due 0 D₂ := by
    refine hpath.preserves (I := fun s => ∃ D, Asleep s D ∧
      (p, (millisecondsToTicks m).toNat) ∈ Deltas.due 0 D) ⟨D₁, hD₁, hp₁⟩ ?_
    rintro s c s' ⟨D, hD, hp⟩ hc hs
    obtain ⟨D', hD', hkeep⟩ := hD.step_due hc hs
    exact ⟨D', hD', hkeep _ hp⟩
  obtain ⟨D₃, hD₃, hq₃, hkeep⟩ := hD₂.sleep_due hsecond
  exact ⟨D₃, hD₃, hkeep _ hp₂, hq₃⟩

/-! ## The order of waking up -/

/-- As long as `p` sleeps, `q` sleeps and is due no earlier. -/
def Behind (p q : Slot) (s : Nap) : Prop :=
  ∃ D, Asleep s D ∧ ∀ t, (p, t) ∈ Deltas.due 0 D → ∃ t', t ≤ t' ∧ (q, t') ∈ Deltas.due 0 D

/-- A step keeps `q` behind, unless it puts `p` to sleep again. -/
theorem Behind.step {c : NapCall} (h : Behind p q s) (hc : SleptOnce p q s c)
    (hs : naps.step s c s') : Behind p q s' := by
  obtain ⟨D, hD, hq⟩ := h
  cases c with
  | sleep ms r =>
      refine ⟨_, hD.sleep hs, fun t ht => ?_⟩
      rcases Deltas.mem_due_insert.mp ht with he | he
      · obtain rfl := (Prod.mk.inj he).1
        exact absurd rfl (hc ms).1
      · obtain ⟨t', hle, ht'⟩ := hq t he
        exact ⟨t', hle, Deltas.mem_due_insert.mpr (.inr ht')⟩
  | tick =>
      -- if `p` is left by the tick, so is `q`, and both are closer by the same number of ticks
      refine ⟨_, hD.tick hs, fun t ht => ?_⟩
      obtain ⟨c, -, hshift, -⟩ := tickDeltas_shift D
      obtain ⟨t', hle, ht'⟩ := hq (t + c) ((hshift (p, t)).mp ht)
      refine ⟨t' - c, by omega, (hshift (q, t' - c)).mpr ?_⟩
      rwa [Nat.sub_add_cancel (by omega)]
  | other => exact ⟨D, hD.other hs, hq⟩

/-- A process that is due no later is not overtaken. -/
theorem Asleep.not_overtaken (h : Asleep s D) (hp : (p, t) ∈ Deltas.due 0 D)
    (hq : (q, t') ∈ Deltas.due 0 D) (hle : t ≤ t') (hpath : naps.Path (SleptOnce p q) s s')
    (hsleep : (s'.k.proctab p).state = .sleep) : (s'.k.proctab q).state = .sleep := by
  have hstart : Behind p q s := ⟨D, h, fun t₀ ht₀ => ⟨t', h.due_inj hp ht₀ ▸ hle, hq⟩⟩
  obtain ⟨D', hD', hbehind⟩ := hpath.preserves hstart fun s c s' hb hc hs => hb.step hc hs
  obtain ⟨t₁, ht₁⟩ := hD'.sleeping_iff.mp hsleep
  obtain ⟨t₂, -, ht₂⟩ := hbehind t₁ ht₁
  exact hD'.sleeping_iff.mpr ⟨t₂, ht₂⟩

/-- The next tick. -/
theorem Asleep.next_tick (h : Asleep s D) : ∃ s', naps.step s .tick s' := by
  obtain ⟨k', hk⟩ := h.list.tick_ok h.used h.tail (Nat.lt_succ_self D.length)
  exact ⟨⟨k', s.asked, fun q => s.age q + 1⟩, ⟨_, hk⟩, rfl, rfl⟩

/-- A process that is due later is overtaken by the ticks that follow. -/
theorem Asleep.overtaken (h : Asleep s D) (hp : (p, t) ∈ Deltas.due 0 D)
    (hq : (q, t') ∈ Deltas.due 0 D) (hlt : t' < t) :
    ∃ s', naps.Path (SleptOnce p q) s s' ∧ (s'.k.proctab p).state = .sleep ∧
      (s'.k.proctab q).state ≠ .sleep := by
  induction t' using Nat.strong_induction_on generalizing s D t with
  | _ t' ih =>
      obtain ⟨s₁, hs⟩ := h.next_tick
      obtain ⟨c, hc, hshift, hfirst⟩ := tickDeltas_shift D
      have h₁ := h.tick hs
      have hstep : naps.Path (SleptOnce p q) s s₁ :=
        TSys.Path.refl.tail (a := .tick) (fun ms => ⟨by rintro ⟨⟩, by rintro ⟨⟩⟩) hs
      have hp₁ : (p, t - c) ∈ Deltas.due 0 (tickDeltas D).2 := by
        refine (hshift (p, t - c)).mpr ?_
        have hle : c ≤ t' + 1 := hfirst (q, t') hq
        rwa [Nat.sub_add_cancel (by omega)]
      by_cases hct : c ≤ t'
      · -- `q` is left as well, and closer than before
        have hq₁ : (q, t' - c) ∈ Deltas.due 0 (tickDeltas D).2 := by
          refine (hshift (q, t' - c)).mpr ?_
          rwa [Nat.sub_add_cancel hct]
        obtain ⟨s', hpath, hend⟩ := ih (t' - c) (by omega) h₁ hp₁ hq₁ (by omega)
        exact ⟨s', hstep.trans hpath, hend⟩
      · -- the tick wakes `q`
        refine ⟨s₁, hstep, h₁.sleeping_iff.mpr ⟨_, hp₁⟩, fun hsleep => ?_⟩
        obtain ⟨t₂, ht₂⟩ := h₁.sleeping_iff.mp hsleep
        have hsame := h.due_inj hq ((hshift (q, t₂)).mp ht₂)
        omega

/-- Of two processes that go to sleep between the same two ticks, in either order, `p` is made
ready by no later tick than `q` in every run if and only if its duration is no longer in ticks,
which are computed modulo `2 ^ 32`. Up to 42949672 milliseconds, the ticks are in the order of the
durations. -/
theorem longer_sleeps_last (h : naps.Reachable s)
    (hb : SleepBoth s p m q n s' ∨ SleepBoth s q n p m s') :
    ((∀ s₁, naps.Path (SleptOnce p q) s' s₁ →
        (s₁.k.proctab p).state = .sleep → (s₁.k.proctab q).state = .sleep) ↔
      100 * m.toNat % 2 ^ 32 / 1000 ≤ 100 * n.toNat % 2 ^ 32 / 1000) ∧
    (m ≤ n → n.toNat ≤ 42949672 →
      100 * m.toNat % 2 ^ 32 / 1000 ≤ 100 * n.toNat % 2 ^ 32 / 1000) := by
  have hdue : ∃ D, Asleep s' D ∧ (p, (millisecondsToTicks m).toNat) ∈ Deltas.due 0 D ∧
      (q, (millisecondsToTicks n).toNat) ∈ Deltas.due 0 D := by
    rcases hb with hb | hb
    · exact hb.due h
    · obtain ⟨D, hD, hq, hp⟩ := hb.due h
      exact ⟨D, hD, hp, hq⟩
  obtain ⟨D, hD, hp, hq⟩ := hdue
  rw [toNat_millisecondsToTicks] at hp hq
  refine ⟨⟨fun hall => ?_, fun hle s₁ hpath => hD.not_overtaken hp hq hle hpath⟩, fun hmn hn => ?_⟩
  · by_contra hlt
    obtain ⟨s₁, hpath, hsleep, hwake⟩ := hD.overtaken hp hq (Nat.lt_of_not_le hlt)
    exact hwake (hall s₁ hpath hsleep)
  · rw [BitVec.le_def] at hmn
    rw [Nat.mod_eq_of_lt (by omega), Nat.mod_eq_of_lt (by omega)]
    exact Nat.div_le_div_right (Nat.mul_le_mul_left 100 hmn)

/-! ## Two durations -/

theorem Nap.sleepBoth (hp : MaySleep s.k p) (hm : (Xeros.sleep s.k 10 m p).isOk = true)
    (hk : Elsewhere (s.sleep m p).k k) (hq : MaySleep k q)
    (hn : (Xeros.sleep k 10 n q).isOk = true) :
    SleepBoth s p m q n (((s.sleep m p).other k).sleep n q) := by
  refine ⟨_, _, Nap.sleep_step hp hm, ?_, Nap.sleep_step hq hn⟩
  exact TSys.Path.refl.tail (a := .other) (by rintro ⟨⟩) ⟨hk, rfl, rfl⟩

/-- Process 1 sleeps for one tick, and process 2 for three. -/
theorem longer_sleeps_last_of_two : SleepBoth napStart 1 10 2 30 napBoth ∧
    ∀ s, naps.Path (SleptOnce 1 2) napBoth s →
      (s.k.proctab 1).state = .sleep → (s.k.proctab 2).state = .sleep := by
  have hb : SleepBoth napStart 1 10 2 30 napBoth := by
    refine Nap.sleepBoth ⟨?_, ⟨?_, ?_, ?_⟩, ?_⟩ ?_ ⟨rfl, ?_, ?_, ?_⟩ ⟨?_, ⟨?_, ?_, ?_⟩, ?_⟩ ?_ <;>
      decide +kernel
  exact ⟨hb, (longer_sleeps_last napStart_reachable.reachable (.inl hb)).1.mpr (by decide)⟩

/-- Process 1 sleeps for 42949672 milliseconds, and process 2 for one more. -/
def napLong : Nap :=
  ((napStart.sleep 42949672 1).other
    ((napStart.sleep 42949672 1).k.upd 2 fun c => c.setState .running)).sleep 42949673 2

/-- Process 2 sleeps for no tick at all: the next one wakes it. -/
theorem longer_sleep_first : ¬ ∀ (s s' s₁ : Nap) (p q : Slot) (m n : Word), m ≤ n → p ≠ q →
    naps.Reachable s → SleepBoth s p m q n s' → naps.Path (SleptOnce p q) s' s₁ →
    (s₁.k.proctab p).state = .sleep → (s₁.k.proctab q).state = .sleep := by
  intro h
  have hb : SleepBoth napStart 1 42949672 2 42949673 napLong := by
    refine Nap.sleepBoth ⟨?_, ⟨?_, ?_, ?_⟩, ?_⟩ ?_ ⟨rfl, ?_, ?_, ?_⟩ ⟨?_, ⟨?_, ?_, ?_⟩, ?_⟩ ?_ <;>
      decide +kernel
  have htick : naps.Path (SleptOnce 1 2) napLong napLong.tick :=
    TSys.Path.refl.tail (a := .tick) (fun ms => ⟨by rintro ⟨⟩, by rintro ⟨⟩⟩)
      (Nap.tick_step (by decide +kernel))
  have hwrong := h napStart napLong napLong.tick 1 2 42949672 42949673 (by decide) (by decide)
    napStart_reachable.reachable hb htick (by decide +kernel)
  exact absurd hwrong (by decide +kernel)

end Xeros
