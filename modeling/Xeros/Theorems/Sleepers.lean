import Xeros.Logic.Boot
import Xeros.Logic.Sleepers

/-!
# Sleep and tick

Runs of `sleep` and `tick`, with the rest of the kernel between them. Each
process carries the ticks its last `sleep` asked for and the ticks since. No
sleeper is lost or more than one tick late. One may be a tick early: a tick that
wakes the sleepers with one tick to go counts the others down twice.
-/

namespace Xeros

open Lib

variable {k k' : Kernel} {p q : Slot} {D : Deltas Slot} {fuel n : Nat}

/-! ## Runs -/

/-- The kernel, the ticks asked for by the last `sleep` of each process and the ticks since
then. -/
structure Nap where
  k : Kernel
  asked : Slot → Nat
  age : Slot → Nat

/-- A call of `sleep` or `tick`, or whatever the kernel does in between. -/
inductive NapCall where
  | sleep (ms : Word) (p : Slot)
  | tick
  | other

/-- `dispatch` puts the running process to sleep, which is in no queue. -/
structure MaySleep (k : Kernel) (p : Slot) : Prop where
  running : (k.proctab p).state = .running
  used : k.Used p
  out : k.tail ≠ some p

/-- The rest of the kernel leaves the sleepers and their list alone. -/
structure Elsewhere (k k' : Kernel) : Prop where
  headsleeper : k'.headsleeper = k.headsleeper
  sleeper : ∀ q, (k.proctab q).state = .sleep → k'.link q = k.link q ∧
    (k'.proctab q).sleepticks = (k.proctab q).sleepticks ∧ (k'.proctab q).state = .sleep ∧
    (k'.proctab q).pid = (k.proctab q).pid
  awake : ∀ q, (k.proctab q).state ≠ .sleep → (k'.proctab q).state ≠ .sleep
  tail : ∀ t, k'.tail = some t → (k'.proctab t).state ≠ .sleep

/-- The calls, from `dispatchinit` on. -/
def naps : TSys Nap NapCall where
  init s := ∃ img, s.k = dispatchinit img
  step s c s' :=
    match c with
    | .sleep ms p => MaySleep s.k p ∧ (∃ fuel, sleep s.k fuel ms p = .ok s'.k) ∧
        s'.asked = Function.update s.asked p (millisecondsToTicks ms).toNat ∧
        s'.age = Function.update s.age p 0
    | .tick => (∃ fuel, tick s.k fuel = .ok s'.k) ∧ s'.asked = s.asked ∧
        s'.age = fun q => s.age q + 1
    | .other => Elsewhere s.k s'.k ∧ s'.asked = s.asked ∧ s'.age = s.age

/-! ## The sleepers -/

/-- The sleepers are those in the list; none is due later than it asked for. -/
structure Asleep (s : Nap) (D : Deltas Slot) : Prop where
  list : SleepList s.k D
  sleeping : ∀ q, (s.k.proctab q).state = .sleep ↔ q ∈ procs D
  used : ∀ q ∈ procs D, s.k.Used q
  tail : ∀ t, s.k.tail = some t → t ∉ procs D
  bound : D.total < 2 ^ 32
  due : ∀ e ∈ Deltas.due 0 D, e.2 + s.age e.1 ≤ s.asked e.1

theorem millisecondsToTicks_lt (ms : Word) : (millisecondsToTicks ms).toNat < 2 ^ 32 :=
  (millisecondsToTicks ms).isLt

theorem Asleep.sleep {s s' : Nap} {ms : Word} (h : Asleep s D)
    (hs : naps.step s (.sleep ms p) s') :
    Asleep s' (D.insert p (millisecondsToTicks ms).toNat) := by
  obtain ⟨hmay, ⟨fuel, hk⟩, hasked, hage⟩ := hs
  have hp : p ∉ procs D := by
    intro hm
    have hst := (h.sleeping p).mpr hm
    rw [hmay.running] at hst
    cases hst
  obtain ⟨-, hlist, hkeep⟩ := h.list.sleep hp h.bound hk
  have hmem : ∀ q, q ∈ procs (D.insert p (millisecondsToTicks ms).toNat) ↔ q = p ∨ q ∈ procs D := by
    intro q
    obtain ⟨l₁, l₂, hl, hl'⟩ := Deltas.insert_split (D := D) (x := p)
      (n := (millisecondsToTicks ms).toNat)
    unfold procs
    rw [hl, hl', List.mem_append, List.mem_append, List.mem_cons, or_left_comm]
  have hupd : ∀ q, q ≠ p → (s.k.upd p fun c => c.toSleep (millisecondsToTicks ms)).proctab q
      = s.k.proctab q := fun q hq => Kernel.upd_proctab_ne _ _ _ hq
  have hused : ∀ q, s.k.Used q → s'.k.Used q := by
    intro q hq
    refine hq.congr ?_
    rw [hkeep.pid]
    by_cases hqp : q = p
    · subst hqp
      simp [Pcb.toSleep]
    · rw [hupd q hqp]
  refine ⟨hlist, fun q => ?_, fun q hq => ?_, fun t ht => ?_, ?_, fun e he => ?_⟩
  · rw [hkeep.state, hmem]
    by_cases hqp : q = p
    · subst hqp
      simp [Pcb.toSleep]
    · rw [hupd q hqp, h.sleeping q]
      simp [hqp]
  · rcases (hmem q).mp hq with rfl | hq
    · exact hused q hmay.used
    · exact hused q (h.used q hq)
  · rw [hkeep.tail] at ht
    rw [hmem, not_or]
    refine ⟨?_, h.tail t ht⟩
    rintro rfl
    exact hmay.out ht
  · rw [Deltas.total_insert]
    exact Nat.max_lt.mpr ⟨millisecondsToTicks_lt ms, h.bound⟩
  · rw [hasked, hage]
    rcases Deltas.mem_due_insert.mp he with rfl | he
    · simp
    · have hne : e.1 ≠ p := by
        intro hep
        have hm : e.1 ∈ (Deltas.due 0 D).map Prod.fst := List.mem_map_of_mem he
        rw [Deltas.map_fst_due, hep] at hm
        exact hp hm
      rw [Function.update_of_ne hne, Function.update_of_ne hne]
      exact h.due e he

theorem Asleep.other {s s' : Nap} (h : Asleep s D) (hs : naps.step s .other s') :
    Asleep s' D := by
  obtain ⟨hels, hasked, hage⟩ := hs
  refine ⟨h.list.congr hels.headsleeper fun q hq => ?_, fun q => ?_, fun q hq => ?_,
    fun t ht hm => ?_, h.bound, ?_⟩
  · obtain ⟨hl, ht, -⟩ := hels.sleeper q ((h.sleeping q).mpr hq)
    exact ⟨hl, ht⟩
  · rw [← h.sleeping q]
    refine ⟨fun hst => ?_, fun hst => (hels.sleeper q hst).2.2.1⟩
    by_contra hne
    exact hels.awake q hne hst
  · exact (h.used q hq).congr (hels.sleeper q ((h.sleeping q).mpr hq)).2.2.2
  · exact hels.tail t ht (hels.sleeper t ((h.sleeping t).mpr hm)).2.2.1
  · rw [hasked, hage]
    exact h.due

/-- The entries that a tick wakes and those it leaves are those of the list, in order. -/
theorem procs_tickDeltas (D : Deltas Slot) :
    procs D = procs (tickDeltas D).1 ++ procs (tickDeltas D).2 := by
  have hc : ∀ D : Deltas Slot, procs D.countDown = procs D := by
    intro D
    cases D <;> rfl
  cases D with
  | nil => rfl
  | cons e D =>
      obtain ⟨p, d⟩ := e
      by_cases hd : d ≤ 1
      · rw [tickDeltas_due hd, hc, ← procs_append, Deltas.expired_append_remaining]
        rfl
      · rw [tickDeltas_wait hd, hc]
        rfl

theorem total_tickDeltas (D : Deltas Slot) : (tickDeltas D).2.total ≤ D.total := by
  cases D with
  | nil => exact Nat.le_refl _
  | cons e D =>
      obtain ⟨p, d⟩ := e
      by_cases hd : d ≤ 1
      · rw [tickDeltas_due hd]
        refine Nat.le_trans (Nat.le_trans Deltas.total_countDown Deltas.total_remaining) ?_
        rw [Deltas.total_cons, Deltas.total_cons]
        omega
      · rw [tickDeltas_wait hd]
        exact Deltas.total_countDown (D := (p, d) :: D)

/-- A tick brings the sleepers closer by one, or all of them by two, and wakes those whose time
is over before that. -/
theorem tickDeltas_shift (D : Deltas Slot) : ∃ c, 1 ≤ c ∧
    (∀ e : Slot × Nat, e ∈ Deltas.due 0 (tickDeltas D).2 ↔ (e.1, e.2 + c) ∈ Deltas.due 0 D) ∧
    ∀ e ∈ Deltas.due 0 D, c ≤ e.2 + 1 := by
  cases D with
  | nil => exact ⟨1, Nat.le_refl 1, by simp [tickDeltas], by simp⟩
  | cons b D =>
      obtain ⟨p, d⟩ := b
      by_cases hd : d ≤ 1
      · rw [tickDeltas_due hd]
        rcases Nat.le_one_iff_eq_zero_or_eq_one.mp hd with rfl | rfl
        · exact ⟨1, Nat.le_refl 1, fun e => Deltas.mem_due_countDown_remaining,
            fun e _ => Nat.le_add_left 1 e.2⟩
        · -- the first count is set to 0, and the next sleeper is counted down as well
          refine ⟨2, Nat.le_succ 1, fun e => ?_, fun e he => ?_⟩
          · rw [Deltas.mem_due_countDown_remaining]
            exact Deltas.mem_due_countDown (e := (e.1, e.2 + 1)) Nat.one_pos
          · rcases List.mem_cons.mp he with rfl | he
            · exact Nat.le_refl 2
            · exact Nat.succ_le_succ (Deltas.le_of_mem_due he)
      · rw [tickDeltas_wait hd]
        exact ⟨1, Nat.le_refl 1, fun e => Deltas.mem_due_countDown (by omega),
          fun e _ => Nat.le_add_left 1 e.2⟩

/-- A tick brings every sleeper that it does not wake closer by one at least. -/
theorem due_tickDeltas {e : Slot × Nat} (he : e ∈ Deltas.due 0 (tickDeltas D).2) :
    ∃ n, (e.1, n) ∈ Deltas.due 0 D ∧ e.2 + 1 ≤ n := by
  obtain ⟨c, hc, hshift, -⟩ := tickDeltas_shift D
  exact ⟨e.2 + c, (hshift e).mp he, by omega⟩

theorem Asleep.tick {s s' : Nap} (h : Asleep s D) (hs : naps.step s .tick s') :
    Asleep s' (tickDeltas D).2 := by
  obtain ⟨⟨fuel, hk⟩, hasked, hage⟩ := hs
  obtain ⟨-, hlist, hstate, hpid, htail⟩ := h.list.tick h.used h.tail hk
  have hparts := procs_tickDeltas D
  have hnd := h.list.nodup
  rw [hparts, List.nodup_append] at hnd
  have hmem : ∀ q, q ∈ procs D ↔ q ∈ procs (tickDeltas D).1 ∨ q ∈ procs (tickDeltas D).2 := by
    intro q
    rw [hparts, List.mem_append]
  refine ⟨hlist, fun q => ?_, fun q hq => ?_, fun t ht hm => ?_, ?_, fun e he => ?_⟩
  · rw [hstate]
    split
    · rename_i hw
      refine iff_of_false (by simp) fun hm => hnd.2.2 q hw q hm rfl
    · rename_i hw
      rw [h.sleeping, hmem]
      simp [hw]
  · exact (h.used q ((hmem q).mpr (.inr hq))).congr (hpid q)
  · rcases htail t ht with ht | hw
    · exact h.tail t ht ((hmem t).mpr (.inr hm))
    · exact hnd.2.2 t hw t hm rfl
  · exact Nat.lt_of_le_of_lt (total_tickDeltas D) h.bound
  · obtain ⟨n, hn, hle⟩ := due_tickDeltas he
    have hdue := h.due _ hn
    rw [hasked, hage]
    show e.2 + (s.age e.1 + 1) ≤ s.asked e.1
    have : n + s.age e.1 ≤ s.asked e.1 := hdue
    omega

/-- In every state of a run there is such a list. -/
theorem asleep_of_reachable {s : Nap} (h : naps.Reachable s) : ∃ D, Asleep s D := by
  have hind : naps.Inductive TSys.anyStep fun s => ∃ D, Asleep s D := by
    refine ⟨?_, ?_⟩
    · rintro s ⟨img, hk⟩
      refine ⟨[], ⟨?_, List.nodup_nil, by simp⟩, fun q => ?_, by simp, by simp, by decide, by simp⟩
      · rw [hk]
        rfl
      · rw [hk]
        simp [dispatchinit, zeroPcb]
    · rintro s c s' ⟨D, hD⟩ - hs
      cases c with
      | sleep ms p => exact ⟨_, hD.sleep hs⟩
      | tick => exact ⟨_, hD.tick hs⟩
      | other => exact ⟨D, hD.other hs⟩
  exact hind.holds h

/-- What a tick does to the sleepers `l` of a state: it passes those in front to `ready`, each
once and in order, and among them all whose time is over. -/
def TicksInOrder (s s' : Nap) (l : List Slot) : Prop :=
  ∃ l₁ l₂, l = l₁ ++ l₂ ∧ Wakes s.k l₁ s'.k ∧ Chain s'.k.link s'.k.headsleeper l₂ ∧
    (∀ q ∈ l₁, (s'.k.proctab q).state = .ready) ∧
    (∀ q, (s'.k.proctab q).state = .sleep ↔ q ∈ l₂) ∧
    ∀ q ∈ l, s.age q = s.asked q → q ∈ l₁

theorem Asleep.ticksInOrder {s s' : Nap} (h : Asleep s D) (hs : naps.step s .tick s') :
    TicksInOrder s s' (procs D) := by
  have h' := h.tick hs
  obtain ⟨⟨fuel, hk⟩, hasked, hage⟩ := hs
  obtain ⟨hw, -, hstate, -⟩ := h.list.tick h.used h.tail hk
  refine ⟨_, _, procs_tickDeltas D, hw, h'.list.chain, fun q hq => ?_, h'.sleeping,
    fun q hq hover => ?_⟩
  · rw [hstate, if_pos hq]
  · rw [procs_tickDeltas D, List.mem_append] at hq
    refine hq.resolve_right fun hm => ?_
    -- a sleeper that is left has not been in the list for longer than it asked for
    unfold procs at hm
    rw [← Deltas.map_fst_due (t := 0)] at hm
    obtain ⟨e, he, rfl⟩ := List.mem_map.mp hm
    have hdue := h'.due e he
    rw [hasked, hage] at hdue
    have hdue : e.2 + (s.age e.1 + 1) ≤ s.asked e.1 := hdue
    omega

/-- Each sleeper is in the list once, until a tick passes it to `ready`, at the latest one
tick after its time; sleepers leave the list in the order of the list. -/
theorem sleepers_kept {s : Nap} (h : naps.Reachable s) :
    ∃ l : List Slot, Chain s.k.link s.k.headsleeper l ∧ l.Nodup ∧
      (∀ q, (s.k.proctab q).state = .sleep ↔ q ∈ l) ∧
      (∀ q ∈ l, s.age q ≤ s.asked q) ∧
      (∀ fuel, l.length < fuel → ∃ k', tick s.k fuel = .ok k') ∧
      (∀ s', naps.step s .tick s' → TicksInOrder s s' l) ∧
      (∀ fuel ms p, l.length < fuel → MaySleep s.k p → ∃ k', sleep s.k fuel ms p = .ok k') ∧
      (∀ ms p s', naps.step s (.sleep ms p) s' → p ∉ l ∧ ∃ l₁ l₂, l = l₁ ++ l₂ ∧
        Chain s'.k.link s'.k.headsleeper (l₁ ++ p :: l₂)) := by
  obtain ⟨D, hD⟩ := asleep_of_reachable h
  have hout : ∀ p, MaySleep s.k p → p ∉ procs D := by
    intro p hmay hm
    have hst := (hD.sleeping p).mpr hm
    rw [hmay.running] at hst
    cases hst
  refine ⟨procs D, hD.list.chain, hD.list.nodup, hD.sleeping, fun q hq => ?_, fun fuel hf => ?_,
    fun s' hs => hD.ticksInOrder hs, fun fuel ms p hf hmay => ?_, fun ms p s' hs => ?_⟩
  · unfold procs at hq
    rw [← Deltas.map_fst_due (t := 0)] at hq
    obtain ⟨e, he, rfl⟩ := List.mem_map.mp hq
    exact Nat.le_trans (Nat.le_add_left _ _) (hD.due e he)
  · exact hD.list.tick_ok hD.used hD.tail (by simpa [procs] using hf)
  · exact hD.list.sleep_ok (hout p hmay) hmay.used.1 (by simpa [procs] using hf)
  · have hchain := (hD.sleep hs).list.chain
    obtain ⟨l₁, l₂, hl, hl'⟩ := Deltas.insert_split (D := D) (x := p)
      (n := (millisecondsToTicks ms).toNat)
    have hl' : procs (D.insert p (millisecondsToTicks ms).toNat) = l₁ ++ p :: l₂ := hl'
    rw [hl'] at hchain
    exact ⟨hout p hs.1, l₁, l₂, hl, hchain⟩

/-! ## A tick early -/

/-- When the first count is one, no other count is larger: the tick then wakes all sleepers
with one tick to go, and counting the next one down again is made up for by the tick that it
waits in front of the list. -/
def CountsOnce (k : Kernel) : Prop :=
  ∀ h, k.headsleeper = some h → (k.proctab h).sleepticks = 1 →
    ∀ q, (k.proctab q).state = .sleep → (k.proctab q).sleepticks ≤ 1

instance (k : Kernel) : Decidable (CountsOnce k) :=
  inferInstanceAs (Decidable (∀ h, k.headsleeper = some h → (k.proctab h).sleepticks = 1 →
    ∀ q, (k.proctab q).state = .sleep → (k.proctab q).sleepticks ≤ 1))

/-- No sleeper is due too early: counted from `t` on, each is due when it asked for, less the
ticks that have passed, and less `c` as long as the counts are at most one. -/
def OnTime (asked age : Slot → Nat) : Nat → Nat → Deltas Slot → Prop
  | _, _, [] => True
  | c, t, (q, d) :: D =>
    asked q ≤ t + d + age q + (if d ≤ 1 then c else 0) ∧
      OnTime asked age (if d ≤ 1 then c else 0) (t + d) D

/-- Sleepers at the front with nothing to go wait for the next tick. -/
def slack : Deltas Slot → Nat
  | (_, 0) :: _ => 1
  | _ => 0

section OnTime

variable {asked age asked' age' : Slot → Nat} {c c' t d : Nat}

theorem OnTime.mono (hc : c ≤ c') (h : OnTime asked age c t D) : OnTime asked age c' t D := by
  induction D generalizing c c' t with
  | nil => exact h
  | cons e D ih =>
      obtain ⟨q, d⟩ := e
      obtain ⟨h₁, h₂⟩ := h
      have hle : (if d ≤ 1 then c else 0) ≤ if d ≤ 1 then c' else 0 := by
        split <;> omega
      exact ⟨by omega, ih hle h₂⟩

theorem OnTime.congr (hq : ∀ q ∈ procs D, asked' q = asked q ∧ age' q = age q)
    (h : OnTime asked age c t D) : OnTime asked' age' c t D := by
  induction D generalizing c t with
  | nil => exact h
  | cons e D ih =>
      obtain ⟨q, d⟩ := e
      obtain ⟨h₁, h₂⟩ := h
      obtain ⟨ha, hg⟩ := hq q List.mem_cons_self
      refine ⟨?_, ih (fun r hr => hq r (List.mem_cons_of_mem _ hr)) h₂⟩
      rw [ha, hg]
      exact h₁

/-- A tick has passed. -/
theorem OnTime.shift (h : OnTime asked age c (t + 1) D) :
    OnTime asked (fun q => age q + 1) c t D := by
  induction D generalizing c t with
  | nil => exact h
  | cons e D ih =>
      obtain ⟨q, d⟩ := e
      obtain ⟨h₁, h₂⟩ := h
      have hsum : t + 1 + d = t + d + 1 := by omega
      rw [hsum] at h₁ h₂
      refine ⟨?_, ih h₂⟩
      show asked q ≤ t + d + (age q + 1) + _
      omega

/-- Counted down once too often, with counts of at most one all along. -/
theorem OnTime.close (hD : ∀ e ∈ D, e.2 ≤ 1) (h : OnTime asked age 0 (t + 1) D) :
    OnTime asked age 1 t D := by
  induction D generalizing t with
  | nil => exact h
  | cons e D ih =>
      obtain ⟨q, d⟩ := e
      have hd : d ≤ 1 := hD (q, d) List.mem_cons_self
      obtain ⟨h₁, h₂⟩ := h
      have hsum : t + 1 + d = t + d + 1 := by omega
      simp only [if_pos hd, hsum] at h₁ h₂
      refine ⟨?_, ?_⟩
      · rw [if_pos hd]
        omega
      · rw [if_pos hd]
        exact ih (fun e he => hD e (List.mem_cons_of_mem _ he)) h₂

/-- A process that has just asked for `n` ticks. -/
theorem OnTime.insert (hp : asked p ≤ t + n + age p) (h : OnTime asked age c t D) :
    OnTime asked age c t (D.insert p n) := by
  induction D generalizing c t n with
  | nil => exact ⟨by omega, trivial⟩
  | cons e D ih =>
      obtain ⟨q, d⟩ := e
      obtain ⟨h₁, h₂⟩ := h
      unfold Deltas.insert
      split
      · refine ⟨h₁, ih ?_ h₂⟩
        omega
      · rename_i hnd
        have hsum : t + n + (d - n) = t + d := by omega
        have hc : (if d ≤ 1 then c else 0)
            ≤ if d - n ≤ 1 then (if n ≤ 1 then c else 0) else 0 := by
          by_cases hd : d ≤ 1
          · have hn : n ≤ 1 := by omega
            have hdn : d - n ≤ 1 := by omega
            exact Nat.le_of_eq ((if_pos hd).trans ((if_pos hdn).trans (if_pos hn)).symm)
          · exact Nat.le_trans (Nat.le_of_eq (if_neg hd)) (Nat.zero_le _)
        refine ⟨by omega, ?_, ?_⟩
        · rw [hsum]
          omega
        · rw [hsum]
          exact h₂.mono hc

/-- The sleepers at the front with nothing to go, and the others. -/
theorem OnTime.expired (h : OnTime asked age c t D) :
    (∀ q ∈ procs D.expired, asked q ≤ t + age q + c) ∧ OnTime asked age c t D.remaining := by
  induction D with
  | nil => exact ⟨by simp [Deltas.expired], h⟩
  | cons e D ih =>
      obtain ⟨q, d⟩ := e
      by_cases hd : d = 0
      · subst hd
        obtain ⟨h₁, h₂⟩ := h
        simp only [Nat.zero_le, if_true, Nat.add_zero] at h₁ h₂
        obtain ⟨hw, hr⟩ := ih h₂
        rw [Deltas.expired_cons rfl, Deltas.remaining_cons rfl]
        refine ⟨fun r hr => ?_, hr⟩
        rcases List.mem_cons.mp hr with rfl | hr
        · exact h₁
        · exact hw r hr
      · rw [Deltas.expired_cons_pos hd, Deltas.remaining_cons_pos hd]
        exact ⟨by simp, h⟩

/-- The first count is counted down once. -/
theorem OnTime.countDown (hc : c ≤ 1) (hd : 0 < d) (h : OnTime asked age c 0 ((p, d) :: D)) :
    OnTime asked (fun q => age q + 1) (slack ((p, d - 1) :: D)) 0 ((p, d - 1) :: D) := by
  obtain ⟨h₁, h₂⟩ := h
  rcases Nat.lt_or_ge 1 d with hlt | hle
  · obtain ⟨m, rfl⟩ := Nat.exists_eq_add_of_lt hlt
    have hpred : 1 + m + 1 - 1 = m + 1 := by omega
    have hm : ¬ 1 + m + 1 ≤ 1 := by omega
    simp only [if_neg hm] at h₁ h₂
    rw [hpred]
    have hsum : 0 + (1 + m + 1) = 0 + (m + 1) + 1 := by omega
    rw [hsum] at h₁ h₂
    refine ⟨?_, h₂.shift.mono (Nat.zero_le _)⟩
    show asked p ≤ 0 + (m + 1) + (age p + 1) + _
    omega
  · obtain rfl : d = 1 := by omega
    simp only [Nat.le_refl, if_true] at h₁ h₂
    refine ⟨?_, (h₂.mono hc).shift⟩
    show asked p ≤ 0 + 0 + (age p + 1) + 1
    omega

/-- The sleepers that a tick wakes have waited long enough. -/
theorem OnTime.woken (h : OnTime asked age (slack D) 0 D) :
    ∀ q ∈ procs (tickDeltas D).1, asked q ≤ age q + 1 := by
  cases D with
  | nil => simp [tickDeltas]
  | cons e D =>
      obtain ⟨p, d⟩ := e
      by_cases hd : d ≤ 1
      · rw [tickDeltas_due hd]
        intro q hq
        rcases Nat.le_one_iff_eq_zero_or_eq_one.mp hd with rfl | rfl
        · have hle : asked q ≤ 0 + age q + 1 := h.expired.1 q hq
          omega
        · have h₀ : OnTime asked age 0 1 ((p, 0) :: D) := h
          have hle : asked q ≤ 1 + age q + 0 := h₀.expired.1 q hq
          omega
      · rw [tickDeltas_wait hd]
        simp

/-- A tick that counts every sleeper down once, or twice with counts of at most one, leaves
none due too early. -/
theorem OnTime.tick (h : OnTime asked age (slack D) 0 D)
    (honce : ∀ q R, D = (q, 1) :: R → ∀ e ∈ R, e.2 ≤ 1) :
    OnTime asked (fun q => age q + 1) (slack (tickDeltas D).2) 0 (tickDeltas D).2 := by
  cases D with
  | nil => exact trivial
  | cons e D =>
      obtain ⟨p, d⟩ := e
      by_cases hd : d ≤ 1
      · rw [tickDeltas_due hd]
        cases hR : Deltas.remaining ((p, 0) :: D) with
        | nil => exact trivial
        | cons b R =>
            obtain ⟨b, m⟩ := b
            have hpos := Deltas.head_remaining hR
            rcases Nat.le_one_iff_eq_zero_or_eq_one.mp hd with rfl | rfl
            · have hr := h.expired.2
              rw [hR] at hr
              exact hr.countDown (Nat.le_refl 1) hpos
            · -- the sleepers behind those woken are counted down twice
              have h₀ : OnTime asked age 0 1 ((p, 0) :: D) := h
              have hr := h₀.expired.2
              have hmem : ∀ e ∈ (b, m) :: R, e.2 ≤ 1 := by
                intro e he
                rw [← hR] at he
                rcases List.mem_cons.mp (List.dropWhile_subset _ he) with rfl | heD
                · exact Nat.zero_le 1
                · exact honce p D rfl e heD
              have hm : m = 1 := Nat.le_antisymm (hmem (b, m) List.mem_cons_self) hpos
              subst hm
              rw [hR] at hr
              obtain ⟨h₁, h₂⟩ := hr
              simp only [Nat.le_refl, if_true] at h₁ h₂
              refine ⟨?_, (h₂.shift).close fun e he => hmem e (List.mem_cons_of_mem _ he)⟩
              show asked b ≤ 0 + 0 + (age b + 1) + 1
              omega
      · rw [tickDeltas_wait hd]
        obtain ⟨m, rfl⟩ := Nat.exists_eq_add_of_lt (Nat.lt_of_not_le hd)
        have h₀ : OnTime asked age 0 0 ((p, 1 + m + 1) :: D) := by
          have hs : slack ((p, 1 + m + 1) :: D) = 0 := rfl
          rwa [hs] at h
        exact h₀.countDown (Nat.zero_le 1) (by omega)

end OnTime

theorem slack_insert : slack D ≤ slack (D.insert p n) := by
  cases D with
  | nil => exact Nat.zero_le _
  | cons e D =>
      obtain ⟨q, d⟩ := e
      cases d with
      | zero =>
          unfold Deltas.insert
          split
          · exact Nat.le_refl _
          · obtain rfl : n = 0 := by omega
            exact Nat.le_refl _
      | succ d => exact Nat.zero_le _

/-- No sleeper is due too early. -/
def Nap.OnTime (s : Nap) : Prop :=
  ∃ D, Asleep s D ∧ Xeros.OnTime s.asked s.age (slack D) 0 D

/-- The condition on the ticks of a run. -/
def TicksOnce (s : Nap) (c : NapCall) : Prop :=
  match c with
  | .tick => CountsOnce s.k
  | _ => True

theorem onTime_of_reachable {s : Nap} (h : naps.ReachableUnder TicksOnce s) : s.OnTime := by
  have hind : naps.Inductive TicksOnce Nap.OnTime := by
    refine ⟨?_, ?_⟩
    · intro s hs
      obtain ⟨D, hD⟩ := asleep_of_reachable ⟨s, hs, .refl⟩
      refine ⟨[], ?_, trivial⟩
      have hnone : s.k.headsleeper = none := by
        obtain ⟨img, hk⟩ := hs
        rw [hk]
        rfl
      have hc := hD.list.chain
      rw [hnone, Chain.none_iff] at hc
      obtain rfl : D = [] := List.map_eq_nil_iff.mp hc
      exact hD
    · rintro s c s' ⟨D, hD, hT⟩ hc hs
      cases c with
      | sleep ms p =>
          have hp : p ∉ procs D := by
            intro hm
            have hst := (hD.sleeping p).mpr hm
            rw [hs.1.running] at hst
            cases hst
          refine ⟨_, hD.sleep hs, ?_⟩
          obtain ⟨-, -, hasked, hage⟩ := hs
          have hsame : ∀ q ∈ procs D, s'.asked q = s.asked q ∧ s'.age q = s.age q := by
            intro q hq
            have hne : q ≠ p := by
              rintro rfl
              exact hp hq
            rw [hasked, hage, Function.update_of_ne hne, Function.update_of_ne hne]
            exact ⟨rfl, rfl⟩
          refine ((hT.congr hsame).mono slack_insert).insert ?_
          rw [hasked, hage, Function.update_self, Function.update_self]
          omega
      | tick =>
          refine ⟨_, hD.tick hs, ?_⟩
          obtain ⟨-, hasked, hage⟩ := hs
          rw [hasked, hage]
          refine hT.tick ?_
          rintro q R rfl e he
          have hh : s.k.headsleeper = some q := hD.list.chain.1
          have h1 : (s.k.proctab q).sleepticks = 1 := by
            refine BitVec.eq_of_toNat_eq ?_
            exact hD.list.delay (q, 1) List.mem_cons_self
          have hle := hc q hh h1 e.1 ((hD.sleeping e.1).mpr (List.mem_cons_of_mem _ (mem_procs he)))
          rw [BitVec.le_def, hD.list.delay e (List.mem_cons_of_mem _ he)] at hle
          exact hle
      | other =>
          refine ⟨D, hD.other hs, ?_⟩
          obtain ⟨-, hasked, hage⟩ := hs
          rw [hasked, hage]
          exact hT
  exact hind.holds h

/-- As long as no tick finds the first count at one and a later one above one, a sleeper is
made ready by no tick before the one it asked for. -/
theorem no_early_wakeup {s s' : Nap} {c : NapCall} (h : naps.ReachableUnder TicksOnce s)
    (hs : naps.step s c s') (hq : (s.k.proctab q).state = .sleep)
    (hq' : (s'.k.proctab q).state ≠ .sleep) : c = .tick ∧ s'.asked q ≤ s'.age q := by
  obtain ⟨D, hD, hT⟩ := onTime_of_reachable h
  have hmem := (hD.sleeping q).mp hq
  cases c with
  | sleep ms p =>
      refine absurd (((hD.sleep hs).sleeping q).mpr ?_) hq'
      obtain ⟨l₁, l₂, hl, hl'⟩ := Deltas.insert_split (D := D) (x := p)
        (n := (millisecondsToTicks ms).toNat)
      unfold procs at hmem ⊢
      rw [hl, List.mem_append] at hmem
      rw [hl', List.mem_append, List.mem_cons]
      exact hmem.imp id .inr
  | tick =>
      have hleft : q ∉ procs (tickDeltas D).2 := fun hm =>
        hq' (((hD.tick hs).sleeping q).mpr hm)
      rw [procs_tickDeltas D, List.mem_append] at hmem
      obtain ⟨-, hasked, hage⟩ := hs
      rw [hasked, hage]
      exact ⟨rfl, hT.woken q (hmem.resolve_right hleft)⟩
  | other => exact absurd (hs.1.sleeper q hq).2.2.1 hq'

/-! ## Two sleepers -/

/-- A call of `sleep`, of `tick`, and a step of the rest of the kernel. -/
def Nap.sleep (s : Nap) (ms : Word) (p : Slot) : Nap where
  k := (Xeros.sleep s.k 10 ms p).getD s.k
  asked := Function.update s.asked p (millisecondsToTicks ms).toNat
  age := Function.update s.age p 0

@[inherit_doc Nap.sleep]
def Nap.tick (s : Nap) : Nap where
  k := (Xeros.tick s.k 10).getD s.k
  asked := s.asked
  age := fun q => s.age q + 1

@[inherit_doc Nap.sleep]
def Nap.other (s : Nap) (k : Kernel) : Nap := { s with k := k }

theorem Nap.sleep_step {s : Nap} {ms : Word} (hmay : MaySleep s.k p)
    (hok : (Xeros.sleep s.k 10 ms p).isOk = true) : naps.step s (.sleep ms p) (s.sleep ms p) :=
  ⟨hmay, ⟨10, Run.eq_getD hok⟩, rfl, rfl⟩

theorem Nap.tick_step {s : Nap} (hok : (Xeros.tick s.k 10).isOk = true) :
    naps.step s .tick s.tick := ⟨⟨10, Run.eq_getD hok⟩, rfl, rfl⟩

/-- Process 1 runs and process 2 is ready. -/
def napStart : Nap :=
  Nap.other ⟨dispatchinit sampleImage, fun _ => 0, fun _ => 0⟩
    (((dispatchinit sampleImage).upd 1 fun c => { c with pid := 1, state := .running }).upd 2
      fun c => { c with pid := 2, state := .ready })

/-- Process 1 sleeps for one tick. -/
def napOne : Nap := napStart.sleep 10 1

/-- Process 2 runs. -/
def napSwitched : Nap := napOne.other (napOne.k.upd 2 fun c => c.setState .running)

/-- It sleeps for three ticks. -/
def napBoth : Nap := napSwitched.sleep 30 2

theorem napStart_reachable : naps.ReachableUnder TicksOnce napStart := by
  have h₀ : naps.ReachableUnder TicksOnce ⟨dispatchinit sampleImage, fun _ => 0, fun _ => 0⟩ :=
    ⟨_, ⟨sampleImage, rfl⟩, .refl⟩
  refine h₀.tail (a := .other) trivial ⟨⟨rfl, ?_, ?_, ?_⟩, rfl, rfl⟩ <;> decide +kernel

theorem napSwitched_reachable : naps.ReachableUnder TicksOnce napSwitched := by
  have hone : naps.ReachableUnder TicksOnce napOne := by
    refine napStart_reachable.tail (a := .sleep 10 1) trivial
      (Nap.sleep_step ⟨?_, ⟨?_, ?_, ?_⟩, ?_⟩ ?_) <;> decide +kernel
  refine hone.tail (a := .other) trivial ⟨⟨rfl, ?_, ?_, ?_⟩, rfl, rfl⟩ <;> decide +kernel

/-- Process 2 may sleep for two ticks or for three. -/
theorem napSleeping_reachable {ms : Word} (hms : ms = 20 ∨ ms = 30) :
    naps.ReachableUnder TicksOnce (napSwitched.sleep ms 2) := by
  refine napSwitched_reachable.tail (a := .sleep ms 2) trivial
    (Nap.sleep_step ⟨?_, ⟨?_, ?_, ?_⟩, ?_⟩ ?_)
  case refine_6 => rcases hms with rfl | rfl <;> decide +kernel
  all_goals decide +kernel

theorem napBoth_reachable : naps.ReachableUnder TicksOnce napBoth :=
  napSleeping_reachable (.inr rfl)

/-- Both sleep, and the first tick comes. -/
theorem sleepers_kept_of_two : ∃ l, Chain napBoth.k.link napBoth.k.headsleeper l ∧
    TicksInOrder napBoth napBoth.tick l := by
  obtain ⟨l, hl, -, -, -, -, htick, -⟩ := sleepers_kept napBoth_reachable.reachable
  exact ⟨l, hl, htick _ (Nap.tick_step (by decide +kernel))⟩

/-- Process 2 sleeps for two ticks, one more than process 1. -/
def napPair : Nap := napSwitched.sleep 20 2

theorem napPair_reachable : naps.ReachableUnder TicksOnce napPair :=
  napSleeping_reachable (.inl rfl)

/-- The first tick wakes process 1, and the second one process 2, which asked for two. -/
theorem no_early_wakeup_of_two : (napPair.tick.k.proctab 1).state = .ready ∧
    (napPair.tick.k.proctab 2).state = .sleep ∧ (napPair.tick.tick.k.proctab 2).state = .ready ∧
    napPair.tick.tick.asked 2 = 2 ∧ napPair.tick.tick.asked 2 ≤ napPair.tick.tick.age 2 := by
  have hfacts : CountsOnce napPair.k ∧ (tick napPair.k 10).isOk = true ∧
      (tick napPair.tick.k 10).isOk = true ∧ (napPair.tick.k.proctab 1).state = .ready ∧
      (napPair.tick.k.proctab 2).state = .sleep ∧
      (napPair.tick.tick.k.proctab 2).state = .ready ∧ napPair.tick.tick.asked 2 = 2 := by
    decide +kernel
  obtain ⟨honce, h₁, h₂, hone, hsleep, hready, hasked⟩ := hfacts
  have hreach : naps.ReachableUnder TicksOnce napPair.tick :=
    napPair_reachable.tail (a := .tick) honce (Nap.tick_step h₁)
  refine ⟨hone, hsleep, hready, hasked, ?_⟩
  refine (no_early_wakeup hreach (Nap.tick_step h₂) hsleep ?_).2
  rw [hready]
  decide

/-- Process 2 asked for three ticks and is woken by the second one. -/
theorem early_wakeup : naps.Reachable napBoth.tick ∧
    naps.step napBoth.tick .tick napBoth.tick.tick ∧
    (napBoth.tick.k.proctab 2).state = .sleep ∧ (napBoth.tick.tick.k.proctab 2).state = .ready ∧
    napBoth.tick.tick.age 2 = 2 ∧ napBoth.tick.tick.asked 2 = 3 := by
  refine ⟨napBoth_reachable.reachable.tail trivial (Nap.tick_step ?_), Nap.tick_step ?_,
    ?_, ?_, ?_, ?_⟩ <;> decide +kernel

end Xeros
