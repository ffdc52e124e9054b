import Xeros.Logic.Boot
import Xeros.Logic.Sleepers

/-!
# Entering the sleep list

Where `sleep` enters a process in the delta list, and through which pointers it reads and writes
on the way. The search goes on to the next sleeper and reads its count before it knows that there
is one, so a process that sleeps longer than all others is entered with the help of what lies at
address 0.
-/

namespace Xeros

open Lib

variable {k k' : Kernel} {p q prev : Slot} {D : Deltas Slot} {fuel : Nat} {ms : Word}

/-! ## Where a process is entered -/

/-- `p` is entered in the list `D`, due `n` ticks from now: in front of the first sleeper that is
due no earlier, with the other times as they were. The counts of the pcbs are the delays of `D'`,
none of which is larger than it was. -/
structure Entered (k k' : Kernel) (p : Slot) (n : Nat) (D D' : Deltas Slot) : Prop where
  list : SleepList k' D'
  due : Deltas.due 0 D' = (Deltas.due 0 D).takeWhile (·.2 < n) ++
    (p, n) :: (Deltas.due 0 D).dropWhile (·.2 < n)
  borrow : ∀ e ∈ D', (e.1 = p ∧ e.2 ≤ n) ∨ ∃ d, (e.1, d) ∈ D ∧ e.2 ≤ d
  asleep : (k'.proctab p).state = .sleep
  state : ∀ q, q ≠ p → (k'.proctab q).state = (k.proctab q).state

/-- `sleep` comes back for every process that is not in the list, and enters it as many ticks
from now as it asks for. -/
theorem sleep_enters (h : SleepList k D) (hD : D.total < 2 ^ 32) (hp : p ∉ procs D) :
    (∀ fuel, p ≠ 0 → D.length < fuel → ∃ k', sleep k fuel ms p = .ok k') ∧
    ∀ fuel k', sleep k fuel ms p = .ok k' →
      ∃ D', Entered k k' p (millisecondsToTicks ms).toNat D D' := by
  refine ⟨fun fuel hp0 hf => h.sleep_ok hp hp0 hf, fun fuel k' hs => ?_⟩
  obtain ⟨-, hlist, hkeep⟩ := h.sleep hp hD hs
  refine ⟨_, hlist, ?_, fun e he => Deltas.insert_le he, ?_, fun q hq => ?_⟩
  · have hdue := Deltas.due_insert (D := D) (x := p) (n := (millisecondsToTicks ms).toNat) (t := 0)
    rwa [Nat.zero_add] at hdue
  · rw [hkeep.state, Kernel.upd_proctab_self]
    rfl
  · rw [hkeep.state, Kernel.upd_proctab_ne _ _ _ hq]

/-- Process 1 sleeps, due at the next tick, and process 2 runs. -/
def bedtime : Kernel :=
  (((dispatchinit sampleImage).upd 1 fun c =>
    { c with pid := 1, state := .sleep, sleepticks := 1 }).upd 2 fun c =>
    { c with pid := 2, state := .running }).setSleeper (some 1)

theorem bedtime_list : SleepList bedtime [(1, 1)] := by
  refine ⟨⟨rfl, rfl⟩, List.nodup_singleton 1, fun e he => ?_⟩
  obtain rfl := List.mem_singleton.mp he
  rfl

/-- Process 2 sleeps for three ticks. -/
theorem sleep_enters_of_two : ∃ k' D', sleep bedtime 10 30 2 = .ok k' ∧
    Entered bedtime k' 2 3 [(1, 1)] D' := by
  obtain ⟨k', hk⟩ : ∃ k', sleep bedtime 10 30 2 = .ok k' :=
    (sleep_enters bedtime_list (by decide) (by decide)).1 10 (by decide) (by decide)
  obtain ⟨D', hD⟩ := (sleep_enters bedtime_list (by decide) (by decide)).2 10 k' hk
  exact ⟨k', D', hk, hD⟩

/-! ## The accesses of `sleep` -/

/-- An access of `sleep`: to `headsleeper`, or to a field of the pcb that a pointer leads to. -/
inductive SleepAccess where
  | headsleeper
  | pcb (o : Option Slot)
  deriving DecidableEq

/-- The loop of `sleep`, with its accesses. -/
def loggedSleepLoop (k : Kernel) (p : Slot) (ticks : Word) : Nat → Slot → Option Slot → Word →
    List SleepAccess → Run ((Slot × Option Slot × Word) × List SleepAccess)
  | 0, _, _, _, _ => .error .spin
  | _ + 1, prev, none, acc, log => return ((prev, none, acc), log)
  | fuel + 1, prev, some n, acc, log =>
    -- `(next)&&(accumulator < p->sleepticks)`
    let log := log ++ [.pcb (some p)]
    if acc < ticks then
      let nxt := (k.proctab n).next
      -- `next=next->next; accumulator += next->sleepticks;`
      loggedSleepLoop k p ticks fuel n nxt (acc + (k.deref nxt).sleepticks)
        (log ++ [.pcb (some n), .pcb nxt])
    else return ((prev, some n, acc), log)

/-- The accesses of the insertion of `p` between `prev` and `nxt`. -/
def insertAccesses (p prev : Slot) (nxt : Option Slot) : List SleepAccess :=
  -- `accumulator -= next->sleepticks; p->next=next; prev->next=p;`
  [.pcb nxt, .pcb (some p), .pcb (some prev),
    -- `p->sleepticks=p->sleepticks-accumulator;`
    .pcb (some p),
    -- `p->next->sleepticks = p->next->sleepticks - p->sleepticks;`
    .pcb (some p), .pcb nxt]

/-- The accesses of the insertion of `p` in front of the list, the head of which is `o`. -/
def pushAccesses (p : Slot) (o : Option Slot) : List SleepAccess :=
  -- `p->next=next; if (next) next->sleepticks-=p->sleepticks; headsleeper=p;`
  match o with
  | none => [.pcb (some p), .headsleeper]
  | some h => [.pcb (some p), .pcb (some h), .pcb (some p), .headsleeper]

/-- `sleep`, with its accesses. -/
def loggedSleep (k : Kernel) (fuel : Nat) (milliseconds : Word) (p : Slot) :
    Run (Kernel × List SleepAccess) := do
  let ticks := millisecondsToTicks milliseconds
  let k := k.upd p fun c => c.toSleep ticks
  kassert (p ≠ 0)
  let log := [.pcb (some p), .headsleeper]
  match k.headsleeper with
  | none => return (pushSleeper k p, log ++ pushAccesses p none)
  | some h =>
    -- `next->sleepticks < p->sleepticks`
    let log := log ++ [.pcb (some h), .pcb (some p)]
    if (k.proctab h).sleepticks < ticks then
      let ((prev, nxt, acc), log) ←
        loggedSleepLoop k p ticks fuel h (some h) (k.proctab h).sleepticks log
      return (insertSleeper k p prev nxt acc, log ++ insertAccesses p prev nxt)
    else return (pushSleeper k p, log ++ pushAccesses p (some h))

theorem mem_insertAccesses {nxt : Option Slot} {e : SleepAccess} :
    e ∈ insertAccesses p prev nxt ↔ e = .pcb nxt ∨ e = .pcb (some p) ∨ e = .pcb (some prev) := by
  unfold insertAccesses
  simp only [List.mem_cons, List.not_mem_nil, or_false]
  tauto

theorem mem_pushAccesses {o : Option Slot} {e : SleepAccess} (he : e ∈ pushAccesses p o) :
    e = .headsleeper ∨ e = .pcb (some p) ∨ ∃ h, o = some h ∧ e = .pcb (some h) := by
  cases o with
  | none =>
      simp only [pushAccesses, List.mem_cons, List.not_mem_nil, or_false] at he
      exact he.elim (fun he => .inr (.inl he)) .inl
  | some h =>
      simp only [pushAccesses, List.mem_cons, List.not_mem_nil, or_false] at he
      rcases he with he | he | he | he
      · exact .inr (.inl he)
      · exact .inr (.inr ⟨h, rfl, he⟩)
      · exact .inr (.inl he)
      · exact .inl he

/-- The log of the loop changes nothing. -/
theorem loggedSleepLoop_eq (k : Kernel) (p : Slot) (ticks : Word) (fuel : Nat) (prev : Slot)
    (x : Option Slot) (acc : Word) (log : List SleepAccess) :
    Prod.fst <$> loggedSleepLoop k p ticks fuel prev x acc log
      = sleepLoop k ticks fuel prev x acc := by
  induction fuel generalizing prev x acc log with
  | zero => rfl
  | succ fuel ih =>
      cases x with
      | none => rfl
      | some n =>
          unfold loggedSleepLoop sleepLoop
          dsimp only
          split
          · exact ih _ _ _ _
          · rfl

/-- The logged `sleep` leaves what `sleep` leaves. -/
theorem loggedSleep_eq (k : Kernel) (fuel : Nat) (ms : Word) (p : Slot) :
    Prod.fst <$> loggedSleep k fuel ms p = sleep k fuel ms p := by
  unfold loggedSleep sleep
  dsimp only
  cases hp : kassert (p ≠ 0) with
  | error e => rfl
  | ok u =>
      show Prod.fst <$> (match k.headsleeper with | none => _ | some h => _) =
        (match k.headsleeper with | none => _ | some h => _)
      cases k.headsleeper with
      | none => rfl
      | some h =>
          dsimp only
          split
          · rw [← loggedSleepLoop_eq _ p _ fuel _ _ _
              ([.pcb (some p), .headsleeper] ++ [.pcb (some h), .pcb (some p)])]
            generalize loggedSleepLoop _ p _ fuel _ _ _ _ = r
            cases r with
            | error e => rfl
            | ok r => rfl
          · rfl

/-! ## Sleepers that are due no earlier -/

/-- Some process of the list is due no earlier than `ticks`, when its counts are added up from
`acc` on. -/
def Reaches (count : Slot → Word) (ticks : Word) : Word → List Slot → Prop
  | _, [] => False
  | acc, q :: l => ticks ≤ acc + count q ∨ Reaches count ticks (acc + count q) l

variable {g : Slot → Word} {ticks acc : Word} {l : List Slot}

theorem reaches_iff : Reaches g ticks acc l ↔
    ∃ i, i < l.length ∧ ticks ≤ acc + ((l.take (i + 1)).map g).sum := by
  induction l generalizing acc with
  | nil => simp [Reaches]
  | cons q l ih =>
      have hsum : ∀ i, acc + (((q :: l).take (i + 1)).map g).sum
          = acc + g q + ((l.take i).map g).sum := by
        intro i
        rw [List.take_succ_cons, List.map_cons, List.sum_cons, add_assoc]
      unfold Reaches
      rw [ih]
      constructor
      · rintro (hq | ⟨i, hi, hle⟩)
        · refine ⟨0, Nat.succ_pos _, ?_⟩
          rw [hsum]
          simpa using hq
        · refine ⟨i + 1, Nat.succ_lt_succ hi, ?_⟩
          rw [hsum]
          exact hle
      · rintro ⟨i, hi, hle⟩
        rw [hsum] at hle
        cases i with
        | zero => exact .inl (by simpa using hle)
        | succ i => exact .inr ⟨i, Nat.lt_of_succ_lt_succ hi, hle⟩

/-- The part of the list that is left when the link of `p` has been cleared. -/
def cutAt (p : Slot) : List Slot → List Slot
  | [] => []
  | q :: l => if q = p then [p] else q :: cutAt p l

theorem mem_cutAt (hq : q ∈ cutAt p l) : q ∈ l := by
  induction l with
  | nil => exact hq
  | cons a l ih =>
      unfold cutAt at hq
      split at hq
      · rename_i ha
        obtain rfl := List.mem_singleton.mp hq
        exact List.mem_cons.mpr (.inl ha.symm)
      · exact List.mem_cons.mpr ((List.mem_cons.mp hq).imp id ih)

theorem cutAt_of_notMem (hp : p ∉ l) : cutAt p l = l := by
  induction l with
  | nil => rfl
  | cons a l ih =>
      rw [List.mem_cons, not_or] at hp
      rw [cutAt, if_neg (Ne.symm hp.1), ih hp.2]

theorem length_cutAt : (cutAt p l).length ≤ l.length := by
  induction l with
  | nil => exact Nat.le_refl 0
  | cons a l ih =>
      unfold cutAt
      split
      · exact Nat.succ_le_succ (Nat.zero_le _)
      · exact Nat.succ_le_succ ih

theorem chain_cutAt {x : Option Slot} (h : Chain k.link x l) :
    Chain (k.upd p fun c => c.toSleep ticks).link x (cutAt p l) := by
  induction l generalizing x with
  | nil => exact h
  | cons a l ih =>
      obtain ⟨rfl, hl⟩ := h
      unfold cutAt
      split
      · rename_i ha
        subst ha
        exact ⟨rfl, by simp [Kernel.link, Pcb.toSleep]⟩
      · rename_i ha
        refine ⟨rfl, ?_⟩
        have hlink : (k.upd p fun c => c.toSleep ticks).link a = k.link a := by
          simp [Kernel.link, ha]
        rw [hlink]
        exact ih hl

/-! ## What is accessed -/

/-- The counts of the pcbs. -/
def Kernel.count (k : Kernel) (q : Slot) : Word := (k.proctab q).sleepticks

/-- An access that the sleep list allows: to its head, to `p` or to a process in the list. -/
def SleepAccess.Within (p : Slot) (l : List Slot) (e : SleepAccess) : Prop :=
  e = .headsleeper ∨ ∃ q, e = .pcb (some q) ∧ (q = p ∨ q ∈ l)

theorem SleepAccess.Within.ne_null {e : SleepAccess} (h : e.Within p l) : e ≠ .pcb none := by
  rintro rfl
  rcases h with h | ⟨q, h, -⟩
  · cases h
  · cases h

/-- What the loop of `sleep` has done when it stops: it has stopped at `NULL` unless it has
reached a process that is due no earlier, and only then it has gone through `NULL`. -/
structure Searched (k : Kernel) (p : Slot) (ticks acc : Word) (prev : Slot) (l : List Slot)
    (log : List SleepAccess) (prev' : Slot) (nxt' : Option Slot) (log' : List SleepAccess) :
    Prop where
  stop : nxt' = none ↔ ¬ Reaches k.count ticks acc l
  prev : prev' = prev ∨ prev' ∈ l
  next : ∀ q, nxt' = some q → q ∈ l
  access : ∀ e ∈ log', e ∈ log ∨ e.Within p l ∨ (e = .pcb none ∧ nxt' = none)

theorem loggedSleepLoop_spec {fuel : Nat} {x nxt' : Option Slot} {acc' : Word} {prev' : Slot}
    {log log' : List SleepAccess} (hc : Chain k.link x l)
    (h : loggedSleepLoop k p ticks fuel prev x (acc + (k.deref x).sleepticks) log
      = .ok ((prev', nxt', acc'), log')) :
    Searched k p ticks acc prev l log prev' nxt' log' := by
  induction fuel generalizing prev x acc log l with
  | zero => cases h
  | succ fuel ih =>
      cases x with
      | none =>
          obtain rfl := Chain.none_iff.mp hc
          simp only [loggedSleepLoop, pure, Except.pure, Except.ok.injEq, Prod.mk.injEq] at h
          obtain ⟨⟨rfl, rfl, -⟩, rfl⟩ := h
          refine ⟨⟨fun _ hr => hr, fun _ => rfl⟩, .inl rfl, ?_, fun e he => .inl he⟩
          rintro q ⟨⟩
      | some n =>
          obtain ⟨l', rfl, hc'⟩ := Chain.some_iff.mp hc
          have hp : (SleepAccess.pcb (some p)).Within p (n :: l') := .inr ⟨p, rfl, .inl rfl⟩
          simp only [loggedSleepLoop] at h
          split at h
          · -- `n` is passed, and the count of the next one is read, if there is one
            rename_i hlt
            have hs := ih hc' h
            have hnot : ¬ ticks ≤ acc + k.count n := BitVec.not_le.mpr hlt
            have hreach : Reaches k.count ticks acc (n :: l')
                ↔ Reaches k.count ticks (acc + k.count n) l' := or_iff_right hnot
            refine ⟨hs.stop.trans (not_congr hreach.symm), ?_, fun q hq => ?_, fun e he => ?_⟩
            · rcases hs.prev with rfl | hm
              · exact .inr List.mem_cons_self
              · exact .inr (List.mem_cons_of_mem _ hm)
            · exact List.mem_cons_of_mem _ (hs.next q hq)
            · rcases hs.access e he with he | hw | hnull
              · rw [List.mem_append, List.mem_append, List.mem_singleton, List.mem_cons,
                  List.mem_singleton] at he
                rcases he with (he | rfl) | rfl | rfl
                · exact .inl he
                · exact .inr (.inl hp)
                · exact .inr (.inl (.inr ⟨n, rfl, .inr List.mem_cons_self⟩))
                · cases l' with
                  | nil =>
                      -- `n` is the last
                      have hn : k.link n = none := hc'
                      exact .inr (.inr ⟨congrArg SleepAccess.pcb hn, hs.stop.mpr fun hr => hr⟩)
                  | cons m l' =>
                      have hn : k.link n = some m := hc'.1
                      refine .inr (.inl (.inr ⟨m, congrArg SleepAccess.pcb hn, .inr ?_⟩))
                      exact List.mem_cons_of_mem _ List.mem_cons_self
              · refine .inr (.inl (hw.imp id ?_))
                rintro ⟨q, rfl, hq⟩
                exact ⟨q, rfl, hq.imp id (List.mem_cons_of_mem _)⟩
              · exact .inr (.inr hnull)
          · -- the search stops in front of `n`
            rename_i hstop
            simp only [pure, Except.pure, Except.ok.injEq, Prod.mk.injEq] at h
            obtain ⟨⟨rfl, rfl, -⟩, rfl⟩ := h
            have hle : ticks ≤ acc + k.count n := BitVec.not_lt.mp hstop
            refine ⟨⟨?_, fun hr => absurd (.inl hle) hr⟩, .inl rfl, ?_, fun e he => ?_⟩
            · rintro ⟨⟩
            · rintro q ⟨⟩
              exact List.mem_cons_self
            · rcases List.mem_append.mp he with he | he
              · exact .inl he
              · exact .inr (.inl (List.mem_singleton.mp he ▸ hp))

/-- Some sleeper is due no earlier than `p`, which asks for `ticks`, when the counts are added up
as words. A process that is in the list already has its new count and ends the list. -/
def Outlasted (k : Kernel) (p : Slot) (ticks : Word) (l : List Slot) : Prop :=
  ∃ i, i < (cutAt p l).length ∧ ticks ≤ (((cutAt p l).take (i + 1)).map fun q =>
    if q = p then ticks else (k.proctab q).sleepticks).sum

theorem outlasted_iff : Outlasted k p ticks l ↔
    Reaches (k.upd p fun c => c.toSleep ticks).count ticks 0 (cutAt p l) := by
  have hcount : (k.upd p fun c => c.toSleep ticks).count
      = fun q => if q = p then ticks else (k.proctab q).sleepticks := by
    funext q
    by_cases hq : q = p
    · simp [Kernel.count, hq, Pcb.toSleep]
    · simp [Kernel.count, hq]
  rw [reaches_iff, hcount]
  simp only [zero_add]
  rfl

/-- When the counts do not overflow, the last sleeper decides. -/
theorem reaches_procs (hd : ∀ e ∈ D, (k.proctab e.1).sleepticks.toNat = e.2)
    (hD : acc.toNat + D.total < 2 ^ 32) :
    Reaches k.count ticks acc (procs D) ↔ D ≠ [] ∧ ticks.toNat ≤ acc.toNat + D.total := by
  induction D generalizing acc with
  | nil => simp [Reaches]
  | cons e D ih =>
      obtain ⟨q, d⟩ := e
      have hq : (k.proctab q).sleepticks.toNat = d := hd (q, d) List.mem_cons_self
      rw [Deltas.total_cons] at hD
      have hval : (acc + k.count q).toNat = acc.toNat + d := by
        rw [BitVec.toNat_add]
        show (acc.toNat + (k.proctab q).sleepticks.toNat) % 2 ^ 32 = _
        omega
      have hrest := @ih (acc + k.count q) (fun e he => hd e (List.mem_cons_of_mem _ he))
        (by omega)
      rw [procs_cons, Reaches, hrest, BitVec.le_def, hval, Deltas.total_cons]
      constructor
      · rintro (hle | ⟨-, hle⟩)
        · exact ⟨by simp, by omega⟩
        · exact ⟨by simp, by omega⟩
      · rintro ⟨-, hle⟩
        cases D with
        | nil => exact .inl (by simpa using hle)
        | cons b D => exact .inr ⟨by simp, by omega⟩

/-- In a list of natural delays, some sleeper outlasts a process that is not in the list if and
only if the last one does. -/
theorem SleepList.outlasted_iff (h : SleepList k D) (hD : D.total < 2 ^ 32) (hp : p ∉ procs D) :
    Outlasted k p ticks (procs D) ↔ D ≠ [] ∧ ticks.toNat ≤ D.total := by
  have hne : ∀ q ∈ procs D, q ≠ p := by
    rintro q hq rfl
    exact hp hq
  have hd : ∀ e ∈ D, ((k.upd p fun c => c.toSleep ticks).proctab e.1).sleepticks.toNat = e.2 := by
    intro e he
    rw [Kernel.upd_proctab_ne _ _ _ (hne e.1 (mem_procs he))]
    exact h.delay e he
  rw [Xeros.outlasted_iff, cutAt_of_notMem hp, reaches_procs hd (by simpa using hD)]
  simp

theorem within_self : (SleepAccess.pcb (some p)).Within p l := .inr ⟨p, rfl, .inl rfl⟩

theorem within_mem (hq : q ∈ l) : (SleepAccess.pcb (some q)).Within p l := .inr ⟨q, rfl, .inr hq⟩

theorem push_within {o : Option Slot} (ho : ∀ q, o = some q → q ∈ l) :
    ∀ e ∈ pushAccesses p o, e.Within p l := by
  intro e he
  rcases mem_pushAccesses he with rfl | rfl | ⟨q, hq, rfl⟩
  · exact .inl rfl
  · exact within_self
  · exact within_mem (ho q hq)

/-- After a search that began within the list, the insertion goes through `NULL` only if the
search stopped there. -/
theorem Searched.insert {prev' : Slot} {nxt' : Option Slot} {log log' : List SleepAccess}
    (h : Searched k p ticks acc prev (cutAt p l) log prev' nxt' log') (hprev : prev ∈ l)
    (hlog : ∀ e ∈ log, e.Within p l) :
    (∀ e ∈ log' ++ insertAccesses p prev' nxt',
      e.Within p l ∨ (e = .pcb none ∧ nxt' = none)) ∧
    (.pcb none ∈ log' ++ insertAccesses p prev' nxt' ↔ nxt' = none) := by
  have hprev' : prev' ∈ l := by
    rcases h.prev with rfl | hm
    · exact hprev
    · exact mem_cutAt hm
  have hall : ∀ e ∈ log' ++ insertAccesses p prev' nxt',
      e.Within p l ∨ (e = .pcb none ∧ nxt' = none) := by
    intro e he
    rcases List.mem_append.mp he with he | he
    · rcases h.access e he with he | he | he
      · exact .inl (hlog e he)
      · exact .inl (he.imp id fun ⟨q, hq, hm⟩ => ⟨q, hq, hm.imp id mem_cutAt⟩)
      · exact .inr he
    · rcases mem_insertAccesses.mp he with rfl | rfl | rfl
      · cases hn : nxt' with
        | none => exact .inr ⟨rfl, rfl⟩
        | some q => exact .inl (within_mem (mem_cutAt (h.next q hn)))
      · exact .inl within_self
      · exact .inl (within_mem hprev')
  refine ⟨hall, fun hn => ?_, ?_⟩
  · rcases hall _ hn with hw | ⟨-, hnone⟩
    · exact absurd rfl hw.ne_null
    · exact hnone
  · rintro rfl
    exact List.mem_append_right _ (mem_insertAccesses.mpr (.inl rfl))

/-- The accesses of `sleep`: it goes through `NULL` if there is a sleeper and none is due as late
as `p`. -/
theorem loggedSleep_spec (h : Chain k.link k.headsleeper l) {log : List SleepAccess}
    (hs : loggedSleep k fuel ms p = .ok (k', log)) :
    (∀ e ∈ log, e.Within p l ∨ e = .pcb none) ∧
      (.pcb none ∈ log ↔ l ≠ [] ∧ ¬ Outlasted k p (millisecondsToTicks ms) l) := by
  have hc : Chain (k.upd p fun c => c.toSleep (millisecondsToTicks ms)).link k.headsleeper
      (cutAt p l) := chain_cutAt h
  rw [Xeros.outlasted_iff]
  unfold loggedSleep at hs
  simp only [Run.bind_eq_ok] at hs
  obtain ⟨_, -, hs⟩ := hs
  generalize hk₁ : (k.upd p fun c => c.toSleep (millisecondsToTicks ms)) = k₁ at hs hc ⊢
  have hhead : k₁.headsleeper = k.headsleeper := by
    rw [← hk₁]
    rfl
  rw [hhead] at hs
  -- a log within the list has not gone through `NULL`
  have hwithin : ∀ log : List SleepAccess, (∀ e ∈ log, e.Within p l) →
      ¬ (l ≠ [] ∧ ¬ Reaches k₁.count (millisecondsToTicks ms) 0 (cutAt p l)) →
      (∀ e ∈ log, e.Within p l ∨ e = .pcb none) ∧ (.pcb none ∈ log ↔
        l ≠ [] ∧ ¬ Reaches k₁.count (millisecondsToTicks ms) 0 (cutAt p l)) :=
    fun log hall hno => ⟨fun e he => .inl (hall e he),
      iff_of_false (fun hn => (hall _ hn).ne_null rfl) hno⟩
  have hfirst : ∀ e ∈ [.pcb (some p), .headsleeper], SleepAccess.Within p l e := by
    intro e he
    rw [List.mem_cons, List.mem_singleton] at he
    rcases he with rfl | rfl
    · exact within_self
    · exact .inl rfl
  cases hx : k.headsleeper with
  | none =>
      rw [hx] at hs h
      obtain rfl := Chain.none_iff.mp h
      simp only [pure, Except.pure, Except.ok.injEq, Prod.mk.injEq] at hs
      obtain ⟨-, rfl⟩ := hs
      refine hwithin _ (fun e he => ?_) fun hno => hno.1 rfl
      rcases List.mem_append.mp he with he | he
      · exact hfirst e he
      · refine push_within ?_ e he
        rintro q ⟨⟩
  | some b =>
      rw [hx] at hs h hc
      obtain ⟨l', rfl, -⟩ := Chain.some_iff.mp h
      have hstart : ∀ e ∈ [.pcb (some p), .headsleeper] ++ [.pcb (some b), .pcb (some p)],
          SleepAccess.Within p (b :: l') e := by
        intro e he
        rcases List.mem_append.mp he with he | he
        · exact hfirst e he
        · rw [List.mem_cons, List.mem_singleton] at he
          rcases he with rfl | rfl
          · exact within_mem List.mem_cons_self
          · exact within_self
      dsimp only at hs
      split at hs
      · -- the first sleeper is passed, and the search begins
        simp only [Run.bind_eq_ok, pure, Except.pure, Except.ok.injEq, Prod.mk.injEq] at hs
        obtain ⟨⟨⟨prev', nxt', acc'⟩, log'⟩, hloop, -, rfl⟩ := hs
        rw [← BitVec.zero_add (k₁.proctab b).sleepticks] at hloop
        have hse := loggedSleepLoop_spec hc hloop
        obtain ⟨hall, hnull⟩ := hse.insert List.mem_cons_self hstart
        refine ⟨fun e he => (hall e he).imp id And.left, ?_⟩
        exact hnull.trans (hse.stop.trans (and_iff_right (List.cons_ne_nil b l')).symm)
      · -- it is due no earlier
        rename_i hnlt
        simp only [pure, Except.pure, Except.ok.injEq, Prod.mk.injEq] at hs
        obtain ⟨-, rfl⟩ := hs
        refine hwithin _ (fun e he => ?_) fun hno => hno.2 ?_
        · rcases List.mem_append.mp he with he | he
          · exact hstart e he
          · refine push_within ?_ e he
            rintro q ⟨⟩
            exact List.mem_cons_self
        · have hle : millisecondsToTicks ms ≤ 0 + k₁.count b := by
            rw [zero_add]
            exact BitVec.not_lt.mp hnlt
          unfold cutAt
          split
          · rename_i hbp
            exact .inl (hbp ▸ hle)
          · exact .inl hle

/-- `sleep` comes back for every process, in the list or not. -/
theorem loggedSleep_ok (h : Chain k.link k.headsleeper l) (hp : p ≠ 0) (hf : l.length < fuel) :
    ∃ r, loggedSleep k fuel ms p = .ok r := by
  obtain ⟨k', hk⟩ : ∃ k', sleep k fuel ms p = .ok k' :=
    sleep_ok hp (Nat.lt_of_le_of_lt length_cutAt hf) (chain_cutAt h)
  rw [← loggedSleep_eq] at hk
  cases hr : loggedSleep k fuel ms p with
  | error e =>
      rw [hr] at hk
      cases hk
  | ok r => exact ⟨r, rfl⟩

/-- `sleep` comes back, and keeps to `headsleeper`, the process and the pcbs in the list, if and
only if the list is empty or some sleeper is due no earlier than the process. In a list of natural
delays without the process, the last sleeper decides. -/
theorem sleep_spares_null (h : Chain k.link k.headsleeper l) :
    (∀ fuel ms p, Prod.fst <$> loggedSleep k fuel ms p = sleep k fuel ms p) ∧
    (∀ fuel ms p, p ≠ 0 → l.length < fuel → ∃ r, loggedSleep k fuel ms p = .ok r) ∧
    (∀ fuel ms p k' log, loggedSleep k fuel ms p = .ok (k', log) →
      ((∀ e ∈ log, e.Within p l) ↔ l = [] ∨ Outlasted k p (millisecondsToTicks ms) l)) ∧
    ∀ D ms p, SleepList k D → procs D = l → D.total < 2 ^ 32 → p ∉ l →
      (Outlasted k p (millisecondsToTicks ms) l ↔
        D ≠ [] ∧ (millisecondsToTicks ms).toNat ≤ D.total) := by
  refine ⟨loggedSleep_eq k, fun fuel ms p hp hf => loggedSleep_ok h hp hf,
    fun fuel ms p k' log hs => ?_, ?_⟩
  · obtain ⟨hall, hnull⟩ := loggedSleep_spec h hs
    constructor
    · intro hw
      by_contra hno
      rw [not_or] at hno
      exact (hw _ (hnull.mpr hno)).ne_null rfl
    · intro hok e he
      refine (hall e he).resolve_right ?_
      rintro rfl
      obtain ⟨hne, hno⟩ := hnull.mp he
      exact hok.elim hne hno
  · rintro D ms p hlist rfl hD hp
    exact hlist.outlasted_iff hD hp

/-- Process 2 asks for one tick, as many as process 1 has to go. -/
theorem sleep_spares_null_of_two : ∃ k' log, loggedSleep bedtime 10 10 2 = .ok (k', log) ∧
    ∀ e ∈ log, e.Within 2 [1] := by
  obtain ⟨-, hback, hspares, hlast⟩ := sleep_spares_null bedtime_list.chain
  obtain ⟨⟨k', log⟩, hk⟩ := hback 10 10 2 (by decide) (by decide)
  have hout := (hlast [(1, 1)] 10 2 bedtime_list rfl (by decide) (by decide)).mpr (by decide)
  exact ⟨k', log, hk, (hspares 10 10 2 k' log hk).mpr (.inr hout)⟩

/-- It asks for three. -/
theorem sleep_through_null : ¬ ∀ (k k' : Kernel) (l : List Slot) (fuel : Nat) (ms : Word) (p : Slot)
    (log : List SleepAccess), Chain k.link k.headsleeper l → p ∉ l →
    loggedSleep k fuel ms p = .ok (k', log) → ∀ e ∈ log, e.Within p l := by
  intro h
  have hlog := h bedtime _ [1] 10 30 2 _ ⟨rfl, rfl⟩ (by decide)
    (Run.eq_getD (s := (bedtime, [])) (by decide +kernel)) (.pcb none) (by decide +kernel)
  exact hlog.ne_null rfl

end Xeros
