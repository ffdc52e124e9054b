import Xeros.Lib.DeltaList
import Xeros.Logic.Links

/-!
# The sleep list as a delta list

`sleep` enters a process in the delta list that `headsleeper` heads; `tick` wakes
the processes at its front and counts the others down, twice in one call when
the count of those woken was one.
-/

namespace Xeros

open Lib

variable {k k' k₁ k₂ : Kernel} {p q prev : Slot} {D A B : Deltas Slot} {fuel n : Nat}

/-- The processes of a sleep list. -/
def procs (D : Deltas Slot) : List Slot := D.map Prod.fst

@[simp] theorem procs_nil : procs [] = [] := rfl

@[simp] theorem procs_cons {d : Nat} : procs ((q, d) :: D) = q :: procs D := rfl

@[simp] theorem procs_append : procs (A ++ B) = procs A ++ procs B := List.map_append

theorem mem_procs {e : Slot × Nat} (he : e ∈ D) : e.1 ∈ procs D := List.mem_map_of_mem he

/-- The list headed by `headsleeper`, with the counts of its pcbs. -/
structure SleepList (k : Kernel) (D : Deltas Slot) : Prop where
  chain : Chain k.link k.headsleeper (procs D)
  nodup : (procs D).Nodup
  delay : ∀ e ∈ D, (k.proctab e.1).sleepticks.toNat = e.2

/-- Only the pcbs in the list matter. -/
theorem SleepList.congr (h : SleepList k D) (hh : k'.headsleeper = k.headsleeper)
    (hp : ∀ q ∈ procs D, k'.link q = k.link q ∧
      (k'.proctab q).sleepticks = (k.proctab q).sleepticks) : SleepList k' D := by
  refine ⟨?_, h.nodup, fun e he => ?_⟩
  · rw [hh]
    exact h.chain.congr fun q hq => (hp q hq).1
  · rw [(hp e.1 (mem_procs he)).2]
    exact h.delay e he

/-! ## Going to sleep -/

/-- The search of `sleep`, from the sleepers `B` on with `A` passed: it stops at the first
sleeper due no earlier than `ticks` from now. -/
theorem sleepLoop_spec {ticks acc acc' : Word} {x x' : Option Slot} {prev' : Slot}
    (hc : Chain k.link x (procs B)) (hd : ∀ e ∈ B, (k.proctab e.1).sleepticks.toNat = e.2)
    (hA : (procs A).getLast? = some prev) (hlt : A.total < ticks.toNat)
    (hB : (A ++ B).total < 2 ^ 32)
    (hacc : acc = BitVec.ofNat 32 A.total + (k.deref x).sleepticks)
    (h : sleepLoop k ticks fuel prev x acc = .ok (prev', x', acc')) :
    ∃ A' B', A ++ B = A' ++ B' ∧ (procs A').getLast? = some prev' ∧ x' = (procs B').head? ∧
      A'.total < ticks.toNat ∧ (∀ e ∈ B'.head?, ticks.toNat ≤ A'.total + e.2) ∧
      acc' = BitVec.ofNat 32 A'.total + (k.deref x').sleepticks := by
  induction fuel generalizing A B prev x acc with
  | zero => cases h
  | succ fuel ih =>
      cases B with
      | nil =>
          obtain rfl : x = none := hc
          simp only [sleepLoop, pure, Except.pure, Except.ok.injEq, Prod.mk.injEq] at h
          obtain ⟨rfl, rfl, rfl⟩ := h
          exact ⟨A, [], rfl, hA, rfl, hlt, by simp, hacc⟩
      | cons e B =>
          obtain ⟨b, d⟩ := e
          obtain ⟨rfl, hc⟩ := hc
          have hb : (k.proctab b).sleepticks.toNat = d := hd (b, d) List.mem_cons_self
          rw [Deltas.total_append, Deltas.total_cons] at hB
          have hval : acc.toNat = A.total + d := by
            rw [hacc, BitVec.toNat_add, BitVec.toNat_ofNat]
            show (A.total % 2 ^ 32 + (k.proctab b).sleepticks.toNat) % 2 ^ 32 = _
            omega
          simp only [sleepLoop] at h
          split at h
          · -- the sleeper `b` is passed
            rename_i hpass
            rw [BitVec.lt_def, hval] at hpass
            have hacc' : acc + (k.deref (k.link b)).sleepticks
                = BitVec.ofNat 32 (A ++ [(b, d)]).total + (k.deref (k.link b)).sleepticks := by
              congr 1
              refine BitVec.eq_of_toNat_eq ?_
              rw [hval, BitVec.toNat_ofNat, Deltas.total_append, Deltas.total_cons]
              show A.total + d = (A.total + (d + 0)) % 2 ^ 32
              omega
            obtain ⟨A', B', hAB, hrest⟩ := ih (A := A ++ [(b, d)]) hc
              (fun e he => hd e (List.mem_cons_of_mem _ he)) (by simp)
              (by simpa using hpass) (by simpa [Nat.add_assoc] using hB) hacc' h
            exact ⟨A', B', by rw [← hAB, List.append_assoc, List.singleton_append], hrest⟩
          · -- the search stops in front of `b`
            rename_i hstop
            rw [BitVec.lt_def, hval] at hstop
            simp only [pure, Except.pure, Except.ok.injEq, Prod.mk.injEq] at h
            obtain ⟨rfl, rfl, rfl⟩ := h
            refine ⟨A, (b, d) :: B, rfl, hA, rfl, hlt, ?_, hacc⟩
            rintro e ⟨⟩
            exact Nat.not_lt.mp hstop

/-- The search comes to an end. -/
theorem sleepLoop_ok {ticks acc : Word} {x : Option Slot} {l : List Slot}
    (hc : Chain k.link x l) (hf : l.length < fuel) :
    ∃ r, sleepLoop k ticks fuel prev x acc = .ok r := by
  induction fuel generalizing prev x l acc with
  | zero => simp at hf
  | succ fuel ih =>
      cases x with
      | none => exact ⟨_, rfl⟩
      | some b =>
          obtain ⟨l', rfl, hc'⟩ := Chain.some_iff.mp hc
          simp only [sleepLoop]
          split
          · exact ih hc' (by simpa using hf)
          · exact ⟨_, rfl⟩

/-- The pcbs after `p` has been linked in between `prev` and `nxt`. -/
theorem insertSleeper_proctab {nxt : Option Slot} {acc : Word} (hp : p ≠ prev)
    (hn : nxt ≠ some p) (q : Slot) :
    (insertSleeper k p prev nxt acc).link q
        = (if q = p then nxt else if q = prev then some p else k.link q) ∧
      ((insertSleeper k p prev nxt acc).proctab q).sleepticks
        = (if q = p then (k.proctab p).sleepticks - (acc - (k.deref nxt).sleepticks)
          else if nxt = some q then (k.proctab q).sleepticks
            - ((k.proctab p).sleepticks - (acc - (k.deref nxt).sleepticks))
          else (k.proctab q).sleepticks) ∧
      ((insertSleeper k p prev nxt acc).proctab q).state = (k.proctab q).state ∧
      ((insertSleeper k p prev nxt acc).proctab q).pid = (k.proctab q).pid := by
  unfold insertSleeper Kernel.link
  cases nxt with
  | none =>
      by_cases hq : q = p
      · subst hq
        simp [Kernel.updPtr, hp]
      · by_cases hq' : q = prev
        · subst hq'
          simp [Kernel.updPtr, hq, hp]
        · simp [Kernel.updPtr, hq, hq', hp]
  | some b =>
      have hb : b ≠ p := fun he => hn (congrArg some he)
      by_cases hq : q = p
      · subst hq
        simp [Kernel.updPtr, hp, Ne.symm hb]
      · by_cases hqb : b = q
        · subst hqb
          by_cases hq' : b = prev
          · subst hq'
            simp [Kernel.updPtr, hb, hp]
          · simp [Kernel.updPtr, hb, hq', hp]
        · have hqb' : q ≠ b := Ne.symm hqb
          by_cases hq' : q = prev
          · subst hq'
            simp [Kernel.updPtr, hq, hqb, hqb', hp]
          · simp [Kernel.updPtr, hq, hq', hqb, hqb', hp]

/-- What a change of the sleep list leaves alone. -/
structure KeepsStates (k k' : Kernel) : Prop where
  state : ∀ q, (k'.proctab q).state = (k.proctab q).state
  pid : ∀ q, (k'.proctab q).pid = (k.proctab q).pid
  tail : k'.tail = k.tail

/-- It is not the first of the list. -/
theorem insertSleeper_heads (k : Kernel) (p prev : Slot) (nxt : Option Slot) (acc : Word) :
    (insertSleeper k p prev nxt acc).headsleeper = k.headsleeper ∧
      (insertSleeper k p prev nxt acc).tail = k.tail := by
  unfold insertSleeper Kernel.updPtr
  dsimp only
  split
  · exact ⟨rfl, rfl⟩
  · exact ⟨rfl, rfl⟩

/-- The links lead over `prev` to `p`, and on as before. -/
theorem insertSleeper_chain {l₁ l₂ : List Slot} (acc : Word)
    (hc : Chain k.link k.headsleeper (l₁ ++ l₂)) (hnd : (l₁ ++ l₂).Nodup) (hp : p ∉ l₁ ++ l₂)
    (hl : l₁.getLast? = some prev) :
    Chain (insertSleeper k p prev l₂.head? acc).link
      (insertSleeper k p prev l₂.head? acc).headsleeper (l₁ ++ p :: l₂) := by
  obtain ⟨l₀, rfl⟩ := List.getLast?_eq_some_iff.mp hl
  have hpp : p ≠ prev := by
    rintro rfl
    exact hp (by simp)
  have hnp : l₂.head? ≠ some p :=
    fun he => hp (List.mem_append_right _ (List.mem_of_mem_head? he))
  have hlink := fun q => (@insertSleeper_proctab k p prev l₂.head? acc hpp hnp q).1
  have hmid : k.link prev = l₂.head? := by
    obtain ⟨m, h₁, h₂⟩ := Seg.append_iff.mp hc
    rw [(Seg.snoc_iff.mp h₁).2]
    cases l₂ with
    | nil => exact h₂
    | cons b l₂ => exact h₂.1
  rw [(insertSleeper_heads k p prev _ acc).1]
  refine hc.splice hnd hp (fun b hbprev hbp => ?_) ?_ ?_
  · rw [hlink, if_neg hbp, if_neg hbprev]
  · rw [hlink, if_neg (Ne.symm hpp), if_pos rfl]
  · rw [hlink, if_pos rfl, hmid]

/-- A process with `n` ticks to go is linked in behind the sleepers `A`, the last of which
is `prev`. -/
theorem SleepList.insertSleeper {acc : Word} (h : SleepList k (A ++ B)) (hp : p ∉ procs (A ++ B))
    (hA : (procs A).getLast? = some prev) (hlt : A.total < (k.proctab p).sleepticks.toNat)
    (hB : ∀ e ∈ B.head?, (k.proctab p).sleepticks.toNat ≤ A.total + e.2)
    (hacc : acc = BitVec.ofNat 32 A.total + (k.deref (procs B).head?).sleepticks) :
    SleepList (Xeros.insertSleeper k p prev (procs B).head? acc)
        ((A ++ B).insert p (k.proctab p).sleepticks.toNat) ∧
      KeepsStates k (Xeros.insertSleeper k p prev (procs B).head? acc) := by
  have hnd := h.nodup
  have hchain := h.chain
  rw [procs_append] at hnd hp hchain
  have hpA : p ∉ procs A := fun hm => hp (List.mem_append_left _ hm)
  have hpB : p ∉ procs B := fun hm => hp (List.mem_append_right _ hm)
  have hpp : p ≠ prev := by
    rintro rfl
    exact hpA (List.mem_of_getLast? hA)
  have hnp : (procs B).head? ≠ some p := fun he => hpB (List.mem_of_mem_head? he)
  have hspec := @insertSleeper_proctab k p prev (procs B).head? acc hpp hnp
  obtain ⟨-, htail⟩ := insertSleeper_heads k p prev (procs B).head? acc
  have hchain' := insertSleeper_chain acc hchain hnd hp hA
  generalize Xeros.insertSleeper k p prev (procs B).head? acc = k' at hspec htail hchain' ⊢
  refine ⟨?_, fun q => (hspec q).2.2.1, fun q => (hspec q).2.2.2, htail⟩
  rw [Deltas.insert_append hlt]
  -- the count of `p`, relative to `prev`
  have hrel : ((k.proctab p).sleepticks - (acc - (k.deref (procs B).head?).sleepticks)).toNat
      = (k.proctab p).sleepticks.toNat - A.total := by
    have hlt' := (k.proctab p).sleepticks.isLt
    rw [hacc, BitVec.add_sub_cancel, BitVec.toNat_sub, BitVec.toNat_ofNat]
    omega
  have hpcount : (k'.proctab p).sleepticks.toNat = (k.proctab p).sleepticks.toNat - A.total := by
    rw [(hspec p).2.1, if_pos rfl, hrel]
  -- the sleepers that keep their counts
  have hsame : ∀ e ∈ A ++ B, (procs B).head? ≠ some e.1 →
      (k'.proctab e.1).sleepticks.toNat = e.2 := by
    intro e he hne
    have hep : e.1 ≠ p := by
      intro hep
      rw [← hep, ← procs_append] at hp
      exact hp (mem_procs he)
    rw [(hspec e.1).2.1, if_neg hep, if_neg hne]
    exact h.delay e he
  have hAfst : ∀ e ∈ A, (procs B).head? ≠ some e.1 := by
    intro e he hx
    exact (List.nodup_append.mp hnd).2.2 e.1 (mem_procs he) e.1 (List.mem_of_mem_head? hx) rfl
  have hnd' : (procs A ++ p :: procs B).Nodup := by
    rw [List.nodup_middle]
    exact List.nodup_cons.mpr ⟨hp, hnd⟩
  cases B with
  | nil =>
      refine ⟨by simpa [Deltas.insert] using hchain', by simpa [Deltas.insert] using hnd', ?_⟩
      intro e he
      rcases List.mem_append.mp he with he | he
      · exact hsame e (List.mem_append_left _ he) (hAfst e he)
      · obtain rfl := List.mem_singleton.mp he
        exact hpcount
  | cons b B =>
      obtain ⟨b, d⟩ := b
      have hd : ¬ d < (k.proctab p).sleepticks.toNat - A.total := by
        have := hB (b, d) rfl
        omega
      have hbp : b ≠ p := fun he => hnp (congrArg some he)
      simp only [Deltas.insert, if_neg hd]
      refine ⟨by simpa using hchain', by simpa using hnd', ?_⟩
      intro e he
      rcases List.mem_append.mp he with heA | hep
      · exact hsame e (List.mem_append_left _ heA) (hAfst e heA)
      rcases List.mem_cons.mp hep with rfl | heb
      · exact hpcount
      rcases List.mem_cons.mp heb with rfl | heB
      · have hb : (k.proctab b).sleepticks.toNat = d := h.delay (b, d) (by simp)
        have hhd : (procs ((b, d) :: B)).head? = some b := rfl
        show (k'.proctab b).sleepticks.toNat = d - ((k.proctab p).sleepticks.toNat - A.total)
        rw [(hspec b).2.1, if_neg hbp, if_pos hhd, BitVec.toNat_sub_of_le, hrel, hb]
        rw [BitVec.le_def, hrel, hb]
        exact Nat.not_lt.mp hd
      · refine hsame e (List.mem_append_right _ (List.mem_cons_of_mem _ heB)) fun hx => ?_
        have hbe : b = e.1 := Option.some.inj hx
        have hm := mem_procs heB
        rw [← hbe] at hm
        exact (List.nodup_cons.mp (List.nodup_append.mp hnd).2.1).1 hm

/-- The pcbs after `p` has been linked in front of the list. -/
theorem pushSleeper_proctab (hn : k.headsleeper ≠ some p) (q : Slot) :
    (pushSleeper k p).link q = (if q = p then k.headsleeper else k.link q) ∧
      ((pushSleeper k p).proctab q).sleepticks
        = (if k.headsleeper = some q then (k.proctab q).sleepticks - (k.proctab p).sleepticks
          else (k.proctab q).sleepticks) ∧
      ((pushSleeper k p).proctab q).state = (k.proctab q).state ∧
      ((pushSleeper k p).proctab q).pid = (k.proctab q).pid := by
  unfold pushSleeper Kernel.link
  simp only [Kernel.upd_headsleeper]
  cases hb : k.headsleeper with
  | none =>
      by_cases hq : q = p
      · subst hq
        simp
      · simp [hq]
  | some b =>
      have hbp : b ≠ p := fun he => hn (hb.trans (congrArg some he))
      by_cases hq : q = p
      · subst hq
        simp [hbp, Ne.symm hbp]
      · by_cases hqb : b = q
        · subst hqb
          simp [hbp]
        · simp [hq, hqb, Ne.symm hqb]

/-- A process due no later than the first sleeper is linked in front of the list. -/
theorem SleepList.pushSleeper (h : SleepList k D) (hp : p ∉ procs D)
    (hD : ∀ e ∈ D.head?, (k.proctab p).sleepticks.toNat ≤ e.2) :
    SleepList (Xeros.pushSleeper k p) (D.insert p (k.proctab p).sleepticks.toNat) ∧
      KeepsStates k (Xeros.pushSleeper k p) := by
  have hhead : k.headsleeper = (procs D).head? := by
    have hc := h.chain
    cases D with
    | nil => exact hc
    | cons e D => exact hc.1
  have hnp : k.headsleeper ≠ some p := fun he => hp (List.mem_of_mem_head? (hhead ▸ he))
  have hspec := pushSleeper_proctab hnp
  have hfirst : (Xeros.pushSleeper k p).headsleeper = some p := by
    unfold Xeros.pushSleeper
    dsimp only
    split <;> rfl
  have htail : (Xeros.pushSleeper k p).tail = k.tail := by
    unfold Xeros.pushSleeper
    dsimp only
    split <;> rfl
  generalize Xeros.pushSleeper k p = k' at hspec hfirst htail ⊢
  refine ⟨?_, fun q => (hspec q).2.2.1, fun q => (hspec q).2.2.2, htail⟩
  have hchain : Chain k'.link k'.headsleeper (p :: procs D) := by
    refine ⟨hfirst, ?_⟩
    rw [(hspec p).1, if_pos rfl]
    refine h.chain.congr fun b hb => ?_
    have hbp : b ≠ p := by
      rintro rfl
      exact hp hb
    rw [(hspec b).1, if_neg hbp]
  have hnd : (p :: procs D).Nodup := List.nodup_cons.mpr ⟨hp, h.nodup⟩
  have hpcount : (k'.proctab p).sleepticks = (k.proctab p).sleepticks := by
    rw [(hspec p).2.1, if_neg hnp]
  cases D with
  | nil =>
      refine ⟨hchain, hnd, fun e he => ?_⟩
      obtain rfl := List.mem_singleton.mp he
      exact congrArg BitVec.toNat hpcount
  | cons b D =>
      obtain ⟨b, d⟩ := b
      have hle : (k.proctab p).sleepticks.toNat ≤ d := hD (b, d) rfl
      rw [Deltas.insert, if_neg (Nat.not_lt.mpr hle)]
      refine ⟨hchain, hnd, fun e he => ?_⟩
      rcases List.mem_cons.mp he with rfl | heb
      · exact congrArg BitVec.toNat hpcount
      rcases List.mem_cons.mp heb with rfl | heD
      · have hb : (k.proctab b).sleepticks.toNat = d := h.delay (b, d) List.mem_cons_self
        have hhd : k.headsleeper = some b := hhead
        show (k'.proctab b).sleepticks.toNat = d - (k.proctab p).sleepticks.toNat
        rw [(hspec b).2.1, if_pos hhd, BitVec.toNat_sub_of_le, hb]
        rw [BitVec.le_def, hb]
        exact hle
      · -- those behind the first sleeper keep their counts
        have hne : k.headsleeper ≠ some e.1 := by
          intro hx
          have hbe : b = e.1 := Option.some.inj (hhead.symm.trans hx)
          have hm := mem_procs heD
          rw [← hbe] at hm
          exact (List.nodup_cons.mp h.nodup).1 hm
        rw [(hspec e.1).2.1, if_neg hne]
        exact h.delay e (List.mem_cons_of_mem _ heD)

/-- `sleep` enters the process in the list, due as many ticks from now as it asks for. -/
theorem SleepList.sleep {ms : Word} (h : SleepList k D) (hp : p ∉ procs D)
    (hD : D.total < 2 ^ 32) (hs : sleep k fuel ms p = .ok k') :
    p ≠ 0 ∧ SleepList k' (D.insert p (millisecondsToTicks ms).toNat) ∧
      KeepsStates (k.upd p fun c => c.toSleep (millisecondsToTicks ms)) k' := by
  have hne : ∀ q ∈ procs D, q ≠ p := by
    rintro q hq rfl
    exact hp hq
  have h₁ : SleepList (k.upd p fun c => c.toSleep (millisecondsToTicks ms)) D := by
    refine h.congr rfl fun q hq => ?_
    simp [Kernel.link, hne q hq]
  have hticks : ((k.upd p fun c => c.toSleep (millisecondsToTicks ms)).proctab p).sleepticks
      = millisecondsToTicks ms := by simp [Pcb.toSleep]
  unfold Xeros.sleep at hs
  simp only [Run.bind_eq_ok] at hs
  obtain ⟨_, hp0, hs⟩ := hs
  refine ⟨kassert_eq_ok.mp hp0, ?_⟩
  generalize (k.upd p fun c => c.toSleep (millisecondsToTicks ms)) = k₁ at h₁ hticks hs ⊢
  rw [← hticks] at hs ⊢
  have hpush : (∀ e ∈ D.head?, (k₁.proctab p).sleepticks.toNat ≤ e.2) →
      .ok (Xeros.pushSleeper k₁ p) = (.ok k' : Run Kernel) →
      SleepList k' (D.insert p (k₁.proctab p).sleepticks.toNat) ∧ KeepsStates k₁ k' := by
    rintro hle ⟨⟩
    exact h₁.pushSleeper hp hle
  cases D with
  | nil =>
      have hn : k₁.headsleeper = none := h₁.chain
      rw [hn] at hs
      exact hpush (by simp) hs
  | cons b D =>
      obtain ⟨b, d⟩ := b
      have hb : k₁.headsleeper = some b := h₁.chain.1
      have hbd : (k₁.proctab b).sleepticks.toNat = d := h₁.delay (b, d) List.mem_cons_self
      rw [hb] at hs
      dsimp only at hs
      split at hs
      · -- the first sleeper is passed
        rename_i hlt
        rw [BitVec.lt_def, hbd] at hlt
        simp only [Run.bind_eq_ok] at hs
        obtain ⟨⟨prev, x, acc⟩, hl, hs⟩ := hs
        cases fuel with
        | zero => cases hl
        | succ fuel =>
            simp only [sleepLoop, BitVec.lt_def, hbd, if_pos hlt] at hl
            rw [Deltas.total_cons] at hD
            have hacc : (k₁.proctab b).sleepticks = BitVec.ofNat 32 (Deltas.total [(b, d)]) := by
              refine BitVec.eq_of_toNat_eq ?_
              rw [hbd, BitVec.toNat_ofNat]
              show d = (d + 0) % 2 ^ 32
              omega
            obtain ⟨A', B', hAB, hA', rfl, hlt', hB', hacc'⟩ := sleepLoop_spec (A := [(b, d)])
              h₁.chain.2 (fun e he => h₁.delay e (List.mem_cons_of_mem _ he)) rfl
              (by simpa using hlt) (by simpa using hD) (by rw [hacc]; rfl) hl
            have hlist : (b, d) :: D = A' ++ B' := hAB
            rw [hlist] at h₁ hp ⊢
            have hins := h₁.insertSleeper hp hA' hlt' hB' hacc'
            obtain rfl : Xeros.insertSleeper k₁ p prev (procs B').head? acc = k' := by
              simpa [pure, Except.pure] using hs
            exact hins
      · -- it is due no earlier, so the process goes in front of it
        rename_i hlt
        rw [BitVec.lt_def, hbd] at hlt
        refine hpush ?_ hs
        rintro e ⟨⟩
        exact Nat.not_lt.mp hlt

/-- `sleep` comes back when the links end. -/
theorem sleep_ok {ms : Word} {l : List Slot} (hp0 : p ≠ 0) (hf : l.length < fuel)
    (hc : Chain (k.upd p fun c => c.toSleep (millisecondsToTicks ms)).link k.headsleeper l) :
    ∃ k', sleep k fuel ms p = .ok k' := by
  unfold sleep
  simp only [kassert, if_pos hp0, Kernel.upd_headsleeper]
  dsimp only [bind, Except.bind]
  split
  · exact ⟨_, rfl⟩
  · rename_i b hb
    rw [hb] at hc
    split
    · have hloop : ∃ r, sleepLoop (k.upd p fun c => c.toSleep (millisecondsToTicks ms))
          (millisecondsToTicks ms) fuel b (some b)
          ((k.upd p fun c => c.toSleep (millisecondsToTicks ms)).proctab b).sleepticks = .ok r :=
        sleepLoop_ok hc hf
      obtain ⟨⟨prev, x, acc⟩, hr⟩ := hloop
      rw [hr]
      exact ⟨_, rfl⟩
    · exact ⟨_, rfl⟩

/-- It does so for a process that is not in the list. -/
theorem SleepList.sleep_ok {ms : Word} (h : SleepList k D) (hp : p ∉ procs D) (hp0 : p ≠ 0)
    (hf : D.length < fuel) : ∃ k', Xeros.sleep k fuel ms p = .ok k' := by
  refine Xeros.sleep_ok (l := procs D) hp0 (by simpa [procs] using hf) ?_
  refine h.chain.congr fun q hq => ?_
  have hqp : q ≠ p := by
    rintro rfl
    exact hp hq
  simp [Kernel.link, hqp]

/-! ## Waking up -/

/-- The sleepers in `l`, which come first in the list, are woken one after the other. -/
def wakeAll (k : Kernel) (l : List Slot) : Run Kernel :=
  l.foldlM (fun k p => ready (popSleeper k p) p) k

/-- The processes in `l` have been made ready, the other pcbs are as before up to links. -/
structure Awoken (l : List Slot) (k k' : Kernel) : Prop where
  state : ∀ q, (k'.proctab q).state = if q ∈ l then .ready else (k.proctab q).state
  pid : ∀ q, (k'.proctab q).pid = (k.proctab q).pid
  ticks : ∀ q, (k'.proctab q).sleepticks = (k.proctab q).sleepticks
  tail : ∀ t, k'.tail = some t → k.tail = some t ∨ t ∈ l

theorem Awoken.refl (k : Kernel) : Awoken [] k k :=
  ⟨by simp, fun _ => rfl, fun _ => rfl, fun _ ht => .inl ht⟩

theorem Awoken.cons {l : List Slot} (h₁ : Awoken [p] k k₁) (h₂ : Awoken l k₁ k₂) :
    Awoken (p :: l) k k₂ where
  state q := by
    rw [h₂.state, h₁.state]
    by_cases hl : q ∈ l <;> by_cases hp : q = p <;> simp [hl, hp]
  pid q := (h₂.pid q).trans (h₁.pid q)
  ticks q := (h₂.ticks q).trans (h₁.ticks q)
  tail t ht := by
    rcases h₂.tail t ht with h | h
    · exact (h₁.tail t h).imp id fun hm => List.mem_cons.mpr (.inl (List.mem_singleton.mp hm))
    · exact .inr (List.mem_cons_of_mem _ h)

/-- The pcbs and the queue heads after `ready`. -/
theorem readied_spec (k : Kernel) (p : Slot) :
    (∀ q, q ≠ p → k.tail ≠ some q → (readied k p).link q = k.link q) ∧
      (readied k p).headsleeper = k.headsleeper ∧
      (∀ t, (readied k p).tail = some t → k.tail = some t ∨ t = p) ∧
      ∀ q, ((readied k p).proctab q).sleepticks = (k.proctab q).sleepticks := by
  have hlink : ∀ q, q ≠ p → (k.upd p fun c => (c.setNext none).setState .ready).link q
      = k.link q := by
    intro q hq
    simp [Kernel.link, hq]
  refine ⟨fun q hq ht => ?_, ?_, fun t ht => ?_, fun q => ?_⟩
  · unfold readied enqueue
    dsimp only
    split
    · exact hlink q hq
    · split
      · rename_i t htail
        have hqt : q ≠ t := by
          rintro rfl
          exact ht htail
        rw [← hlink q hq]
        simp [Kernel.link, hqt]
      · exact hlink q hq
  · unfold readied enqueue
    dsimp only
    split
    · rfl
    · split <;> rfl
  · unfold readied enqueue at ht
    dsimp only at ht
    split at ht
    · exact .inl ht
    · split at ht <;> exact .inr (Option.some.inj ht).symm
  · obtain ⟨o, ho⟩ := readied_proctab k p q
    rw [ho]
    split <;> rfl

/-- The first sleeper is taken out of the list and made ready. -/
theorem SleepList.wake {d : Nat} (h : SleepList k ((p, d) :: D)) (hu : k.Used p)
    (ht : ∀ t, k.tail = some t → t ∉ procs D) :
    ∃ k', ready (popSleeper k p) p = .ok k' ∧ SleepList k' D ∧ Awoken [p] k k' := by
  have hpop : (popSleeper k p).Used p := Kernel.Used.upd rfl hu
  obtain ⟨hpD, hnd⟩ := List.nodup_cons.mp h.nodup
  obtain ⟨hlink, hhead, htail, hticks⟩ := readied_spec (popSleeper k p) p
  have hother : ∀ q, q ≠ p → (popSleeper k p).proctab q = k.proctab q := fun q hq =>
    Kernel.upd_proctab_ne _ _ _ hq
  refine ⟨_, ready_of_used hpop, ⟨?_, hnd, fun e he => ?_⟩, fun q => ?_, fun q => ?_, fun q => ?_,
    fun t h => ?_⟩
  · rw [hhead]
    refine h.chain.2.congr fun q hq => ?_
    have hqp : q ≠ p := by
      rintro rfl
      exact hpD hq
    have hqt : (popSleeper k p).tail ≠ some q := fun he => ht q he hq
    rw [hlink q hqp hqt, Kernel.link, hother q hqp]
    rfl
  · have hep : e.1 ≠ p := by
      intro hep
      have hm := mem_procs he
      rw [hep] at hm
      exact hpD hm
    rw [hticks, hother e.1 hep]
    exact h.delay e (List.mem_cons_of_mem _ he)
  · obtain ⟨o, ho⟩ := readied_proctab (popSleeper k p) p q
    rw [ho]
    by_cases hq : q = p
    · subst hq
      simp
    · simp [hq, hother q hq]
  · rw [readied_pid]
    by_cases hq : q = p
    · subst hq
      simp [popSleeper]
    · rw [hother q hq]
  · rw [hticks]
    by_cases hq : q = p
    · subst hq
      simp [popSleeper]
    · rw [hother q hq]
  · exact (htail t h).imp id fun he => List.mem_singleton.mpr he

/-- The loop of `tick` wakes the sleepers with nothing to go. -/
theorem SleepList.tickLoop (h : SleepList k D) (hu : ∀ q ∈ procs D, k.Used q)
    (ht : ∀ t, k.tail = some t → t ∉ procs D) (hl : tickLoop fuel k = .ok k') :
    wakeAll k (procs D.expired) = .ok k' ∧ SleepList k' D.remaining ∧
      Awoken (procs D.expired) k k' := by
  induction fuel generalizing k D with
  | zero => cases hl
  | succ fuel ih =>
      unfold Xeros.tickLoop at hl
      cases D with
      | nil =>
          have hn : k.headsleeper = none := h.chain
          rw [hn] at hl
          obtain rfl : k = k' := by simpa [pure, Except.pure] using hl
          exact ⟨rfl, h, .refl k⟩
      | cons e D =>
          obtain ⟨p, d⟩ := e
          have hp : k.headsleeper = some p := h.chain.1
          have hd : (k.proctab p).sleepticks.toNat = d := h.delay (p, d) List.mem_cons_self
          rw [hp] at hl
          dsimp only at hl
          split at hl
          · -- the head is due: it is woken, and the loop goes on with those behind it
            rename_i h0
            obtain rfl : d = 0 := by
              rw [← hd, h0]
              rfl
            have htD : ∀ t, k.tail = some t → t ∉ procs D := fun t h hm =>
              ht t h (List.mem_cons_of_mem _ hm)
            obtain ⟨k₁, hr, hlist, haw⟩ := h.wake (hu p List.mem_cons_self) htD
            rw [hr] at hl
            obtain ⟨hpD, -⟩ := List.nodup_cons.mp h.nodup
            obtain ⟨hall, hrest, haw'⟩ := ih hlist
              (fun q hq => (hu q (List.mem_cons_of_mem _ hq)).congr (haw.pid q))
              (fun t h hm => (haw.tail t h).elim (fun h => htD t h hm)
                fun h => hpD (List.mem_singleton.mp h ▸ hm)) hl
            rw [Deltas.expired_cons rfl, Deltas.remaining_cons rfl]
            refine ⟨?_, hrest, haw.cons haw'⟩
            show (ready (popSleeper k p) p >>= fun k => wakeAll k (procs (Deltas.expired D))) = .ok k'
            rw [hr]
            exact hall
          · rename_i h0
            have hpos : d ≠ 0 := by
              rintro rfl
              exact h0 (BitVec.eq_of_toNat_eq hd)
            obtain rfl : k = k' := by simpa [pure, Except.pure] using hl
            rw [Deltas.expired_cons_pos hpos, Deltas.remaining_cons_pos hpos]
            exact ⟨rfl, h, .refl k⟩

/-- The loop of `tick` comes to an end. -/
theorem SleepList.tickLoop_ok (h : SleepList k D) (hu : ∀ q ∈ procs D, k.Used q)
    (ht : ∀ t, k.tail = some t → t ∉ procs D) (hf : D.length < fuel) :
    ∃ k', Xeros.tickLoop fuel k = .ok k' := by
  induction fuel generalizing k D with
  | zero => simp at hf
  | succ fuel ih =>
      unfold Xeros.tickLoop
      cases D with
      | nil =>
          have hn : k.headsleeper = none := h.chain
          rw [hn]
          exact ⟨k, rfl⟩
      | cons e D =>
          obtain ⟨p, d⟩ := e
          have hp : k.headsleeper = some p := h.chain.1
          rw [hp]
          dsimp only
          split
          · have htD : ∀ t, k.tail = some t → t ∉ procs D := fun t h hm =>
              ht t h (List.mem_cons_of_mem _ hm)
            obtain ⟨k₁, hr, hlist, haw⟩ := h.wake (hu p List.mem_cons_self) htD
            obtain ⟨hpD, -⟩ := List.nodup_cons.mp h.nodup
            rw [hr]
            exact ih hlist (fun q hq => (hu q (List.mem_cons_of_mem _ hq)).congr (haw.pid q))
              (fun t h hm => (haw.tail t h).elim (fun h => htD t h hm)
                fun h => hpD (List.mem_singleton.mp h ▸ hm)) (by simpa using hf)
          · exact ⟨k, rfl⟩

/-- The first sleeper gets another count. -/
theorem SleepList.recount {d m : Nat} (h : SleepList k ((p, d) :: D)) (g : Pcb → Word)
    (hg : (g (k.proctab p)).toNat = m) :
    SleepList (k.upd p fun c => c.setTicks (g c)) ((p, m) :: D) ∧
      KeepsStates k (k.upd p fun c => c.setTicks (g c)) := by
  have hpcb : ∀ q, (k.upd p fun c => c.setTicks (g c)).proctab q
      = if q = p then (k.proctab p).setTicks (g (k.proctab p)) else k.proctab q := fun q => rfl
  have hlink : ∀ q, (k.upd p fun c => c.setTicks (g c)).link q = k.link q ∧
      ((k.upd p fun c => c.setTicks (g c)).proctab q).state = (k.proctab q).state ∧
      ((k.upd p fun c => c.setTicks (g c)).proctab q).pid = (k.proctab q).pid := by
    intro q
    unfold Kernel.link
    rw [hpcb]
    split
    · rename_i hq
      rw [hq]
      exact ⟨rfl, rfl, rfl⟩
    · exact ⟨rfl, rfl, rfl⟩
  refine ⟨⟨h.chain.congr fun q _ => (hlink q).1, h.nodup, fun e he => ?_⟩,
    fun q => (hlink q).2.1, fun q => (hlink q).2.2, rfl⟩
  rcases List.mem_cons.mp he with rfl | heD
  · rw [hpcb, if_pos rfl]
    exact hg
  · -- the others are not the first
    have hep : e.1 ≠ p := by
      intro hep
      have hm := mem_procs heD
      rw [hep] at hm
      exact (List.nodup_cons.mp h.nodup).1 hm
    rw [hpcb, if_neg hep]
    exact h.delay e (List.mem_cons_of_mem _ heD)

/-- Counting the first sleeper down. -/
theorem SleepList.countDown (h : SleepList k D) :
    SleepList (Xeros.countDown k) D.countDown ∧ KeepsStates k (Xeros.countDown k) := by
  cases D with
  | nil =>
      have hn : k.headsleeper = none := h.chain
      have hk : Xeros.countDown k = k := by
        unfold Xeros.countDown
        rw [hn]
      rw [hk]
      exact ⟨h, fun _ => rfl, fun _ => rfl, rfl⟩
  | cons e D =>
      obtain ⟨p, d⟩ := e
      have hp : k.headsleeper = some p := h.chain.1
      have hd : (k.proctab p).sleepticks.toNat = d := h.delay (p, d) List.mem_cons_self
      have h1 : (1 : Word).toNat = 1 := rfl
      unfold Xeros.countDown
      rw [hp]
      dsimp only
      split
      · rename_i hpos
        rw [BitVec.lt_def, hd] at hpos
        have hpos : 0 < d := hpos
        refine h.recount (fun c => c.sleepticks - 1) ?_
        rw [BitVec.toNat_sub_of_le, hd, h1]
        rw [BitVec.le_def, hd, h1]
        exact hpos
      · -- a count of 0 stays
        rename_i hpos
        rw [BitVec.lt_def, hd] at hpos
        have h0 : d = 0 := Nat.eq_zero_of_not_pos hpos
        rw [h0] at h ⊢
        exact ⟨h, fun _ => rfl, fun _ => rfl, rfl⟩

/-- What a tick does to the list: the sleepers it wakes and those that are left. When the
count of the first one is one, the one that is first afterwards is counted down a second
time. -/
def tickDeltas : Deltas Slot → Deltas Slot × Deltas Slot
  | [] => ([], [])
  | (a, d) :: D =>
    if d ≤ 1 then
      (Deltas.expired ((a, 0) :: D), Deltas.countDown (Deltas.remaining ((a, 0) :: D)))
    else ([], Deltas.countDown ((a, d) :: D))

theorem tickDeltas_due {d : Nat} (hd : d ≤ 1) : tickDeltas ((p, d) :: D)
    = (Deltas.expired ((p, 0) :: D), Deltas.countDown (Deltas.remaining ((p, 0) :: D))) :=
  if_pos hd

theorem tickDeltas_wait {d : Nat} (hd : ¬ d ≤ 1) :
    tickDeltas ((p, d) :: D) = ([], Deltas.countDown ((p, d) :: D)) := if_neg hd

/-- A tick that makes exactly the sleepers in `l` ready, one after the other. -/
def Wakes (k : Kernel) (l : List Slot) (k' : Kernel) : Prop :=
  ∃ k₀ k₁, (k₀ = k ∨ ∃ h, k.headsleeper = some h ∧ k₀ = k.upd h fun c => c.setTicks 0) ∧
    wakeAll k₀ l = .ok k₁ ∧ k' = Xeros.countDown k₁

/-- `tick` wakes sleepers from the front of the list and counts the others down. -/
theorem SleepList.tick (h : SleepList k D) (hu : ∀ q ∈ procs D, k.Used q)
    (ht : ∀ t, k.tail = some t → t ∉ procs D) (hk : tick k fuel = .ok k') :
    Wakes k (procs (tickDeltas D).1) k' ∧ SleepList k' (tickDeltas D).2 ∧
      (∀ q, (k'.proctab q).state
        = if q ∈ procs (tickDeltas D).1 then .ready else (k.proctab q).state) ∧
      (∀ q, (k'.proctab q).pid = (k.proctab q).pid) ∧
      ∀ t, k'.tail = some t → k.tail = some t ∨ t ∈ procs (tickDeltas D).1 := by
  unfold Xeros.tick at hk
  cases D with
  | nil =>
      have hn : k.headsleeper = none := h.chain
      rw [hn] at hk
      obtain rfl : k = k' := by simpa [pure, Except.pure] using hk
      have hc : Xeros.countDown k = k := by
        unfold Xeros.countDown
        rw [hn]
      exact ⟨⟨k, k, .inl rfl, rfl, hc.symm⟩, h, by simp [tickDeltas], fun _ => rfl,
        fun _ ht => .inl ht⟩
  | cons e D =>
      obtain ⟨p, d⟩ := e
      have hp : k.headsleeper = some p := h.chain.1
      have hd : (k.proctab p).sleepticks.toNat = d := h.delay (p, d) List.mem_cons_self
      have h1 : (1 : Word).toNat = 1 := rfl
      rw [hp] at hk
      simp only [BitVec.le_def, hd, h1] at hk
      split at hk
      · rename_i hle
        rw [tickDeltas_due hle]
        simp only [Run.bind_eq_ok] at hk
        obtain ⟨k₁, hl, hk⟩ := hk
        obtain rfl : Xeros.countDown k₁ = k' := by simpa [pure, Except.pure] using hk
        have hu₀ : ∀ q ∈ procs ((p, 0) :: D), (k.upd p fun c => c.setTicks 0).Used q :=
          fun q hq => Kernel.Used.upd rfl (hu q hq)
        -- the first count is set to 0
        obtain ⟨hclear, hkeep₀⟩ := h.recount (m := 0) (fun _ => 0) rfl
        obtain ⟨hall, hlist, haw⟩ := hclear.tickLoop hu₀ ht hl
        obtain ⟨hlist', hkeep⟩ := hlist.countDown
        refine ⟨⟨_, k₁, .inr ⟨p, hp, rfl⟩, hall, rfl⟩, hlist', fun q => ?_, fun q => ?_,
          fun t ht => ?_⟩
        · rw [hkeep.state, haw.state, hkeep₀.state]
        · rw [hkeep.pid, haw.pid, hkeep₀.pid]
        · rw [hkeep.tail] at ht
          exact haw.tail t ht
      · rename_i hle
        rw [tickDeltas_wait hle]
        obtain rfl : Xeros.countDown k = k' := by simpa [pure, Except.pure] using hk
        obtain ⟨hlist, hkeep⟩ := h.countDown
        exact ⟨⟨k, k, .inl rfl, rfl, rfl⟩, hlist, fun q => by simp [hkeep.state], hkeep.pid,
          fun t ht => .inl (hkeep.tail ▸ ht)⟩

/-- `tick` comes back. -/
theorem SleepList.tick_ok (h : SleepList k D) (hu : ∀ q ∈ procs D, k.Used q)
    (ht : ∀ t, k.tail = some t → t ∉ procs D) (hf : D.length < fuel) :
    ∃ k', Xeros.tick k fuel = .ok k' := by
  unfold Xeros.tick
  cases D with
  | nil =>
      have hn : k.headsleeper = none := h.chain
      rw [hn]
      exact ⟨k, rfl⟩
  | cons e D =>
      obtain ⟨p, d⟩ := e
      have hp : k.headsleeper = some p := h.chain.1
      rw [hp]
      dsimp only
      split
      · have hu₀ : ∀ q ∈ procs ((p, 0) :: D), (k.upd p fun c => c.setTicks 0).Used q :=
          fun q hq => Kernel.Used.upd rfl (hu q hq)
        obtain ⟨k₁, hk₁⟩ := (h.recount (m := 0) (fun _ => 0) rfl).1.tickLoop_ok hu₀ ht (by simpa using hf)
        rw [hk₁]
        exact ⟨_, rfl⟩
      · exact ⟨_, rfl⟩

end Xeros
