import Xeros.Logic.Frame

/-!
# The frames of the kernel functions

For each function of the kernel, what it does in closed form where it is short
(`ready`, `next`), and that it is `Quiet`. The exceptions are the functions that
post, deliver or complete a signal and the one that creates a process: they are
treated on their own.
-/

namespace Xeros

open Lib

variable {k k' : Kernel} {X : Slot → Prop} {p q : Slot}

/-! ## The ready queue -/

/-- What `ready` does to a used slot. -/
def readied (k : Kernel) (p : Slot) : Kernel :=
  let k' := k.upd p fun c => (c.setNext none).setState .ready
  if (k.proctab p).pid = k.idleprocPid then k' else enqueue k' p

/-- The assertions of `ready` hold for a used slot. -/
theorem ready_of_used (hu : k.Used p) : ready k p = .ok (readied k p) := by
  unfold ready readied
  simp only [kassert, hu.2.1, Kernel.upd_proctab_self, Pcb.setState_pid,
    Pcb.setNext_pid, if_pos, bind, Except.bind, ne_eq, hu.1, not_false_eq_true,
    Kernel.upd_idleprocPid, pure, Except.pure]
  by_cases hi : (k.proctab p).pid = k.idleprocPid <;> simp only [hi, if_true, if_false]

theorem enqueue_quiet (hg : Good k) (hu : k.Used p) : Quiet X k (enqueue k p) := by
  have hp : ∀ r, some p = some r → k.Used r := by
    rintro r ⟨rfl⟩
    exact hu
  unfold enqueue
  split
  · rename_i t ht
    have h₁ := Quiet.updNext (X := X) hg (hg.tail t ht) hp
    refine h₁.trans (.setTail h₁.good ?_)
    exact fun r hr => h₁.used (hp r hr)
  · have h₁ := Quiet.set (X := X) hg .head hp
    refine h₁.trans (.setTail h₁.good ?_)
    exact fun r hr => h₁.used (hp r hr)

/-- Only a link changes. -/
theorem enqueue_proctab (k : Kernel) (p q : Slot) :
    ∃ o, (enqueue k p).proctab q = (k.proctab q).setNext o := by
  unfold enqueue
  split
  · rename_i t _
    by_cases hq : q = t
    · subst hq
      exact ⟨some p, by simp⟩
    · exact ⟨(k.proctab q).next, by simp [hq]; rfl⟩
  · exact ⟨(k.proctab q).next, rfl⟩

/-- Only a link and the state of the slot change. -/
theorem readied_proctab (k : Kernel) (p q : Slot) :
    ∃ o, (readied k p).proctab q =
      if q = p then ((k.proctab q).setState .ready).setNext o else (k.proctab q).setNext o := by
  have h : ∀ k' : Kernel, k' = (k.upd p fun c => (c.setNext none).setState .ready) →
      (k'.proctab q = if q = p then ((k.proctab q).setState .ready).setNext none
        else (k.proctab q).setNext (k.proctab q).next) := by
    rintro k' rfl
    by_cases hq : q = p
    · subst hq
      simp [Pcb.setNext, Pcb.setState]
    · simp [hq, Pcb.setNext]
  unfold readied
  dsimp only
  split
  · refine ⟨if q = p then none else (k.proctab q).next, ?_⟩
    rw [h _ rfl]
    split <;> rfl
  · obtain ⟨o, ho⟩ := enqueue_proctab
      (k.upd p fun c => (c.setNext none).setState .ready) p q
    refine ⟨o, ?_⟩
    rw [ho, h _ rfl]
    split <;> rfl

theorem readied_state (k : Kernel) (p : Slot) :
    ((readied k p).proctab p).state = .ready := by
  obtain ⟨o, ho⟩ := readied_proctab k p p
  rw [ho, if_pos rfl]
  rfl

theorem readied_pid (k : Kernel) (p q : Slot) :
    ((readied k p).proctab q).pid = (k.proctab q).pid := by
  obtain ⟨o, ho⟩ := readied_proctab k p q
  rw [ho]
  split <;> rfl

theorem readied_quiet (hg : Good k) (hu : k.Used p) : Quiet X k (readied k p) := by
  have h₁ : Quiet X k (k.upd p fun c => (c.setNext none).setState .ready) :=
    .upd hg hu ⟨rfl, rfl, rfl, rfl, rfl, rfl, rfl, rfl⟩ (by simp) (.inr (.inr (.inl rfl)))
  unfold readied
  dsimp only
  split
  · exact h₁
  · exact h₁.trans (enqueue_quiet h₁.good (h₁.used hu))

theorem ready_quiet (hg : Good k) (hu : k.Used p) (h : ready k p = .ok k') :
    Quiet X k k' := by
  rw [ready_of_used hu, Except.ok.injEq] at h
  exact h ▸ readied_quiet hg hu

theorem ready_state (hu : k.Used p) (h : ready k p = .ok k') :
    (k'.proctab p).state = .ready := by
  rw [ready_of_used hu, Except.ok.injEq] at h
  exact h ▸ readied_state k p

/-- An exception that `ready` is applied to is none. -/
theorem ready_settles {X' : Slot → Prop} (hg : Good k) (hu : k.Used p)
    (h : ready k p = .ok k') (hX : ∀ q, X q → X' q ∨ q = p) {k₀ : Kernel}
    (h₀ : Quiet X k₀ k) : Quiet X' k₀ k' := by
  refine (h₀.trans (ready_quiet hg hu h)).settle fun q hq => ?_
  rcases hX q hq with hq' | rfl
  · exact .inl hq'
  · exact .inr (.inr (.inl (ready_state hu h)))

theorem takeHead_quiet (hg : Good k) (hu : k.Used p) : Quiet X k (takeHead k p) := by
  have h₁ : Quiet X k (k.setHead (k.proctab p).next) := .set hg .head (hg.next p)
  have h₂ := h₁.trans (.updNext h₁.good (h₁.used hu) (o := none) (by simp))
  unfold takeHead
  dsimp only
  split
  · exact h₂.trans (.setTail h₂.good (by simp))
  · exact h₂

theorem choose_quiet (hg : Good k) (hu : k.Used p) :
    Quiet X k (choose k p).1 ∧ (choose k p).1.Used (choose k p).2 := by
  unfold choose
  split
  · rename_i q hq
    split at hq
    · have hq' := hg.head q hq
      have h₁ := takeHead_quiet (X := X) hg hq'
      have h₂ := h₁.trans (.updNext h₁.good (h₁.used hu) (o := none) (by simp))
      exact ⟨h₂, h₂.used hq'⟩
    · cases hq
  · split
    · cases hr : k.running with
      | none =>
          have h₁ : Quiet X k { k with nullPcb := k.nullPcb.setState .ready } :=
            ⟨fun _ => .refl _, fun _ _ => .refl _, rfl, rfl, { hg with }⟩
          exact ⟨h₁, h₁.used hu⟩
      | some r =>
          have h₁ := Quiet.updState (X := X) hg (hg.running r hr) (.inl rfl)
          exact ⟨h₁, h₁.used hu⟩
    · exact ⟨.refl hg, hu⟩

/-- What `next` does: it returns the idle process, or takes the head of the
ready queue. -/
theorem next_cases (h : next k = .ok (k', p)) :
    (k.head = none ∧ k' = k ∧ p = slotOf k.idleprocPid) ∨
    ∃ q, k.head = some q ∧ (k.proctab q).state = .ready ∧
      (k', p) = choose (takeHead k q) q := by
  unfold next at h
  cases hh : k.head with
  | none =>
      rw [hh] at h
      simp only [pure, Except.pure, Except.ok.injEq, Prod.mk.injEq] at h
      exact .inl ⟨rfl, h.1.symm, h.2.symm⟩
  | some q =>
      rw [hh] at h
      simp only [Run.bind_eq_ok, kassert_eq_ok, pure, Except.pure, Except.ok.injEq] at h
      obtain ⟨_, _, _, hs, hc⟩ := h
      exact .inr ⟨q, rfl, hs, hc.symm⟩

theorem next_quiet (hg : Good k) (h : next k = .ok (k', p)) : Quiet X k k' ∧ k'.Used p := by
  rcases next_cases h with ⟨-, rfl, rfl⟩ | ⟨q, hq, -, hc⟩
  · exact ⟨.refl hg, hg.idle⟩
  · have h₁ := takeHead_quiet (X := X) hg (hg.head q hq)
    obtain ⟨h₂, hu⟩ := choose_quiet (X := X) h₁.good (h₁.used (hg.head q hq))
    rw [← hc] at h₂ hu
    exact ⟨h₁.trans h₂, hu⟩

theorem run_quiet (hg : Good k) (hu : k.Used p) : Quiet X k (run k p) := by
  have h₁ := Quiet.updState (X := X) hg hu (.inr rfl)
  refine h₁.trans (.set h₁.good .running ?_)
  rintro r ⟨rfl⟩
  exact h₁.used hu

theorem reschedule_quiet (hg : Good k) (h : reschedule k = .ok (k', p)) :
    Quiet X k k' ∧ k'.Used p := by
  simp only [reschedule, Run.bind_eq_ok, pure, Except.pure, Except.ok.injEq,
    Prod.mk.injEq] at h
  obtain ⟨⟨k₁, q⟩, h₁, rfl, rfl⟩ := h
  obtain ⟨hq, hu⟩ := next_quiet (X := X) hg h₁
  have h₂ := run_quiet (X := X) hq.good hu
  exact ⟨hq.trans h₂, h₂.used hu⟩

/-! ## The other queues -/

theorem QRef.set_set (Q : QRef) (k : Kernel) (v w : Option Slot) :
    Q.set (Q.set k v) w = Q.set k w := by cases Q <;> rfl

@[simp] theorem QRef.set_proctab (Q : QRef) (k : Kernel) (v : Option Slot) :
    (Q.set k v).proctab = k.proctab := by cases Q <;> rfl

@[simp] theorem QRef.set_tail (Q : QRef) (k : Kernel) (v : Option Slot) :
    (Q.set k v).tail = k.tail := by cases Q <;> rfl

@[simp] theorem QRef.set_idleprocPid (Q : QRef) (k : Kernel) (v : Option Slot) :
    (Q.set k v).idleprocPid = k.idleprocPid := by cases Q <;> rfl

@[simp] theorem QRef.set_mem (Q : QRef) (k : Kernel) (v : Option Slot) :
    (Q.set k v).mem = k.mem := by cases Q <;> rfl

/-- The walk of `remove` leaves the queue at a pcb that it reaches, or after one that it takes
out. -/
theorem removeLoop_set {Q : QRef} {pid : Word} {fuel : Nat} {o : Option Slot} {r : Int}
    (h : removeLoop Q pid fuel k o = .ok (k', r)) :
    k' = k ∨ ∃ b, (o = some b ∨ ∃ y, (k.proctab y).next = some b) ∧
      (k' = Q.set k (some b) ∨
        k' = (Q.set k (k.proctab b).next).upd b fun c => c.setNext none) := by
  induction fuel generalizing k o with
  | zero => simp [removeLoop] at h
  | succ fuel ih =>
      cases o with
      | none =>
          simp only [removeLoop, pure, Except.pure, Except.ok.injEq, Prod.mk.injEq] at h
          exact .inl h.1.symm
      | some c =>
          simp only [removeLoop] at h
          split at h
          · simp only [pure, Except.pure, Except.ok.injEq, Prod.mk.injEq] at h
            exact .inr ⟨c, .inl rfl, .inr h.1.symm⟩
          · -- what the rest of the walk makes of the queue replaces `c`
            rcases ih h with hk | ⟨b, hreach, hk⟩
            · exact .inr ⟨c, .inl rfl, .inl hk⟩
            · rw [QRef.set_proctab] at hreach hk
              rw [QRef.set_set, QRef.set_set] at hk
              exact .inr ⟨b, .inr (hreach.elim (fun hb => ⟨c, hb⟩) id), hk⟩

theorem remove_quiet {Q : Option QRef} {pid : Word} {fuel : Nat} {r : Int} (hg : Good k)
    (h : remove k fuel Q pid = .ok (k', r)) : Quiet X k k' := by
  cases Q with
  | none => simp [remove] at h
  | some Q =>
      rcases removeLoop_set h with rfl | ⟨b, hreach, hk⟩
      · exact .refl hg
      have hb : k.Used b := by
        rcases hreach with hget | ⟨y, hy⟩
        · exact hg.get Q b hget
        · exact hg.next y b hy
      rcases hk with rfl | rfl
      · refine .set hg Q ?_
        rintro q ⟨rfl⟩
        exact hb
      · have h₁ := Quiet.set (X := X) hg Q (hg.next b)
        exact h₁.trans (.updNext h₁.good (h₁.used hb) (by simp))

/-- The walk of `append` finds the process in the queue, or it links the last one that it
reaches to it. -/
theorem appendLoop_cases {fuel : Nat} {o : Option Slot} {prev : Slot}
    (hprev : o = some prev ∨ prev ≠ p) (h : appendLoop p fuel k o prev = .ok k') :
    k' = k ∨ ∃ x, x ≠ p ∧ (x = prev ∨ o = some x ∨ ∃ y, (k.proctab y).next = some x) ∧
      k' = k.upd x fun c => c.setNext (some p) := by
  induction fuel generalizing o prev with
  | zero => simp [appendLoop] at h
  | succ fuel ih =>
      cases o with
      | none =>
          simp only [appendLoop, pure, Except.pure, Except.ok.injEq] at h
          exact .inr ⟨prev, hprev.resolve_left (by simp), .inl rfl, h.symm⟩
      | some n =>
          simp only [appendLoop] at h
          split at h
          · simp only [pure, Except.pure, Except.ok.injEq] at h
            exact .inl h.symm
          · rename_i hn
            rcases ih (.inr hn) h with hk | ⟨x, hx, hreach, hk⟩
            · exact .inl hk
            · refine .inr ⟨x, hx, .inr ?_, hk⟩
              rcases hreach with rfl | hreach | hreach
              · exact .inl rfl
              · exact .inr ⟨n, hreach⟩
              · exact .inr hreach

/-- `append` clears the link of the process. Then the process is the first of the queue, or is
in it, or another one of the queue is linked to it. -/
theorem append_cases {Q : QRef} {fuel : Nat} (h : append k fuel Q p = .ok k') :
    ∃ k₀, k₀ = (k.upd p fun c => c.setNext none) ∧
      (k' = Q.set k₀ (some p) ∨ k' = k₀ ∨
        ∃ x, x ≠ p ∧ (Q.get k₀ = some x ∨ ∃ y, (k₀.proctab y).next = some x) ∧
          k' = k₀.upd x fun c => c.setNext (some p)) := by
  refine ⟨_, rfl, ?_⟩
  unfold append at h
  dsimp only at h
  split at h
  · simp only [pure, Except.pure, Except.ok.injEq] at h
    exact .inl h.symm
  · rename_i hd hhd
    rcases appendLoop_cases (.inl rfl) h with hk | ⟨x, hx, hreach, hk⟩
    · exact .inr (.inl hk)
    · refine .inr (.inr ⟨x, hx, ?_, hk⟩)
      rcases hreach with rfl | hreach | hreach
      · exact .inl hhd
      · exact .inl (hhd.trans hreach)
      · exact .inr hreach

theorem append_quiet {Q : QRef} {fuel : Nat} (hg : Good k) (hu : k.Used p)
    (h : append k fuel Q p = .ok k') : Quiet X k k' := by
  obtain ⟨k₀, hk₀, h⟩ := append_cases h
  have h₀ : Quiet X k k₀ := hk₀ ▸ .updNext hg hu (by simp)
  have hp : ∀ r, some p = some r → k₀.Used r := by
    rintro r ⟨rfl⟩
    exact h₀.used hu
  rcases h with rfl | rfl | ⟨x, -, hreach, rfl⟩
  · exact h₀.trans (.set h₀.good Q hp)
  · exact h₀
  · have hx : k₀.Used x := by
      rcases hreach with hget | ⟨y, hy⟩
      · exact h₀.good.get Q x hget
      · exact h₀.good.next y x hy
    exact h₀.trans (.updNext h₀.good hx hp)

theorem notifyWaitersLoop_quiet {pid destpid : Word} {fuel : Nat} {prev : Slot}
    {o : Option Slot} (hg : Good k) (hprev : k.Used prev)
    (ho : ∀ q, o = some q → k.Used q)
    (h : notifyWaitersLoop pid fuel k prev o destpid = .ok k') : Quiet X k k' := by
  induction fuel generalizing k prev o destpid with
  | zero => simp [notifyWaitersLoop] at h
  | succ fuel ih =>
      cases o with
      | none =>
          simp only [notifyWaitersLoop, pure, Except.pure, Except.ok.injEq] at h
          exact h ▸ .refl hg
      | some q =>
          have hq := ho q rfl
          simp only [notifyWaitersLoop] at h
          split at h
          · simp only [Run.bind_eq_ok] at h
            obtain ⟨k₁, h₁, h⟩ := h
            have hx : Quiet X k (k.upd prev fun c => c.setNext (k.proctab q).next) :=
              .updNext hg hprev (hg.next q)
            have hy := (hx.mono (Y := fun r => X r ∨ r = q) fun _ => .inl).trans
              (.setRet hx.good (.inr rfl) (toWord badPid))
            have hz : Quiet X k k₁ :=
              ready_settles hy.good (hy.used hq) h₁ (fun _ h => h) hy
            exact hz.trans (ih hz.good (hz.used hq) (hz.good.next q) h)
          · exact ih hg hq (hg.next q) h

theorem notifyWaiters_quiet {a : Ambient} {pid : Word} (hg : Good k)
    (h : notifyWaiters k a pid = .ok k') : Quiet X k k' := by
  unfold notifyWaiters at h
  split at h
  · simp only [pure, Except.pure, Except.ok.injEq] at h
    exact h ▸ .refl hg
  · rename_i q hq
    refine notifyWaitersLoop_quiet hg (hg.blockedQ q hq) ?_ h
    rintro r ⟨rfl⟩
    exact hg.blockedQ q hq

/-- The pcb of a process that blocks. -/
def Pcb.toBlock (c : Pcb) (code : Word) : Pcb := (c.setState .blocked).setRet code

/-- Blocking is quiet once the state and `ret` have been set. -/
theorem block_cases {fuel : Nat} {code : Word} (hg : Good k) (hu : k.Used p)
    (h : block k fuel p code = .ok k') : Quiet X (k.upd p fun c => c.toBlock code) k' := by
  have hg' : Good (k.upd p fun c => c.toBlock code) := hg.upd hu rfl (hg.next p)
  exact append_quiet hg' (hu.upd rfl) h

theorem block_quiet {fuel : Nat} {code : Word} (hg : Good k) (hu : k.Used p) (hX : X p)
    (h : block k fuel p code = .ok k') : Quiet X k k' := by
  have h₁ : Quiet X k (k.upd p fun c => c.toBlock code) :=
    .upd hg hu ⟨rfl, rfl, rfl, rfl, rfl, rfl, rfl, rfl⟩ (hg.next p) (.inl hX)
  exact h₁.trans (block_cases hg hu h)

/-! ## Sleepers -/

theorem sleepLoop_used {ticks acc acc' : Word} {fuel : Nat} {prev prev' : Slot}
    {o o' : Option Slot} (hg : Good k) (hprev : k.Used prev)
    (ho : ∀ q, o = some q → k.Used q)
    (h : sleepLoop k ticks fuel prev o acc = .ok (prev', o', acc')) :
    k.Used prev' ∧ ∀ q, o' = some q → k.Used q := by
  induction fuel generalizing prev o acc with
  | zero => simp [sleepLoop] at h
  | succ fuel ih =>
      cases o with
      | none =>
          simp only [sleepLoop, pure, Except.pure, Except.ok.injEq, Prod.mk.injEq] at h
          obtain ⟨rfl, rfl, -⟩ := h
          exact ⟨hprev, ho⟩
      | some n =>
          simp only [sleepLoop] at h
          split at h
          · exact ih (ho n rfl) (hg.next n) h
          · simp only [pure, Except.pure, Except.ok.injEq, Prod.mk.injEq] at h
            obtain ⟨rfl, rfl, -⟩ := h
            exact ⟨hprev, ho⟩

theorem updPtrTicks_quiet (hg : Good k) {o : Option Slot} (ho : ∀ q, o = some q → k.Used q)
    (g : Pcb → Word) : Quiet X k (k.updPtr o fun c => c.setTicks (g c)) := by
  cases o with
  | none => exact ⟨fun _ => .refl _, fun _ _ => .refl _, rfl, rfl, { hg with }⟩
  | some q => exact .updTicks hg (ho q rfl) g

theorem insertSleeper_quiet {prev : Slot} {o : Option Slot} {acc : Word} (hg : Good k)
    (hu : k.Used p) (hprev : k.Used prev) (ho : ∀ q, o = some q → k.Used q) :
    Quiet X k (insertSleeper k p prev o acc) := by
  have h₁ := Quiet.updNext (X := X) hg hu ho
  have h₂ := h₁.trans (.updNext h₁.good (h₁.used hprev) (o := some p) (by
    rintro r ⟨rfl⟩
    exact h₁.used hu))
  have h₃ := h₂.trans (.updTicks h₂.good (h₂.used hu)
    fun c => c.sleepticks - (acc - (k.deref o).sleepticks))
  exact h₃.trans (updPtrTicks_quiet h₃.good (h₃.good.next p) _)

theorem pushSleeper_quiet (hg : Good k) (hu : k.Used p) : Quiet X k (pushSleeper k p) := by
  have h₁ := Quiet.updNext (X := X) hg hu hg.headsleeper
  unfold pushSleeper
  dsimp only
  split
  · refine h₁.trans (.setSleeper h₁.good ?_)
    rintro r ⟨rfl⟩
    exact h₁.used hu
  · rename_i h hh
    have h₂ := h₁.trans (.updTicks h₁.good (h₁.used (hg.headsleeper h hh))
      fun c => c.sleepticks - (k.proctab p).sleepticks)
    refine h₂.trans (.setSleeper h₂.good ?_)
    rintro r ⟨rfl⟩
    exact h₂.used hu

/-- Going to sleep is quiet once the state and the count have been set. -/
theorem sleep_cases {fuel : Nat} {ms : Word} (hg : Good k) (hu : k.Used p)
    (h : sleep k fuel ms p = .ok k') :
    Quiet X (k.upd p fun c => c.toSleep (millisecondsToTicks ms)) k' := by
  have hg' : Good (k.upd p fun c => c.toSleep (millisecondsToTicks ms)) :=
    hg.upd hu rfl (by simp [Pcb.toSleep])
  have hu' : (k.upd p fun c => c.toSleep (millisecondsToTicks ms)).Used p := hu.upd rfl
  simp only [sleep, Run.bind_eq_ok] at h
  obtain ⟨_, -, h⟩ := h
  split at h
  · simp only [pure, Except.pure, Except.ok.injEq] at h
    exact h ▸ pushSleeper_quiet hg' hu'
  · rename_i hd hhd
    split at h
    · simp only [Run.bind_eq_ok, pure, Except.pure, Except.ok.injEq] at h
      obtain ⟨⟨prev, o, acc⟩, hl, rfl⟩ := h
      have hd' := hg'.headsleeper hd hhd
      obtain ⟨hprev, ho⟩ := sleepLoop_used hg' hd' (by
        rintro r ⟨rfl⟩
        exact hd') hl
      exact insertSleeper_quiet hg' hu' hprev ho
    · simp only [pure, Except.pure, Except.ok.injEq] at h
      exact h ▸ pushSleeper_quiet hg' hu'

theorem sleep_quiet {fuel : Nat} {ms : Word} (hg : Good k) (hu : k.Used p) (hX : X p)
    (h : sleep k fuel ms p = .ok k') : Quiet X k k' := by
  have h₁ : Quiet X k (k.upd p fun c => c.toSleep (millisecondsToTicks ms)) :=
    .upd hg hu ⟨rfl, rfl, rfl, rfl, rfl, rfl, rfl, rfl⟩ (by simp [Pcb.toSleep]) (.inl hX)
  exact h₁.trans (sleep_cases hg hu h)

theorem popSleeper_quiet (hg : Good k) (hu : k.Used p) : Quiet X k (popSleeper k p) := by
  have h₁ := Quiet.setSleeper (X := X) hg (hg.next p)
  exact h₁.trans (.updNext h₁.good (h₁.used hu) (by simp))

theorem tickLoop_quiet {fuel : Nat} (hg : Good k) (h : tickLoop fuel k = .ok k') :
    Quiet X k k' := by
  induction fuel generalizing k with
  | zero => simp [tickLoop] at h
  | succ fuel ih =>
      simp only [tickLoop] at h
      split at h
      · simp only [pure, Except.pure, Except.ok.injEq] at h
        exact h ▸ .refl hg
      · rename_i q hq
        split at h
        · simp only [Run.bind_eq_ok] at h
          obtain ⟨k₁, h₁, h⟩ := h
          have hx := popSleeper_quiet (X := X) hg (hg.headsleeper q hq)
          have hy := hx.trans
            (ready_quiet hx.good (hx.used (hg.headsleeper q hq)) h₁)
          exact hy.trans (ih hy.good h)
        · simp only [pure, Except.pure, Except.ok.injEq] at h
          exact h ▸ .refl hg

theorem countDown_quiet (hg : Good k) : Quiet X k (countDown k) := by
  unfold countDown
  split
  · exact .refl hg
  · rename_i h hh
    split
    · exact .updTicks hg (hg.headsleeper h hh) fun c => c.sleepticks - 1
    · exact .refl hg

theorem tick_quiet {fuel : Nat} (hg : Good k) (h : tick k fuel = .ok k') :
    Quiet X k k' := by
  unfold tick at h
  split at h
  · simp only [pure, Except.pure, Except.ok.injEq] at h
    exact h ▸ .refl hg
  · rename_i q hq
    split at h
    · simp only [Run.bind_eq_ok, pure, Except.pure, Except.ok.injEq] at h
      obtain ⟨k₁, h₁, rfl⟩ := h
      have hx := Quiet.updTicks (X := X) hg (hg.headsleeper q hq) fun _ => 0
      have hy := hx.trans (tickLoop_quiet hx.good h₁)
      exact hy.trans (countDown_quiet hy.good)
    · simp only [pure, Except.pure, Except.ok.injEq] at h
      exact h ▸ countDown_quiet hg

/-! ## The keyboard and the devices -/

/-- Only the memory and the keyboard driver's variables change, and the reader
stays. -/
def KbdOnly (k k' : Kernel) : Prop :=
  ∃ m b, k' = (k.setMem m).setKbd b ∧ b.reader = k.kbd.reader

namespace KbdOnly

theorem refl (k : Kernel) : KbdOnly k k := ⟨k.mem, k.kbd, rfl, rfl⟩

theorem trans {k'' : Kernel} (h₁ : KbdOnly k k') (h₂ : KbdOnly k' k'') : KbdOnly k k'' := by
  obtain ⟨m, b, rfl, hb⟩ := h₁
  obtain ⟨m', b', rfl, hb'⟩ := h₂
  exact ⟨m', b', rfl, hb'.trans hb⟩

theorem setMem (k : Kernel) (m : Bytes) : KbdOnly k (k.setMem m) := ⟨m, k.kbd, rfl, rfl⟩

theorem quiet (hg : Good k) (h : KbdOnly k k') : Quiet X k k' := by
  obtain ⟨m, b, rfl, hb⟩ := h
  have h₁ := Quiet.setMem (X := X) hg m
  exact h₁.trans (.setKbd h₁.good fun q hq => hg.reader q (hb ▸ hq))

theorem storeKey (k : Kernel) (c : Byte) : KbdOnly k (storeKey k c) := ⟨_, _, rfl, rfl⟩

theorem passKeys (n i : Nat) (k : Kernel) : KbdOnly k (passKeys n i k) := by
  induction n generalizing i k with
  | zero => exact .refl k
  | succ n ih => exact .trans ⟨_, _, rfl, rfl⟩ (ih (i + 1) (passKey k i))

theorem deliverKeys (k : Kernel) : KbdOnly k (deliverKeys k) :=
  (passKeys k.kbd.kbdbufidx.toNat 0 k).trans ⟨_, _, rfl, rfl⟩

theorem completeRead (k : Kernel) (c : Byte) : KbdOnly k (completeRead k c) := by
  unfold Xeros.completeRead
  split
  · have he : KbdOnly k (receiveEof k) := ⟨_, _, rfl, rfl⟩
    exact he.trans (deliverKeys _)
  · exact deliverKeys k

theorem shiftKeys (d n j : Nat) (k : Kernel) : KbdOnly k (shiftKeys d n j k) := by
  induction n generalizing j k with
  | zero => exact .refl k
  | succ n ih =>
      unfold Xeros.shiftKeys
      exact .trans (.setMem k _) (ih (j + 1) _)

theorem flushKeys (n i : Nat) (k : Kernel) : KbdOnly k (flushKeys n i k).1 := by
  induction n generalizing i k with
  | zero => exact .refl k
  | succ n ih =>
      have hp : KbdOnly k (passKey k i) := ⟨_, _, rfl, rfl⟩
      unfold Xeros.flushKeys
      dsimp only
      split
      · split
        · exact (hp.trans ⟨(passKey k i).mem, _, rfl, rfl⟩).trans (ih (i + 1) _)
        · exact (hp.trans (shiftKeys (i + 1) n 0 _)).trans ⟨_, _, rfl, rfl⟩
      · exact hp.trans (ih (i + 1) _)

theorem storeAndFlush (k : Kernel) (c : Byte) : KbdOnly k (storeAndFlush k c).1 := by
  have hk : KbdOnly k (keepKey k c) := by
    unfold keepKey
    split
    · exact storeKey k c
    · exact .refl k
  unfold Xeros.storeAndFlush
  dsimp only
  split
  · split
    · exact hk.trans (flushKeys 4 0 _)
    · exact (hk.trans (flushKeys 4 0 _)).trans ⟨_, _, rfl, rfl⟩
  · exact hk

end KbdOnly

theorem notify_quiet {fuel : Nat} (hg : Good k) (hu : k.Used p)
    (h : notify k fuel p = .ok k') : Quiet X k k' := by
  simp only [notify, Run.bind_eq_ok] at h
  obtain ⟨_, -, ⟨k₁, r⟩, h₁, h⟩ := h
  have hx := remove_quiet (X := fun q => X q ∨ q = p) hg h₁
  have hy := hx.trans (.setRet hx.good (.inr rfl) (toWord k₁.kbd.applbufidx))
  exact ready_settles hy.good (hy.used hu) h (fun _ h => h) hy

theorem notifyReader_quiet {fuel : Nat} {b : Bool} (hg : Good k)
    (h : notifyReader k fuel = .ok (k', b)) : Quiet X k k' := by
  unfold notifyReader at h
  split at h
  · simp only [pure, Except.pure, Except.ok.injEq, Prod.mk.injEq] at h
    exact h.1 ▸ .refl hg
  · rename_i r hr
    split at h
    · simp only [Run.bind_eq_ok, pure, Except.pure, Except.ok.injEq, Prod.mk.injEq] at h
      obtain ⟨k₁, h₁, rfl, -⟩ := h
      have hx := notify_quiet (X := X) hg (hg.reader r hr) h₁
      exact hx.trans (.setKbd hx.good (by simp))
    · simp only [pure, Except.pure, Except.ok.injEq, Prod.mk.injEq] at h
      exact h.1 ▸ .refl hg

theorem bufferKey_quiet {fuel : Nat} {c ascii : Byte} (hg : Good k)
    (h : bufferKey k fuel c ascii = .ok k') : Quiet X k k' := by
  unfold bufferKey at h
  split at h
  · simp only [pure, Except.pure, Except.ok.injEq] at h
    exact h ▸ .refl hg
  · have hs := (KbdOnly.storeAndFlush k c).quiet (X := X) hg
    split at h
    · rename_i k₁ hk₁
      simp only [pure, Except.pure, Except.ok.injEq] at h
      rw [hk₁] at hs
      exact h ▸ hs
    · rename_i k₁ hk₁
      rw [hk₁] at hs
      simp only [Run.bind_eq_ok, pure, Except.pure, Except.ok.injEq] at h
      obtain ⟨⟨k₂, b⟩, h₂, rfl⟩ := h
      exact hs.trans (notifyReader_quiet hs.good h₂)

theorem handleKey_quiet {fuel : Nat} {c ascii : Byte} (hg : Good k)
    (h : handleKey k fuel c ascii = .ok k') : Quiet X k k' := by
  unfold handleKey at h
  split at h
  · simp only [pure, Except.pure, Except.ok.injEq] at h
    exact h ▸ .refl hg
  split at h
  · simp only [pure, Except.pure, Except.ok.injEq] at h
    exact h ▸ (KbdOnly.storeKey k c).quiet hg
  split at h
  · simp only [Run.bind_eq_ok] at h
    obtain ⟨⟨k₁, woken⟩, h₁, h⟩ := h
    have hc := (KbdOnly.completeRead k c).quiet (X := X) hg
    have hn := hc.trans (notifyReader_quiet hc.good h₁)
    split at h
    · simp only [pure, Except.pure, Except.ok.injEq] at h
      exact h ▸ hn
    · exact hn.trans (bufferKey_quiet hn.good h)
  · exact bufferKey_quiet hg h

theorem processKey_quiet {a : Ambient} (hg : Good k) (h : processKey k a = .ok k') :
    Quiet X k k' := by
  have hk := Quiet.setKbd (X := X) hg
    (b := { k.kbd with keyState := (kbtoa k.kbd.keyState a.datasrc).2 }) hg.reader
  exact hk.trans (handleKey_quiet hk.good h)

/-- A pcb gets a descriptor with the major number of the old one. -/
theorem setFd_quiet (hg : Good k) (hu : k.Used p) (i : Fin maxFiles) (g : Pcb → Fildes)
    (hmajor : i = 0 → ∀ c, (g c).major = (c.fd 0).major) :
    Quiet X k (k.upd p fun c => c.setFd i (g c)) := by
  refine .upd hg hu ⟨rfl, rfl, rfl, rfl, rfl, rfl, rfl, ?_⟩ (hg.next p)
    (.inr (.inl ⟨rfl, .inr rfl⟩))
  unfold Pcb.setFd
  dsimp only
  split
  · rename_i hi
    exact hmajor hi.symm _
  · rfl

theorem callTransfer_quiet {f : TransferFn} {buff : Word} {len : Int} (hg : Good k)
    (hu : k.Used p) : Quiet X k (callTransfer f k p buff len).2 := by
  have he : Quiet X k (ekbdRead k p buff len).2 := by
    unfold ekbdRead
    split
    · exact .refl hg
    · refine .setKbd hg ?_
      rintro r ⟨rfl⟩
      exact hu
  cases f with
  | unsupported => exact .refl hg
  | kbdRead =>
      unfold callTransfer kbdRead
      dsimp only
      split
      · exact .setMem hg _
      · exact he
  | ekbdRead => exact he

theorem diWrite_quiet (fd : Int) (buff : Word) (len : Int) (hg : Good k) (hu : k.Used p) :
    Quiet X k (diWrite k p fd buff len).2 := by
  unfold diWrite
  split
  · exact .refl hg
  · exact callTransfer_quiet hg hu

theorem diRead_quiet (fd : Int) (buff : Word) (len : Int) (hg : Good k) (hu : k.Used p) :
    Quiet X k (diRead k p fd buff len).2 := by
  unfold diRead
  split
  · exact .refl hg
  · exact callTransfer_quiet hg hu

theorem diIoctl_quiet {a : Ambient} {fd cmd : Int} {arg : Word} (hg : Good k) :
    Quiet X k (diIoctl k a p fd cmd arg).2 := by
  unfold diIoctl
  split
  · exact .refl hg
  · unfold callIoctl
    split
    · exact .refl hg
    · unfold kbdIoctl
      split
      · exact .refl hg
      split
      · exact .setKbd hg hg.reader
      · exact .refl hg

theorem diClose_quiet {fd : Int} (hg : Good k) (hu : k.Used p) :
    Quiet X k (diClose k p fd).2 := by
  unfold diClose
  split
  · exact .refl hg
  · rename_i i _
    have hc : Quiet X k (callClose (devOf k p i).dvclose k).2 := by
      unfold callClose
      split
      · exact .refl hg
      · exact .setKbd hg (by simp)
    dsimp only
    split
    · refine hc.trans (setFd_quiet hc.good (hc.used hu) i
        (fun c => { c.fd i with status := .closed }) ?_)
      rintro rfl c
      rfl
    · exact hc

end Xeros
