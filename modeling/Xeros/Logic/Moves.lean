import Xeros.Logic.Queues

/-!
# How processes move between the lists

What the longer operations on the lists do: `create` takes a slot out of
`dead_q`, `notify_waiters` wakes a process of `blocked_q`, `sleep` and `tick`
enter and wake sleepers.
-/

namespace Xeros

open Lib

variable {k k' k₁ k₂ : Kernel} {o : Option Slot} {p q r : Slot} {L : Queue → List Slot}
  {c d : Queue} {fuel : Nat} {a : Ambient}

/-! ## Creation -/

/-- The members of a list are used. -/
theorem Good.used_of_chain (hg : Good k) {x : Option Slot} {l : List Slot}
    (hc : Chain k.link x l) (hx : ∀ q, x = some q → k.Used q) : ∀ q ∈ l, k.Used q := by
  induction l generalizing x with
  | nil => simp
  | cons b l ih =>
      obtain ⟨rfl, hc⟩ := hc
      intro q hq
      rcases List.mem_cons.mp hq with rfl | hq
      · exact hx q rfl
      · exact ih hc (hg.next b) q hq

/-- What `remove` does to a queue: a pcb with the pid is taken out and with it all that
come before it, and the pid is returned; if there is none, only the last pcb stays. -/
theorem removeLoop_cases {Q : QRef} {pid : Word} {x : Option Slot} {l : List Slot} {n : Int}
    (hc : Chain k.link x l) (h : removeLoop Q pid fuel k x = .ok (k', n)) :
    (∃ l₁ b l₂, l = l₁ ++ b :: l₂ ∧ (k.proctab b).pid = pid ∧ (∀ q ∈ l₁, (k.proctab q).pid ≠ pid) ∧
      n = pid.toInt ∧ k' = (Q.set k (k.proctab b).next).upd b fun c => c.setNext none) ∨
    ((∀ q ∈ l, (k.proctab q).pid ≠ pid) ∧ n = -1 ∧
      k' = match l.getLast? with
        | some b => Q.set k (some b)
        | none => k) := by
  induction fuel generalizing k x l with
  | zero => cases h
  | succ fuel ih =>
      cases x with
      | none =>
          obtain rfl := Chain.none_iff.mp hc
          simp only [removeLoop, pure, Except.pure, Except.ok.injEq, Prod.mk.injEq] at h
          exact .inr ⟨by simp, h.2.symm, h.1.symm⟩
      | some b =>
          obtain ⟨l', rfl, hc'⟩ := Chain.some_iff.mp hc
          simp only [removeLoop] at h
          split at h
          · rename_i hb
            simp only [pure, Except.pure, Except.ok.injEq, Prod.mk.injEq] at h
            exact .inl ⟨[], b, l', rfl, hb, by simp, h.2.symm, h.1.symm⟩
          · rename_i hb
            have hc₁ : Chain (Q.set k (some b)).link (k.proctab b).next l' := by
              rw [QRef.set_link]
              exact hc'
            rcases ih hc₁ h with ⟨l₁, c, l₂, rfl, hp, hl₁, hn, hk'⟩ | ⟨hl, hn, hk'⟩
            · rw [QRef.set_proctab] at hp hl₁ hk'
              refine .inl ⟨b :: l₁, c, l₂, rfl, hp, ?_, hn, ?_⟩
              · intro q hq
                rcases List.mem_cons.mp hq with rfl | hq
                · exact hb
                · exact hl₁ q hq
              · rw [hk', QRef.set_set]
            · rw [QRef.set_proctab] at hl
              refine .inr ⟨?_, hn, ?_⟩
              · intro q hq
                rcases List.mem_cons.mp hq with rfl | hq
                · exact hb
                · exact hl q hq
              · rw [hk', List.getLast?_cons]
                cases l'.getLast? with
                | none => rfl
                | some t => exact QRef.set_set _ _ _ _

@[simp] theorem slotOf_ofNat (i : Slot) : slotOf (BitVec.ofNat 32 i.val) = i := by
  refine Fin.ext ?_
  have hlt : i.val < 64 := i.isLt
  change i.val % 4294967296 % 64 = i.val
  omega

/-- The last pcb of `dead_q`. -/
def Kernel.LastDead (k : Kernel) (i : Slot) : Prop := ∃ l, Chain k.link k.deadQ (l ++ [i])

/-- `remove` leaves a part of `dead_q`. The slot whose index is looked for stays only if
it comes last and has another pid. -/
theorem Queues.removeDead (h : Queues k none L) (hg : Good k) {i : Slot} {n : Int}
    (hr : remove k fuel (some .deadQ) (BitVec.ofNat 32 i.val) = .ok (k', n)) :
    ∃ l, Queues k' none (Function.update L .dead l) ∧
      (∀ q, (k'.proctab q).pid = (k.proctab q).pid ∧ (k'.proctab q).state = (k.proctab q).state) ∧
      (∀ q ∈ l, q ∈ L .dead) ∧
      (i ∈ l → k.LastDead i ∧ (k.proctab i).pid ≠ BitVec.ofNat 32 i.val) := by
  have hchain : Chain k.link k.deadQ (L .dead) := h.chain .dead
  have htail : k.tail = (L .ready).getLast? := h.tail
  have hnodup := h.nodup .dead
  rcases removeLoop_cases hchain hr with ⟨l₁, b, l₂, hl, hb, -, -, rfl⟩ | ⟨hl, -, hk'⟩
  · -- `b` is taken out, and those in front of it are lost
    have hbm : b ∈ L .dead := by simp [hl]
    have hrel := Relinked.setNext k b none
    rw [hl, List.nodup_append] at hnodup
    obtain ⟨hbl, hnl⟩ := List.nodup_cons.mp hnodup.2.1
    refine ⟨l₂, ?_, fun q => ⟨hrel.pid q, hrel.state q⟩, fun q hq => by simp [hl, hq],
      fun hi => ?_⟩
    · refine h.exit ?_ (fun q hq => by simp [hl, hq]) hnl (fun hd => absurd rfl hd) (by simp)
        (fun d hd => ?_) ?_ hrel.state hrel.pid rfl
      · rw [hl] at hchain
        obtain ⟨m, -, -, hrest⟩ := Seg.append_iff.mp hchain
        refine Chain.congr (fun q hq => ?_) hrest
        have hqb : q ≠ b := by
          rintro rfl
          exact hbl hq
        simp [Kernel.link, hqb]
      · have hc := h.chain_upd (f := fun c => c.setNext none)
          fun hd' : b ∈ L d => hd (h.eq_of_mem hd' hbm)
        cases d with
        | dead => exact absurd rfl hd
        | _ => exact hc
      · rw [Function.update_of_ne (by decide)]
        exact htail
    · -- the pcb taken out is that of slot `i`
      have hub := hg.used_of_chain hchain hg.deadQ b hbm
      have hbi : b = i := by
        have hs := hub.2.1
        rwa [hb, slotOf_ofNat, eq_comm] at hs
      exact absurd hi (hbi ▸ hbl)
  · -- nobody has the index for a pid, and all but the last are lost
    cases hlast : (L .dead).getLast? with
    | none =>
        rw [hlast] at hk'
        subst hk'
        refine ⟨L .dead, by rwa [Function.update_eq_self], fun q => ⟨rfl, rfl⟩, fun _ hq => hq,
          fun hi => ?_⟩
        rw [List.getLast?_eq_none_iff.mp hlast] at hi
        cases hi
    | some t =>
        rw [hlast] at hk'
        obtain ⟨l, hlt⟩ := List.getLast?_eq_some_iff.mp hlast
        have htm : t ∈ L .dead := by simp [hlt]
        subst hk'
        refine ⟨[t], ?_, fun q => ⟨rfl, rfl⟩, by simpa using htm, fun hi => ?_⟩
        · refine h.exit ?_ (by simpa using htm) (by simp) (fun hd => absurd rfl hd) (by simp)
            (fun d hd => ?_) ?_ (fun q => rfl) (fun q => rfl) rfl
          · rw [hlt] at hchain
            exact ⟨rfl, (Seg.snoc_iff.mp hchain).2⟩
          · have hc := h.chain d
            cases d with
            | dead => exact absurd rfl hd
            | _ => exact hc
          · rw [Function.update_of_ne (by decide)]
            exact htail
        · obtain rfl := List.mem_singleton.mp hi
          exact ⟨⟨l, hlt ▸ hchain⟩, hl i htm⟩

/-- A slot of `dead_q`'s kind gets another pid. -/
theorem Queues.renew (h : Queues k none L) {i : Slot}
    (hi : (k.proctab i).state.queue = some .dead) :
    Queues (k.upd i fun c => c.renew i) none L := by
  have hnext : (k.upd i fun c => c.renew i).link = k.link := by
    funext q
    by_cases hq : q = i
    · subst hq
      simp [Kernel.link]
    · simp [Kernel.link, hq]
  have hstate : ∀ q, ((k.upd i fun c => c.renew i).proctab q).state = (k.proctab q).state := by
    intro q
    by_cases hq : q = i
    · subst hq
      simp
    · simp [hq]
  constructor
  · intro c
    have hfirst : (k.upd i fun c => c.renew i).first c = k.first c := by cases c <;> rfl
    rw [hnext, hfirst]
    exact h.chain c
  · exact h.nodup
  · exact h.tail
  · intro c q hq
    rw [hstate]
    exact h.placed c q hq
  · exact h.out
  · intro q c hq hs hc hidle
    rw [hstate] at hs
    by_cases hqi : q = i
    · subst hqi
      exact absurd (Option.some.inj (hs.symm.trans hi)) hc
    · rw [Kernel.upd_proctab_ne _ _ _ hqi] at hidle
      exact h.found q c hq hs hc hidle
  · rw [Kernel.upd_idleprocPid, hstate]
    exact h.idle

/-- The block that `create` asks for. -/
def stackBlock (k : Kernel) (fuel : Nat) (stack : Word) : Run (Word × Heap) :=
  kmalloc k.heap fuel ((if stack.slt procStack then procStack else stack) * 2)

/-- `create` takes a slot that stays in `dead_q`: the last one of the queue, with a pid
that is not its index. -/
def createSplices (k : Kernel) (fuel : Nat) (stack : Word) : Prop :=
  ∃ i, freeSlot k = some i ∧ k.LastDead i ∧ (k.proctab i).pid ≠ BitVec.ofNat 32 i.val ∧
    ∃ b h, stackBlock k fuel stack = .ok (b, h) ∧ b ≠ 0

/-- When no slot is free, `dead_q` is empty. -/
theorem Queues.dead_empty (h : Queues k none L) (hg : Good k) (hf : freeSlot k = none) :
    L .dead = [] := by
  refine List.eq_nil_iff_forall_not_mem.mpr fun q hq => ?_
  have hst := h.placed .dead q hq
  have hu := hg.used_of_chain (h.chain .dead) hg.deadQ q hq
  have hfree := List.find?_eq_none.mp hf q (List.mem_finRange q)
  simp only [ne_eq, decide_eq_true_eq, not_and, not_or] at hfree
  obtain ⟨h₁, h₂⟩ := hfree hu.1
  revert hst h₁ h₂
  cases (k.proctab q).state <;> simp [PState.queue]

/-- `create` enters the new process in the ready queue. -/
theorem Queues.create (h : Queues k none L) (hg : Good k) {fp stack pid : Word}
    (hs : ¬ createSplices k fuel stack) (hc : create k fuel fp stack = .ok (pid, k')) :
    ∃ L', Queues k' none L' ∧ L' .blocked = L .blocked ∧
      ∀ q c, q ∈ L' c → (∃ d, q ∈ L d) ∨ (k.proctab q).state.queue = some .dead := by
  rcases create_cases hc with ⟨k₁, n, hf, h₁, -, rfl⟩ | ⟨i, k₁, n, b, heap, hf, h₁, h₂, hc⟩
  · -- no process is stopped, so `dead_q` is empty
    have hempty := h.dead_empty hg hf
    have hdead : k.deadQ = none := by
      have := h.chain .dead
      rwa [hempty] at this
    obtain rfl : k₁ = k := by
      cases fuel with
      | zero => cases h₁
      | succ fuel =>
          simp only [remove, QRef.get, hdead, removeLoop, pure, Except.pure, Except.ok.injEq,
            Prod.mk.injEq] at h₁
          exact h₁.1.symm
    refine ⟨L, h.unmoved ⟨fun _ => rfl, fun _ => rfl, fun _ => rfl, fun c => ?_, rfl, rfl⟩,
      rfl, fun q c hq => .inl ⟨c, hq⟩⟩
    cases c <;> rfl
  · obtain ⟨hi0, hst⟩ := freeSlot_spec hf
    have hdead : (k.proctab i).state.queue = some .dead := by
      rcases hst with hst | hst <;> rw [hst] <;> rfl
    obtain ⟨l, hq₁, hsame, hsub, hstay⟩ := h.removeDead hg h₁
    have hq₂ := hq₁.renew (i := i) (by rw [(hsame i).2, hdead])
    have hx₁ := remove_quiet (X := nobody) hg h₁
    have hg₂ := hx₁.good.renew hi0
    have hst₂ : ((k₁.upd i fun c => c.renew i).proctab i).state.queue = some .dead := by
      rw [Kernel.upd_proctab_self, Pcb.renew_state, (hsame i).2, hdead]
    have hu₂ : (k₁.upd i fun c => c.renew i).Used i :=
      ⟨hi0, by simpa using nextPid_used (k₁.proctab i).pid i⟩
    generalize (k₁.upd i fun c => c.renew i) = k₂ at hc hq₂ hg₂ hst₂ hu₂
    have hq₃ := hq₂.unmoved (.setHeap k₂ heap)
    rcases hc with ⟨-, -, rfl⟩ | ⟨hb, -, h₃⟩
    · exact ⟨_, hq₃, Function.update_of_ne (by decide) _ _,
        fun q c hq => .inl (Within.update hsub q c hq)⟩
    · have hil : i ∉ l := fun hm => hs ⟨i, hf, (hstay hm).1, (hstay hm).2, b, heap, h₂, hb⟩
      have hout : ∀ c, i ∉ Function.update L .dead l c := by
        intro c hm
        have hcd := hq₂.placed c i hm
        rw [hst₂] at hcd
        obtain rfl : Queue.dead = c := Option.some.inj hcd
        rw [Function.update_self] at hm
        exact hil hm
      unfold launch at h₃
      generalize hm : startContext _ _ _ _ = m at h₃
      have hq₄ := (hq₃.unmoved (.setMem _ m)).leave hout
      have hq₅ := hq₄.updOut (f := fun c => c.start (b +
        (if stack.slt procStack then procStack else stack) - 4 - 44)) fun _ => .inl rfl
      have hu₅ := Kernel.Used.upd (q := i) (f := fun c => c.start (b +
        (if stack.slt procStack then procStack else stack) - 4 - 44))
        (k := (k₂.setHeap heap).setMem m) rfl (r := i) hu₂
      obtain ⟨L', hq₆, hframe, hnew⟩ := hq₅.ready hu₅ h₃
      refine ⟨L', hq₆, ?_, fun q c hq => ?_⟩
      · exact (hframe .blocked (by decide)).trans (Function.update_of_ne (by decide) _ _)
      rcases hnew q c hq with rfl | hq
      · exact .inr hdead
      · exact .inl (Within.update hsub q c hq)

/-! ## The end of a process -/

/-- The process is in a call that waits for another process. -/
def Messaging (k : Kernel) (q : Slot) : Prop :=
  (k.proctab q).ret = Request.send.code ∨ (k.proctab q).ret = Request.recv.code

/-- A process that is not sending or receiving is taken to wait on what `notify_waiters` has
found before. -/
theorem messaging_of_waitsOn {pid destpid : Word} (hd : destpid ≠ pid)
    (h : waitsOn k q destpid = pid) : Messaging k q := by
  unfold waitsOn at h
  split at h
  · rename_i hs
    exact .inl hs
  split at h
  · rename_i hr
    exact .inr hr
  · exact absurd h hd

/-- A process behind the head of `blocked_q` is cut out of it. -/
theorem Queues.cutOut {l₁ l₂ : List Slot} (h : Queues k none L)
    (hl : L .blocked = l₁ ++ [p] ++ q :: l₂) :
    Queues (k.upd p fun c => c.setNext (k.proctab q).next) (some q)
      (Function.update L .blocked (l₁ ++ [p] ++ l₂)) := by
  have hnodup := h.nodup .blocked
  have hchain := h.chain .blocked
  rw [hl] at hnodup hchain
  have hqb : q ∈ L .blocked := by simp [hl]
  have hpb : p ∈ L .blocked := by simp [hl]
  have hrel := Relinked.setNext k p (k.proctab q).next
  refine h.exit ?_ ?_ ?_ ?_ ?_ (fun d hd => ?_) ?_ hrel.state hrel.pid rfl
  · refine hchain.cut hnodup (fun b hbp => ?_) ?_
    · simp [Kernel.link, hbp]
    · simp [Kernel.link]
  · intro r hr
    rw [hl]
    simp only [List.mem_append, List.mem_cons] at hr ⊢
    tauto
  · refine List.Nodup.sublist ?_ hnodup
    exact List.Sublist.append_left (List.sublist_cons_self q l₂) _
  · intro _ r hr hrq
    rw [hl] at hr
    have hrq' : r ≠ q := fun h => hrq (h ▸ rfl)
    simpa [hrq'] using hr
  · rintro _ ⟨rfl⟩
    rw [List.nodup_middle] at hnodup
    exact ⟨hqb, (List.nodup_cons.mp hnodup).1⟩
  · have hc := h.chain_upd (f := fun c => c.setNext (k.proctab q).next)
      fun hd' : p ∈ L d => hd (h.eq_of_mem hd' hpb)
    cases d <;> exact hc
  · rw [Function.update_of_ne (by decide)]
    exact h.tail

/-- Behind the head of `blocked_q`, `notify_waiters` moves at most one process, which has
no link afterwards, to the ready queue. -/
theorem Queues.notifyWaitersLoop {pid destpid : Word} (l₁ : List Slot) {l₂ : List Slot}
    {prev : Slot} {x : Option Slot} (h : Queues k none L) (hg : Good k) (hd : destpid ≠ pid)
    (hl : L .blocked = l₁ ++ [prev] ++ l₂) (hx : Chain k.link x l₂)
    (hn : notifyWaitersLoop pid fuel k prev x destpid = .ok k') :
    ∃ L', Queues k' none L' ∧ ∀ r ∈ L .blocked, ¬ Messaging k r → r ∈ L' .blocked := by
  induction fuel generalizing l₁ l₂ prev x destpid with
  | zero => cases hn
  | succ fuel ih =>
      cases x with
      | none =>
          simp only [Xeros.notifyWaitersLoop, pure, Except.pure, Except.ok.injEq] at hn
          exact ⟨L, hn ▸ h, fun r hr _ => hr⟩
      | some q =>
          obtain ⟨l₃, rfl, hx'⟩ := Chain.some_iff.mp hx
          simp only [Xeros.notifyWaitersLoop] at hn
          split at hn
          · -- `q` is cut out and made ready
            rename_i hwait
            simp only [Run.bind_eq_ok] at hn
            obtain ⟨k₁, h₁, hn⟩ := hn
            have hqb : q ∈ L .blocked := by simp [hl]
            have hu := hg.used_of_chain (h.chain .blocked) hg.blockedQ q hqb
            have hret := (h.cutOut hl).unmoved (.setRet _ q (toWord badPid))
            have hu' : ((k.upd prev fun c => c.setNext (k.proctab q).next).setRet q
                (toWord badPid)).Used q := Kernel.Used.upd rfl (Kernel.Used.upd rfl hu)
            obtain ⟨L', h', hframe, -⟩ := hret.ready hu' h₁
            have hnext := hret.ready_next hu' h₁
            -- `ready` has cleared the link of `q`, along which the walk goes on: it ends
            rw [hnext] at hn
            cases fuel with
            | zero => cases hn
            | succ fuel =>
                simp only [Xeros.notifyWaitersLoop, pure, Except.pure, Except.ok.injEq] at hn
                refine ⟨L', hn ▸ h', fun r hr hm => ?_⟩
                have hrq : r ≠ q := by
                  rintro rfl
                  exact hm (messaging_of_waitsOn hd hwait)
                rw [hframe .blocked (by decide), Function.update_self]
                rw [hl] at hr
                simpa [hrq] using hr
          · rename_i hwait
            exact ih (l₁ ++ [prev]) hwait (by rw [hl]; simp) hx' hn

/-- `notify_waiters` moves at most one process, unless it finds the head of `blocked_q`
waiting. -/
theorem Queues.notifyWaiters (h : Queues k none L) (hg : Good k) {pid : Word}
    (hw : ∀ q, k.blockedQ = some q → waitsOn k q a.destpid ≠ pid)
    (hn : notifyWaiters k a pid = .ok k') :
    ∃ L', Queues k' none L' ∧ ∀ r ∈ L .blocked, ¬ Messaging k r → r ∈ L' .blocked := by
  unfold Xeros.notifyWaiters at hn
  split at hn
  · simp only [pure, Except.pure, Except.ok.injEq] at hn
    exact ⟨L, hn ▸ h, fun r hr _ => hr⟩
  · rename_i q hq
    obtain ⟨l, hl, hchain⟩ := h.first_eq (c := .blocked) hq
    cases hfuel : a.fuel with
    | zero =>
        rw [hfuel] at hn
        cases hn
    | succ fuel =>
        rw [hfuel] at hn
        simp only [Xeros.notifyWaitersLoop, if_neg (hw q hq)] at hn
        exact h.notifyWaitersLoop [] hg (hw q hq) hl hchain hn

/-! ## Sleepers -/

/-- The search of `sleep` stops between two sleepers. -/
theorem sleepLoop_cases {ticks acc acc' : Word} (l₁ : List Slot) {l₂ : List Slot}
    {prev prev' : Slot} {x x' : Option Slot} (hx : Chain k.link x l₂) (hp : x = k.link prev)
    (h : sleepLoop k ticks fuel prev x acc = .ok (prev', x', acc')) :
    ∃ l₁' l₂', l₁ ++ [prev] ++ l₂ = l₁' ++ [prev'] ++ l₂' ∧ x' = k.link prev' := by
  induction fuel generalizing l₁ l₂ prev x acc with
  | zero => cases h
  | succ fuel ih =>
      cases x with
      | none =>
          simp only [sleepLoop, pure, Except.pure, Except.ok.injEq, Prod.mk.injEq] at h
          obtain ⟨rfl, rfl, -⟩ := h
          exact ⟨l₁, l₂, rfl, hp⟩
      | some n =>
          obtain ⟨l₃, rfl, hx'⟩ := Chain.some_iff.mp hx
          simp only [sleepLoop] at h
          split at h
          · obtain ⟨l₁', l₂', hl, hp'⟩ := ih (l₁ ++ [prev]) hx' rfl h
            exact ⟨l₁', l₂', by rw [← hl]; simp, hp'⟩
          · simp only [pure, Except.pure, Except.ok.injEq, Prod.mk.injEq] at h
            obtain ⟨rfl, rfl, -⟩ := h
            exact ⟨l₁, n :: l₃, rfl, hp⟩

/-- The sleeper on its way is linked in between two others. -/
theorem Queues.insertSleeper (h : Queues k (some p) L) (hst : (k.proctab p).state = .sleep)
    {l₁ l₂ : List Slot} {prev : Slot} (hl : L .sleep = l₁ ++ [prev] ++ l₂) (acc : Word) :
    Queues (insertSleeper k p prev (k.link prev) acc) none
      (Function.update L .sleep (l₁ ++ [prev] ++ p :: l₂)) := by
  have hpm : ∀ c, p ∉ L c := h.out p rfl
  have hprev : prev ∈ L .sleep := by simp [hl]
  have hpp : p ≠ prev := by
    rintro rfl
    exact hpm .sleep hprev
  -- first the link of `p`, which no list holds yet, then that of `prev`, and last the ticks
  have h₁ := h.relink hpm (k.link prev)
  have hst₁ : ((k.upd p fun c => c.setNext (k.link prev)).proctab p).state.queue = some .sleep := by
    rw [Kernel.upd_proctab_self, Pcb.setNext_state, hst]
    rfl
  have hnext₁ : ((k.upd p fun c => c.setNext (k.link prev)).proctab p).next
      = (k.upd p fun c => c.setNext (k.link prev)).link prev := by
    simp [Kernel.link, Ne.symm hpp]
  unfold Xeros.insertSleeper
  dsimp only
  generalize (k.upd p fun c => c.setNext (k.link prev)) = k₁ at h₁ hst₁ hnext₁
  have hnodup := h₁.nodup .sleep
  have hchain := h₁.chain .sleep
  rw [hl] at hnodup hchain
  have hpl : p ∉ l₁ ++ [prev] ++ l₂ := hl ▸ hpm .sleep
  have h₂ : Queues (k₁.upd prev fun c => c.setNext (some p)) none
      (Function.update L .sleep (l₁ ++ [prev] ++ p :: l₂)) := by
    have hrel := Relinked.setNext k₁ prev (some p)
    refine h₁.enter ?_ (fun q => ?_) ?_ (fun d hd => ?_) ?_ hrel.state hrel.pid rfl hst₁
    · refine hchain.splice hnodup hpl (fun b hb _ => ?_) ?_ ?_
      · simp [Kernel.link, hb]
      · simp [Kernel.link]
      · simpa [Kernel.link, hpp] using hnext₁
    · rw [hl]
      simp only [List.mem_append, List.mem_cons]
      tauto
    · have hmiddle : (l₁ ++ [prev] ++ p :: l₂).Nodup ↔ (p :: (l₁ ++ [prev] ++ l₂)).Nodup :=
        List.nodup_middle
      refine hmiddle.mpr ?_
      exact List.nodup_cons.mpr ⟨hpl, hnodup⟩
    · have hc := h₁.chain_upd (f := fun c => c.setNext (some p))
        fun hd' : prev ∈ L d => hd (h.eq_of_mem hd' hprev)
      cases d <;> exact hc
    · rw [Function.update_of_ne (by decide)]
      exact h₁.tail
  generalize (k₁.upd prev fun c => c.setNext (some p)) = k₂ at h₂
  have h₃ := h₂.unmoved (.upd k₂ p
    (f := fun c => c.setTicks (c.sleepticks - (acc - (k.deref (k.link prev)).sleepticks)))
    rfl rfl rfl)
  generalize (k₂.upd p fun c =>
    c.setTicks (c.sleepticks - (acc - (k.deref (k.link prev)).sleepticks))) = k₃ at h₃
  refine h₃.unmoved ?_
  cases (k₃.proctab p).next with
  | none =>
      refine ⟨fun _ => rfl, fun _ => rfl, fun _ => rfl, fun c => ?_, rfl, rfl⟩
      cases c <;> rfl
  | some n =>
      exact .upd k₃ n (f := fun c => c.setTicks (c.sleepticks - (k₃.proctab p).sleepticks))
        rfl rfl rfl

/-- The sleeper on its way is linked in front of the others. -/
theorem Queues.pushSleeper (h : Queues k (some p) L) (hst : (k.proctab p).state = .sleep) :
    Queues (pushSleeper k p) none (Function.update L .sleep (p :: L .sleep)) := by
  have hpm : ∀ c, p ∉ L c := h.out p rfl
  have h₁ := h.relink hpm k.headsleeper
  have hst₁ : ((k.upd p fun c => c.setNext k.headsleeper).proctab p).state.queue
      = some .sleep := by
    rw [Kernel.upd_proctab_self, Pcb.setNext_state, hst]
    rfl
  have hnext₁ : (k.upd p fun c => c.setNext k.headsleeper).link p = k.headsleeper := by
    simp [Kernel.link]
  -- what is left is to move the head of the list
  have hmove : ∀ k₂ : Kernel, Queues k₂ (some p) L → k₂.link p = k₂.headsleeper →
      (k₂.proctab p).state.queue = some .sleep →
      Queues (k₂.setSleeper (some p)) none (Function.update L .sleep (p :: L .sleep)) := by
    intro k₂ h₂ hnext hst₂
    refine h₂.enter ?_ (fun q => by simp) ?_ (fun d hd => ?_) ?_ (fun q => rfl) (fun q => rfl)
      rfl hst₂
    · refine ⟨rfl, ?_⟩
      show Chain k₂.link (k₂.link p) (L .sleep)
      rw [hnext]
      exact h₂.chain .sleep
    · exact List.nodup_cons.mpr ⟨hpm .sleep, h₂.nodup .sleep⟩
    · have hc := h₂.chain d
      cases d with
      | sleep => exact absurd rfl hd
      | _ => exact hc
    · rw [Function.update_of_ne (by decide)]
      exact h₂.tail
  unfold Xeros.pushSleeper
  dsimp only
  split
  · exact hmove _ h₁ hnext₁ hst₁
  · rename_i n hn
    have hun : Unmoved (k.upd p fun c => c.setNext k.headsleeper)
        ((k.upd p fun c => c.setNext k.headsleeper).upd n
          fun c => c.setTicks (c.sleepticks - (k.proctab p).sleepticks)) :=
      .upd _ n rfl rfl rfl
    refine hmove _ (h₁.unmoved hun) ?_ ?_
    · exact (hun.next p).trans hnext₁
    · rw [hun.state]
      exact hst₁

/-- `sleep` enters the process in the sleep list. -/
theorem Queues.sleep (h : Queues k none L) {ms : Word}
    (hp : (k.proctab p).state = .running) (hidle : p ≠ slotOf k.idleprocPid)
    (hs : sleep k fuel ms p = .ok k') : ∃ L', Queues k' none L' ∧ L' .blocked = L .blocked := by
  have h₁ := (h.leave fun c => h.notMem_of_running (c := c) hp).updOut
    (f := fun c => c.toSleep (millisecondsToTicks ms)) fun hi => absurd hi hidle
  have hst : ((k.upd p fun c => c.toSleep (millisecondsToTicks ms)).proctab p).state
      = .sleep := by simp [Pcb.toSleep]
  simp only [Xeros.sleep, Run.bind_eq_ok] at hs
  obtain ⟨_, -, hs⟩ := hs
  generalize (k.upd p fun c => c.toSleep (millisecondsToTicks ms)) = k₁ at h₁ hst hs
  split at hs
  · simp only [pure, Except.pure, Except.ok.injEq] at hs
    exact ⟨_, hs ▸ h₁.pushSleeper hst, Function.update_of_ne (by decide) _ _⟩
  · rename_i n hn
    split at hs
    · rename_i hlt
      simp only [Run.bind_eq_ok, pure, Except.pure, Except.ok.injEq] at hs
      obtain ⟨⟨prev, x, acc⟩, hl, rfl⟩ := hs
      obtain ⟨l, hln, hchain⟩ := h₁.first_eq (c := .sleep) hn
      -- the first step of the search passes the head
      cases fuel with
      | zero => cases hl
      | succ fuel =>
          simp only [sleepLoop, if_pos hlt] at hl
          obtain ⟨l₁, l₂, heq, rfl⟩ := sleepLoop_cases [] hchain rfl hl
          exact ⟨_, h₁.insertSleeper hst (hln.trans heq) acc, Function.update_of_ne (by decide) _ _⟩
    · simp only [pure, Except.pure, Except.ok.injEq] at hs
      exact ⟨_, hs ▸ h₁.pushSleeper hst, Function.update_of_ne (by decide) _ _⟩

/-- `tick` moves sleepers to the ready queue. -/
theorem Queues.tickLoop (h : Queues k none L) (hg : Good k) (ht : tickLoop fuel k = .ok k') :
    ∃ L', Queues k' none L' ∧ L' .blocked = L .blocked ∧ Within L L' := by
  induction fuel generalizing k L with
  | zero => cases ht
  | succ fuel ih =>
      simp only [Xeros.tickLoop] at ht
      split at ht
      · simp only [pure, Except.pure, Except.ok.injEq] at ht
        exact ⟨L, ht ▸ h, rfl, .refl L⟩
      · rename_i q hq
        split at ht
        · simp only [Run.bind_eq_ok] at ht
          obtain ⟨k₁, h₁, ht⟩ := ht
          obtain ⟨l, hl, -⟩ := h.first_eq (c := .sleep) hq
          have hpop : Queues (popSleeper k q) (some q) (Function.update L .sleep l) := by
            refine h.pop (by decide) hl (fun d => ?_) rfl rfl rfl
            cases d <;> rfl
          have hx := popSleeper_quiet (X := nobody) hg (hg.headsleeper q hq)
          have hu := hx.used (hg.headsleeper q hq)
          obtain ⟨L₁, hq₁, hframe, hnew⟩ := hpop.ready hu h₁
          have hg₁ := (ready_quiet (X := nobody) hx.good hu h₁).good
          obtain ⟨L₂, hq₂, hb₂, hL₂⟩ := ih hq₁ hg₁ ht
          refine ⟨L₂, hq₂, ?_, Within.trans (fun r c hr => ?_) hL₂⟩
          · rw [hb₂, hframe .blocked (by decide), Function.update_of_ne (by decide)]
          rcases hnew r c hr with rfl | hr
          · exact ⟨.sleep, by simp [hl]⟩
          · exact Within.update (c := .sleep) (fun s hs => by simp [hl, hs]) r c hr
        · simp only [pure, Except.pure, Except.ok.injEq] at ht
          exact ⟨L, ht ▸ h, rfl, .refl L⟩

theorem Unmoved.countDown (k : Kernel) : Unmoved k (countDown k) := by
  unfold Xeros.countDown
  split
  · exact .refl k
  · split
    · exact .upd k _ rfl rfl rfl
    · exact .refl k

theorem Queues.tick (h : Queues k none L) (hg : Good k) (ht : tick k fuel = .ok k') :
    ∃ L', Queues k' none L' ∧ L' .blocked = L .blocked ∧ Within L L' := by
  unfold Xeros.tick at ht
  split at ht
  · simp only [pure, Except.pure, Except.ok.injEq] at ht
    exact ⟨L, ht ▸ h, rfl, .refl L⟩
  · rename_i q hq
    split at ht
    · simp only [Run.bind_eq_ok, pure, Except.pure, Except.ok.injEq] at ht
      obtain ⟨k₁, h₁, rfl⟩ := ht
      have hx := Quiet.updTicks (X := nobody) hg (hg.headsleeper q hq) fun _ => 0
      have hq₁ := h.unmoved (.upd k q (f := fun c => c.setTicks 0) rfl rfl rfl)
      obtain ⟨L', h', hb', hL'⟩ := hq₁.tickLoop hx.good h₁
      exact ⟨L', h'.unmoved (.countDown k₁), hb', hL'⟩
    · simp only [pure, Except.pure, Except.ok.injEq] at ht
      exact ⟨L, ht ▸ h.unmoved (.countDown k), rfl, .refl L⟩

end Xeros
