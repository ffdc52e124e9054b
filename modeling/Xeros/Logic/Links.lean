import Xeros.Lib.Chain
import Xeros.Logic.Quiet

/-!
# Links

What the operations on the queues do when they only know the queue they work on: they
change links, they end, and they leave the rest of the pcbs and the memory alone.
-/

namespace Xeros

open Lib

variable {k k' k₁ k₂ : Kernel} {p q : Slot} {Q : QRef} {fuel : Nat}

/-- The links of the pcbs. -/
def Kernel.link (k : Kernel) (q : Slot) : Option Slot := (k.proctab q).next

@[simp] theorem QRef.set_link (Q : QRef) (k : Kernel) (v : Option Slot) :
    (Q.set k v).link = k.link := by cases Q <;> rfl

/-! ## Only links change -/

/-- Of the pcbs, the memory and the image, only links change. -/
structure Relinked (k k' : Kernel) : Prop where
  pcb : ∀ q, ∃ o, k'.proctab q = (k.proctab q).setNext o
  mem : k'.mem = k.mem
  img : k'.img = k.img

namespace Relinked

theorem refl (k : Kernel) : Relinked k k := ⟨fun q => ⟨(k.proctab q).next, rfl⟩, rfl, rfl⟩

theorem trans (h₁ : Relinked k k₁) (h₂ : Relinked k₁ k₂) : Relinked k k₂ where
  pcb q := by
    obtain ⟨o₁, ho₁⟩ := h₁.pcb q
    obtain ⟨o₂, ho₂⟩ := h₂.pcb q
    exact ⟨o₂, by rw [ho₂, ho₁]; rfl⟩
  mem := h₂.mem.trans h₁.mem
  img := h₂.img.trans h₁.img

theorem setNext (k : Kernel) (p : Slot) (o : Option Slot) :
    Relinked k (k.upd p fun c => c.setNext o) := by
  refine ⟨fun q => ?_, rfl, rfl⟩
  by_cases hq : q = p
  · subst hq
    exact ⟨o, by simp⟩
  · exact ⟨(k.proctab q).next, by simp [hq]; rfl⟩

theorem set (k : Kernel) (Q : QRef) (v : Option Slot) : Relinked k (Q.set k v) := by
  cases Q <;> exact ⟨fun q => ⟨(k.proctab q).next, rfl⟩, rfl, rfl⟩

theorem enqueue (k : Kernel) (p : Slot) : Relinked k (enqueue k p) := by
  unfold Xeros.enqueue
  split
  · rename_i t _
    exact (setNext k t (some p)).trans ⟨fun q => ⟨_, rfl⟩, rfl, rfl⟩
  · exact ⟨fun q => ⟨_, rfl⟩, rfl, rfl⟩

theorem removeLoop {pid : Word} {x : Option Slot} {n : Int}
    (h : removeLoop Q pid fuel k x = .ok (k', n)) : Relinked k k' := by
  rcases removeLoop_set h with rfl | ⟨b, -, rfl | rfl⟩
  · exact refl _
  · exact set k Q _
  · exact (set k Q _).trans (setNext _ b none)

theorem remove {Q : Option QRef} {pid : Word} {n : Int}
    (h : remove k fuel Q pid = .ok (k', n)) : Relinked k k' := by
  cases Q with
  | none => cases h
  | some Q => exact removeLoop h

theorem append (h : append k fuel Q p = .ok k') : Relinked k k' := by
  obtain ⟨k₀, rfl, rfl | rfl | ⟨x, -, -, rfl⟩⟩ := append_cases h
  · exact (setNext k p none).trans (set _ Q _)
  · exact setNext k p none
  · exact (setNext k p none).trans (setNext _ x _)

/-- `ready` changes links and the state of the process. -/
theorem readied (k : Kernel) (p : Slot) :
    Relinked (k.upd p fun c => (c.setNext none).setState .ready) (readied k p) := by
  unfold Xeros.readied
  dsimp only
  split
  · exact refl _
  · exact enqueue _ p

theorem state (h : Relinked k k') (q : Slot) : (k'.proctab q).state = (k.proctab q).state := by
  obtain ⟨o, ho⟩ := h.pcb q
  rw [ho]
  rfl

theorem ret (h : Relinked k k') (q : Slot) : (k'.proctab q).ret = (k.proctab q).ret := by
  obtain ⟨o, ho⟩ := h.pcb q
  rw [ho]
  rfl

theorem pid (h : Relinked k k') (q : Slot) : (k'.proctab q).pid = (k.proctab q).pid := by
  obtain ⟨o, ho⟩ := h.pcb q
  rw [ho]
  rfl

theorem args (h : Relinked k k') (q : Slot) : (k'.proctab q).args = (k.proctab q).args := by
  obtain ⟨o, ho⟩ := h.pcb q
  rw [ho]
  rfl

theorem arg (h : Relinked k k') (q : Slot) (i : Nat) : k'.arg q i = k.arg q i := by
  unfold Kernel.arg
  rw [h.args, h.mem]

end Relinked

/-! ## The links after `append` -/

/-- After `append`, the links of the other processes are the same or lead to `p`, and `p` is
the last. -/
theorem append_link (h : append k fuel Q p = .ok k') :
    k'.link p = none ∧ ∀ x, x ≠ p → k'.link x = k.link x ∨ k'.link x = some p := by
  have hp : (k.upd p fun c => c.setNext none).link p = none := by simp [Kernel.link]
  have hne : ∀ x, x ≠ p → (k.upd p fun c => c.setNext none).link x = k.link x := by
    intro x hx
    simp [Kernel.link, hx]
  obtain ⟨k₀, rfl, rfl | rfl | ⟨y, hy, -, rfl⟩⟩ := append_cases h
  · rw [QRef.set_link]
    exact ⟨hp, fun x hx => .inl (hne x hx)⟩
  · exact ⟨hp, fun x hx => .inl (hne x hx)⟩
  · refine ⟨?_, fun x hx => ?_⟩
    · rw [← hp]
      simp [Kernel.link, hy.symm]
    by_cases hxy : x = y
    · subst hxy
      exact .inr (by simp [Kernel.link])
    · rw [← hne x hx]
      exact .inl (by simp [Kernel.link, hxy])

/-- `append` to `dead_q` leaves the other queues where they are. -/
theorem append_deadQ_others (h : append k fuel .deadQ p = .ok k') :
    k'.blockedQ = k.blockedQ ∧ k'.head = k.head ∧ k'.tail = k.tail ∧
      k'.idleprocPid = k.idleprocPid := by
  obtain ⟨k₀, rfl, rfl | rfl | ⟨x, -, -, rfl⟩⟩ := append_cases h
  · exact ⟨rfl, rfl, rfl, rfl⟩
  · exact ⟨rfl, rfl, rfl, rfl⟩
  · exact ⟨rfl, rfl, rfl, rfl⟩

/-! ## What the walk of `notify_waiters` reads -/

/-- The fields that the walk reads are the same. -/
structure SameCalls (k k' : Kernel) : Prop where
  ret : ∀ q, (k'.proctab q).ret = (k.proctab q).ret
  args : ∀ q, (k'.proctab q).args = (k.proctab q).args
  pid : ∀ q, (k'.proctab q).pid = (k.proctab q).pid
  mem : k'.mem = k.mem
  idle : k'.idleprocPid = k.idleprocPid

namespace SameCalls

theorem arg (h : SameCalls k k') (q : Slot) : k'.arg q 0 = k.arg q 0 := by
  unfold Kernel.arg
  rw [h.args, h.mem]

theorem waitsOn (h : SameCalls k k') {d : Word} : waitsOn k' q d = waitsOn k q d := by
  unfold Xeros.waitsOn
  rw [h.ret, h.arg, h.mem]

/-- The process that stops is put on `dead_q`, which changes nothing that the walk reads. -/
theorem stopped
    (h : Xeros.append (k.upd p fun c => (c.setState .stopped).setNext none) fuel .deadQ p = .ok k') :
    SameCalls k k' := by
  have happ := Relinked.append h
  have hpcb : ∀ q, ((k.upd p fun c => (c.setState .stopped).setNext none).proctab q).ret
        = (k.proctab q).ret ∧
      ((k.upd p fun c => (c.setState .stopped).setNext none).proctab q).args
        = (k.proctab q).args ∧
      ((k.upd p fun c => (c.setState .stopped).setNext none).proctab q).pid
        = (k.proctab q).pid := by
    intro q
    by_cases hq : q = p
    · subst hq
      simp
    · simp [hq]
  exact {
    ret := fun q => (happ.ret q).trans (hpcb q).1
    args := fun q => (happ.args q).trans (hpcb q).2.1
    pid := fun q => (happ.pid q).trans (hpcb q).2.2
    mem := happ.mem
    idle := (append_deadQ_others h).2.2.2 }

end SameCalls

/-! ## The links after `ready` -/

theorem ready_eq (h : ready k p = .ok k') : k' = readied k p := by
  unfold ready at h
  simp only [Run.bind_eq_ok] at h
  obtain ⟨_, -, _, -, _, -, h⟩ := h
  unfold readied
  dsimp only
  split at h <;> simp only [pure, Except.pure, Except.ok.injEq] at h
  · rename_i hi
    exact h.symm.trans (if_pos hi).symm
  · rename_i hi
    exact h.symm.trans (if_neg hi).symm

/-- `ready` clears the link of the process and turns that of the last one in the queue to it;
the idle process is not put in the queue. -/
theorem link_readied (k : Kernel) (p x : Slot) : (readied k p).link x =
    if (k.proctab p).pid ≠ k.idleprocPid ∧ k.tail = some x then some p
    else if x = p then none else k.link x := by
  have hu : (k.upd p fun c => (c.setNext none).setState .ready).link x
      = if x = p then none else k.link x := by
    split
    · rename_i hx
      simp [Kernel.link, hx]
    · rename_i hx
      simp [Kernel.link, hx]
  unfold readied
  dsimp only
  by_cases hi : (k.proctab p).pid = k.idleprocPid
  · rw [if_pos hi, if_neg fun h => h.1 hi]
    exact hu
  · rw [if_neg hi]
    unfold enqueue
    split
    · rename_i t ht
      have ht : k.tail = some t := ht
      rw [ht]
      by_cases hx : x = t
      · subst hx
        simp [Kernel.link, hi]
      · rw [if_neg fun h => hx (Option.some.inj h.2).symm]
        simpa [Kernel.link, hx] using hu
    · rename_i ht
      have ht : k.tail = none := ht
      rw [ht, if_neg (by rintro ⟨-, ⟨⟩⟩)]
      exact hu

/-! ## The walks end -/

/-- A walk of `remove` along a list ends. -/
theorem removeLoop_ok {pid : Word} {x : Option Slot} {l : List Slot} (hc : Chain k.link x l)
    (hf : l.length < fuel) : ∃ k' n, removeLoop Q pid fuel k x = .ok (k', n) := by
  induction fuel generalizing k x l with
  | zero => simp at hf
  | succ fuel ih =>
      cases x with
      | none => exact ⟨k, -1, rfl⟩
      | some b =>
          obtain ⟨l', rfl, hc'⟩ := Chain.some_iff.mp hc
          simp only [removeLoop]
          split
          · exact ⟨_, _, rfl⟩
          · refine ih (l := l') ?_ (by simpa using hf)
            rw [QRef.set_link]
            exact hc'

/-- A walk of `append` along a list ends. -/
theorem appendLoop_ok {x : Option Slot} {l : List Slot} (hc : Chain k.link x l) {prev : Slot}
    (hf : l.length < fuel) : ∃ k', appendLoop p fuel k x prev = .ok k' := by
  induction fuel generalizing x l prev with
  | zero => simp at hf
  | succ fuel ih =>
      cases x with
      | none => exact ⟨_, rfl⟩
      | some n =>
          obtain ⟨l', rfl, hc'⟩ := Chain.some_iff.mp hc
          simp only [appendLoop]
          split
          · exact ⟨_, rfl⟩
          · exact ih hc' (by simpa using hf)

/-- `append` of a process that is not in the queue ends. -/
theorem append_ok {l : List Slot} (hc : Chain k.link (Q.get k) l) (hp : p ∉ l)
    (hf : l.length < fuel) : ∃ k', append k fuel Q p = .ok k' := by
  have hchain : Chain (k.upd p fun c => c.setNext none).link
      (Q.get (k.upd p fun c => c.setNext none)) l := by
    have hget : Q.get (k.upd p fun c => c.setNext none) = Q.get k := by cases Q <;> rfl
    rw [hget]
    refine hc.congr fun q hq => ?_
    have hqp : q ≠ p := by
      rintro rfl
      exact hp hq
    simp [Kernel.link, hqp]
  unfold append
  dsimp only
  split
  · exact ⟨_, rfl⟩
  · rename_i b hb
    rw [hb] at hchain
    exact appendLoop_ok hchain hf

/-- The walk of `append` ends at the last pcb. -/
theorem appendLoop_eq {l : List Slot} {x : Option Slot} {prev : Slot}
    (hc : Chain k.link x l) (hp : p ∉ l) (h : appendLoop p fuel k x prev = .ok k') :
    k' = k.upd (l.getLast?.getD prev) fun c => c.setNext (some p) := by
  induction fuel generalizing x l prev with
  | zero => cases h
  | succ fuel ih =>
      cases x with
      | none =>
          obtain rfl := Chain.none_iff.mp hc
          simp only [appendLoop, pure, Except.pure, Except.ok.injEq] at h
          exact h.symm
      | some n =>
          obtain ⟨l', rfl, hc'⟩ := Chain.some_iff.mp hc
          have hnp : n ≠ p := by
            rintro rfl
            exact hp List.mem_cons_self
          simp only [appendLoop, if_neg hnp] at h
          rw [ih hc' (fun hm => hp (List.mem_cons_of_mem _ hm)) h, List.getLast?_cons,
            Option.getD_some]

/-- `append` changes the links of those in the queue and of the one that is appended. -/
theorem append_link_ne {l : List Slot} (hc : Chain k.link (Q.get k) l) (hp : p ∉ l)
    (h : append k fuel Q p = .ok k') : ∀ x, x ≠ p → x ∉ l → k'.link x = k.link x := by
  have hget : Q.get (k.upd p fun c => c.setNext none) = Q.get k := by cases Q <;> rfl
  have hlink : ∀ x, x ≠ p → (k.upd p fun c => c.setNext none).link x = k.link x := by
    intro x hx
    simp [Kernel.link, hx]
  unfold append at h
  dsimp only at h
  rw [hget] at h
  split at h
  · simp only [pure, Except.pure, Except.ok.injEq] at h
    intro x hx _
    rw [← h, QRef.set_link]
    exact hlink x hx
  · rename_i y hy
    rw [hy] at hc
    have hc' : Chain (k.upd p fun c => c.setNext none).link (some y) l := by
      refine hc.congr fun x hx => hlink x ?_
      rintro rfl
      exact hp hx
    rw [appendLoop_eq hc' hp h]
    intro x hx hxl
    -- the last of the queue is in it
    have hlast : x ≠ l.getLast?.getD y := by
      rintro rfl
      cases hl : l.getLast? with
      | none =>
          obtain ⟨l', rfl, -⟩ := Chain.some_iff.mp hc
          simp at hl
      | some z =>
          rw [hl] at hxl
          exact hxl (List.mem_of_getLast? hl)
    rw [← hlink x hx]
    simp [Kernel.link, hlast]

/-- `append` links the process to the end of the queue. -/
theorem append_chain {l : List Slot} (hc : Chain k.link (Q.get k) l) (hl : l.Nodup) (hp : p ∉ l)
    (h : append k fuel Q p = .ok k') : Chain k'.link (Q.get k') (l ++ [p]) := by
  have hget : Q.get (k.upd p fun c => c.setNext none) = Q.get k := by cases Q <;> rfl
  have hchain : Chain (k.upd p fun c => c.setNext none).link (Q.get k) l := by
    refine hc.congr fun q hq => ?_
    have hqp : q ≠ p := by
      rintro rfl
      exact hp hq
    simp [Kernel.link, hqp]
  have hnext : (k.upd p fun c => c.setNext none).link p = none := by simp [Kernel.link]
  unfold append at h
  dsimp only at h
  rw [hget] at h
  generalize (k.upd p fun c => c.setNext none) = k₁ at h hchain hnext hget
  split at h
  · rename_i hnone
    simp only [pure, Except.pure, Except.ok.injEq] at h
    rw [hnone] at hchain
    obtain rfl := Chain.none_iff.mp hchain
    have hq : Q.get k' = some p := by
      rw [← h]
      cases Q <;> rfl
    have hlink : k'.link p = k₁.link p := by
      rw [← h]
      cases Q <;> rfl
    rw [hq]
    exact ⟨rfl, hlink.trans hnext⟩
  · rename_i b hb
    rw [hb] at hchain
    have hk' := appendLoop_eq hchain hp h
    obtain ⟨l', hl', -⟩ := Chain.some_iff.mp hchain
    obtain ⟨l₁, t, hlt⟩ := List.eq_nil_or_concat l |>.resolve_left (by simp [hl'])
    rw [List.concat_eq_append] at hlt
    rw [hlt, List.getLast?_concat, Option.getD_some] at hk'
    have htl : t ∈ l := by simp [hlt]
    have hpt : p ≠ t := by
      rintro rfl
      exact hp htl
    have hq : Q.get k' = some b := by
      rw [hk', ← hb, ← hget]
      cases Q <;> rfl
    rw [hq, hk']
    rw [hlt] at hchain hl ⊢
    refine hchain.snoc hl (fun c hct => ?_) ?_ ?_
    · simp [Kernel.link, hct]
    · simp [Kernel.link]
    · simpa [Kernel.link, hpt] using hnext

/-- So does `enqueue`, which finds the last process through the tail. -/
theorem enqueue_chain {l : List Slot} (hc : Chain k.link k.head l) (ht : k.tail = l.getLast?)
    (hl : l.Nodup) (hp : p ∉ l) (hnext : k.link p = none) :
    Chain (enqueue k p).link (enqueue k p).head (l ++ [p]) := by
  unfold enqueue
  split
  · rename_i t htail
    rw [htail] at ht
    obtain ⟨l, rfl⟩ := List.getLast?_eq_some_iff.mp ht.symm
    have hpt : p ≠ t := by
      rintro rfl
      exact hp (by simp)
    refine hc.snoc hl (fun a hat => ?_) ?_ ?_
    · simp [Kernel.link, hat]
    · simp [Kernel.link]
    · simpa [Kernel.link, hpt] using hnext
  · rename_i htail
    rw [htail] at ht
    obtain rfl := List.getLast?_eq_none_iff.mp ht.symm
    exact ⟨rfl, hnext⟩

/-- The process is the new tail. -/
@[simp] theorem enqueue_tail (k : Kernel) (p : Slot) : (enqueue k p).tail = some p := by
  unfold enqueue
  split
  · rfl
  · rfl

end Xeros
